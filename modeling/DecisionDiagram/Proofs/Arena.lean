/-
The node store, seen as a diagram.

`Store.diagram` forgets the slots, the free records and the terminals.  Every update of a store is a
point-wise update of its diagram (`diagram_put`, `diagram_free`, `diagram_setNode`) or leaves it as
it is (`diagram_grow`, `diagram_setTerminalLevel`).
-/
import DecisionDiagram.Proofs.Diagram
import DecisionDiagram.Proofs.Slots

namespace DecisionDiagram.Store

/-- The records of the inner nodes of a store. -/
def diagram (s : Store) : Diagram := fun id =>
  if id.isTerminal = false ∧ s.isLive id = true then s.node? id else none

/-- Arena and allocator are in step, and the terminals are in place. -/
structure Valid (s : Store) : Prop where
  slots : s.slots.Valid
  arena : s.nodes.size = s.capacity
  small : s.capacity < 2 ^ 32
  terminal : ∀ id, id.isTerminal = true → s.isLive id = true

/-- Both terminals stand at the given level. -/
def TerminalsAt (s : Store) (level : Level) : Prop :=
  ∀ id, id.isTerminal = true → ∃ n, s.node? id = some n ∧ n.level = level

variable {s : Store} {id : NodeId} {n : Node}

theorem diagram_eq_some :
    s.diagram id = some n ↔ id.isTerminal = false ∧ s.isLive id = true ∧ s.node? id = some n := by
  rw [diagram]
  split
  · rename_i h
    simp [h]
  · rename_i h
    constructor
    · intro hn
      cases hn
    · rintro ⟨ht, hl, -⟩
      exact absurd ⟨ht, hl⟩ h

theorem inner_of_diagram (h : s.diagram id = some n) : id.isTerminal = false :=
  (diagram_eq_some.mp h).1

theorem node?_of_diagram (h : s.diagram id = some n) : s.node? id = some n :=
  (diagram_eq_some.mp h).2.2

theorem two_le_of_inner (h : id.isTerminal = false) : 2 ≤ id := by
  simp only [NodeId.isTerminal, decide_eq_false_iff_not] at h
  lia

theorem Valid.lt (h : s.Valid) (hid : s.isLive id = true) : id < s.nodes.size := by
  rw [h.arena]
  exact FreeSlots.lt_of_isUsed hid

/-- A live inner node has a record. -/
theorem Valid.diagram_of_isLive (h : s.Valid) (ht : id.isTerminal = false)
    (hid : s.isLive id = true) : ∃ n, s.diagram id = some n := by
  have hlt := h.lt hid
  have hn : s.node? id = some s.nodes[id] := Array.getElem?_eq_getElem hlt
  exact ⟨_, diagram_eq_some.mpr ⟨ht, hid, hn⟩⟩

theorem Valid.live_iff (h : s.Valid) : s.diagram.Live id ↔ s.isLive id = true := by
  constructor
  · rintro (ht | hs)
    · exact h.terminal id ht
    · obtain ⟨n, hn⟩ := Option.isSome_iff_exists.mp hs
      exact (diagram_eq_some.mp hn).2.1
  · intro hl
    by_cases ht : id.isTerminal = true
    · exact .inl ht
    · obtain ⟨n, hn⟩ := h.diagram_of_isLive (Bool.eq_false_iff.mpr ht) hl
      exact Diagram.live_of_eq_some hn

theorem Valid.mem_liveIds (h : s.Valid) : id ∈ s.liveIds ↔ ∃ n, s.diagram id = some n := by
  rw [Store.mem_liveIds]
  constructor
  · rintro ⟨h2, -, hl⟩
    refine h.diagram_of_isLive ?_ hl
    simp only [NodeId.isTerminal, decide_eq_false_iff_not]
    lia
  · rintro ⟨n, hn⟩
    obtain ⟨ht, hl, -⟩ := diagram_eq_some.mp hn
    exact ⟨two_le_of_inner ht, h.lt hl, hl⟩

theorem Valid.isSome_iff (h : s.Valid) : (s.diagram id).isSome = true ↔ id ∈ s.liveIds :=
  Option.isSome_iff_exists.trans h.mem_liveIds.symm

theorem liveIds_nodup (s : Store) : s.liveIds.Nodup :=
  (liveIds_pairwise s).imp fun h => Nat.ne_of_lt h

/-! ### A new store -/

/-- A new store holds the terminals only. -/
theorem ofCapacity?_eq_some {capacity : Nat} {level : Level} (hsmall : capacity < 2 ^ 32)
    (h : ofCapacity? capacity level = some s) :
    s.Valid ∧ s.capacity = capacity ∧ s.TerminalsAt level ∧ ∀ id, s.diagram id = none := by
  obtain ⟨hv, hcap, hfree⟩ := FreeSlots.valid_ofCapacity capacity
  simp only [ofCapacity?, Option.bind_eq_bind, Option.bind_eq_some_iff, Option.pure_def] at h
  obtain ⟨⟨b₀, slots₀⟩, h₀, ⟨b₁, slots₁⟩, h₁, hs⟩ := h
  obtain ⟨hv₀, hcap₀, hused₀⟩ := hv.claim? h₀
  obtain ⟨hv₁, hcap₁, hused₁⟩ := hv₀.claim? h₁
  obtain rfl := Option.some.inj hs
  have hcapacity : slots₁.capacity = capacity := hcap₁.trans (hcap₀.trans hcap)
  -- Nothing but the two terminals was claimed.
  have hused : ∀ j, slots₁.isUsed j = (j == NodeId.top || j == NodeId.bot) := by
    intro j
    rw [hused₁, hused₀, hfree, Bool.or_false]
  have hterminal : ∀ id : NodeId, id.isTerminal = true → slots₁.isUsed id = true := by
    intro id ht
    rw [hused]
    rcases NodeId.eq_bot_or_eq_top ht with rfl | rfl
    · rfl
    · rfl
  refine ⟨⟨hv₁, ?_, ?_, hterminal⟩, hcapacity, fun id ht => ?_, fun id => ?_⟩
  · show (((Array.replicate capacity Node.vacant).setIfInBounds _ _).setIfInBounds _ _).size = _
    rw [Array.size_setIfInBounds, Array.size_setIfInBounds, Array.size_replicate]
    exact hcapacity.symm
  · exact hcapacity ▸ hsmall
  · have hlt : id < capacity := hcapacity ▸ FreeSlots.lt_of_isUsed (hterminal id ht)
    simp only [node?, Array.getElem?_setIfInBounds, Array.size_setIfInBounds, Array.size_replicate,
      Array.getElem?_replicate]
    rcases NodeId.eq_bot_or_eq_top ht with rfl | rfl
    · simp [NodeId.bot, NodeId.top, show 0 < capacity from hlt, Node.terminal]
    · simp [NodeId.top, show 1 < capacity from hlt, Node.terminal]
  · rw [diagram, if_neg]
    rintro ⟨ht, hl⟩
    have hl : slots₁.isUsed id = true := hl
    rw [hused, Bool.or_eq_true, beq_iff_eq, beq_iff_eq] at hl
    rcases hl with rfl | rfl
    · cases ht
    · cases ht

/-! ### A new node -/

theorem Valid.next?_lt (h : s.Valid) (hid : s.slots.next? = some id) : id < s.capacity :=
  h.slots.next?_lt hid

/-- The slot that is offered holds no node. -/
theorem Valid.next?_inner (h : s.Valid) (hid : s.slots.next? = some id) :
    id.isTerminal = false := by
  rw [Bool.eq_false_iff]
  intro ht
  have hl := h.terminal id ht
  rw [isLive, FreeSlots.isUsed_next? hid] at hl
  cases hl

theorem diagram_next? (hid : s.slots.next? = some id) : s.diagram id = none := by
  rw [diagram, if_neg]
  rintro ⟨-, hl⟩
  rw [isLive, FreeSlots.isUsed_next? hid] at hl
  cases hl

theorem Valid.diagram_put (h : s.Valid) (hid : s.slots.next? = some id) (n : Node) :
    (s.put id n).diagram = Function.update s.diagram id (some n) := by
  have hlt := h.next?_lt hid
  funext j
  rw [Function.update_apply, diagram, isLive_put h.slots.capacity_le hlt, node?_put (h.arena ▸ hlt)]
  by_cases hj : j = id
  · rw [if_pos hj, if_pos hj, if_pos ⟨hj ▸ h.next?_inner hid, by simp [hj]⟩]
  · rw [if_neg hj, if_neg hj, beq_eq_false_iff_ne.mpr hj, Bool.false_or]
    rfl

theorem Valid.put (h : s.Valid) (hid : s.slots.next? = some id) (n : Node) :
    (s.put id n).Valid where
  slots := h.slots.take hid
  arena := by
    show (s.nodes.setIfInBounds id n).size = s.capacity
    rw [Array.size_setIfInBounds, h.arena]
  small := h.small
  terminal j hj := by
    rw [isLive_put h.slots.capacity_le (h.next?_lt hid), h.terminal j hj, Bool.or_true]

/-! ### A node less -/

theorem diagram_free (s : Store) (id : NodeId) :
    (s.free id).diagram = Function.update s.diagram id none := by
  funext j
  rw [Function.update_apply, diagram, isLive_free]
  by_cases hj : j = id
  · rw [if_pos hj, if_neg]
    simp [hj]
  · rw [if_neg hj, bne_iff_ne.mpr hj, Bool.true_and, node?_free hj]
    rfl

theorem diagram_free_of_ne {j : NodeId} (h : j ≠ id) : (s.free id).diagram j = s.diagram j := by
  rw [diagram_free, Function.update_of_ne h]

theorem Valid.free (h : s.Valid) (ht : id.isTerminal = false) (hid : id < s.capacity) :
    (s.free id).Valid where
  slots := h.slots.release hid
  arena := by
    show (s.nodes.setIfInBounds id Node.vacant).size = (s.slots.release id).capacity
    rw [Array.size_setIfInBounds, FreeSlots.capacity_release]
    exact h.arena
  small := by
    show (s.slots.release id).capacity < 2 ^ 32
    rw [FreeSlots.capacity_release]
    exact h.small
  terminal j hj := by
    have hne : j ≠ id := by
      rintro rfl
      rw [hj] at ht
      cases ht
    rw [isLive_free, h.terminal j hj, Bool.and_true, bne_iff_ne]
    exact hne

/-! ### Another record -/

theorem Valid.diagram_setNode (h : s.Valid) {old : Node} (hid : s.diagram id = some old)
    (n : Node) : (s.setNode id n).diagram = Function.update s.diagram id (some n) := by
  obtain ⟨ht, hl, -⟩ := diagram_eq_some.mp hid
  funext j
  rw [Function.update_apply, diagram, isLive_setNode, node?_setNode (h.lt hl)]
  by_cases hj : j = id
  · rw [if_pos hj, if_pos hj, if_pos ⟨hj ▸ ht, hj ▸ hl⟩]
  · rw [if_neg hj, if_neg hj]
    rfl

theorem Valid.setNode (h : s.Valid) (id : NodeId) (n : Node) : (s.setNode id n).Valid where
  slots := h.slots
  arena := by
    show (s.nodes.setIfInBounds id n).size = s.capacity
    rw [Array.size_setIfInBounds, h.arena]
  small := h.small
  terminal := h.terminal

theorem node?_setTerminalLevel (s : Store) (level : Level) (j : NodeId) :
    (s.setTerminalLevel level).node? j =
      if j.isTerminal = true then (s.node? j).map ({ · with level }) else s.node? j := by
  show ((s.nodes.modify NodeId.bot ({ · with level })).modify NodeId.top ({ · with level }))[j]? = _
  rw [Array.getElem?_modify, Array.getElem?_modify]
  by_cases ht : j.isTerminal = true
  · rw [if_pos ht]
    rcases NodeId.eq_bot_or_eq_top ht with rfl | rfl
    · rw [if_neg (by decide), if_pos rfl]
      rfl
    · rw [if_pos rfl, if_neg (by decide)]
      rfl
  · rw [if_neg ht, if_neg, if_neg]
    · rfl
    · rintro rfl
      exact ht rfl
    · rintro rfl
      exact ht rfl

@[simp] theorem diagram_setTerminalLevel (s : Store) (level : Level) :
    (s.setTerminalLevel level).diagram = s.diagram := by
  funext j
  rw [diagram, diagram, node?_setTerminalLevel]
  by_cases ht : j.isTerminal = true
  · rw [if_neg, if_neg] <;> simp [ht]
  · rw [if_neg ht]
    rfl

theorem Valid.setTerminalLevel (h : s.Valid) (level : Level) :
    (s.setTerminalLevel level).Valid where
  slots := h.slots
  arena := by
    show ((s.nodes.modify _ _).modify _ _).size = s.capacity
    rw [Array.size_modify, Array.size_modify, h.arena]
  small := h.small
  terminal := h.terminal

/-! ### Growth -/

theorem Valid.isLive_grow (h : s.Valid) (capacity : Nat) (id : NodeId) :
    (s.grow capacity).isLive id = s.isLive id := by
  unfold grow
  split
  · exact h.slots.isUsed_grow capacity id
  · rfl

theorem Valid.diagram_grow (h : s.Valid) (capacity : Nat) :
    (s.grow capacity).diagram = s.diagram := by
  funext j
  rw [diagram, diagram, h.isLive_grow]
  by_cases hj : j.isTerminal = false ∧ s.isLive j = true
  · rw [if_pos hj, if_pos hj, node?_grow (h.lt hj.2)]
  · rw [if_neg hj, if_neg hj]

theorem capacity_grow {capacity : Nat} (h : s.Valid) (hlt : s.capacity < capacity) :
    (s.grow capacity).capacity = capacity := by
  rw [grow, if_pos (h.arena ▸ hlt)]
  exact FreeSlots.capacity_grow (Nat.le_of_lt hlt)

theorem freeCount_grow {capacity : Nat} (h : s.Valid) (hlt : s.capacity < capacity) :
    (s.grow capacity).freeCount = s.freeCount + (capacity - s.capacity) := by
  rw [grow, if_pos (h.arena ▸ hlt)]
  exact FreeSlots.free_grow (Nat.le_of_lt hlt)

theorem Valid.grow (h : s.Valid) {capacity : Nat} (hlt : s.capacity < capacity)
    (hsmall : capacity < 2 ^ 32) : (s.grow capacity).Valid := by
  have hcap := capacity_grow h hlt
  have hsize : s.nodes.size < capacity := h.arena ▸ hlt
  refine ⟨?_, ?_, ?_, ?_⟩
  · rw [Store.grow, if_pos hsize]
    exact h.slots.grow capacity
  · rw [hcap, Store.grow, if_pos hsize]
    show (s.nodes ++ _).size = _
    rw [Array.size_append, Array.size_replicate]
    omega
  · rw [hcap]
    exact hsmall
  · intro j hj
    rw [Store.grow, if_pos hsize]
    show (s.slots.grow capacity).isUsed j = true
    rw [h.slots.isUsed_grow]
    exact h.terminal j hj

theorem TerminalsAt.grow {level : Level} (h : s.TerminalsAt level) (capacity : Nat) :
    (s.grow capacity).TerminalsAt level := by
  intro j hj
  obtain ⟨n, hn, hl⟩ := h j hj
  obtain ⟨hlt, -⟩ := Array.getElem?_eq_some_iff.mp hn
  exact ⟨n, (node?_grow hlt capacity).trans hn, hl⟩

end DecisionDiagram.Store
