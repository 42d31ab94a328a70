/-
A node of the upper of two adjacent variables that depends on the lower one gets a new record.

* `Rebuilding`, `Prepared` — what holds while nodes are rebuilt, and before one gets its record;
* `Achieves.create`, `Achieves.make` — a node of the upper variable is found or takes a free slot;
* `Prepared.setNode`, `Achieves.replace` — the new record is nobody's, and the values stay;
* `Achieves.rebuild` — a node is rebuilt.
-/
import DecisionDiagram.Proofs.Reorder.Parents
import DecisionDiagram.Proofs.Reorder.Work

namespace DecisionDiagram.Reordering

open Session (Counted maxRefs)
open Diagram (Made Turning)

variable {s s₀ : Session} {rank : Nat → Nat} {x y : Var} {T held : List NodeId} {l r : NodeId}
  {E : Session → Prop}

/-! ### Looking things up -/

/-- A live node has a record. -/
theorem exists_node {out : NodeId → Prop} (h : s.Coherent out held) {id : NodeId}
    (hid : s.diagram.Live id) : ∃ n, s.manager.store.node? id = some n := by
  rcases hid with ht | hsome
  · obtain ⟨n, hn, -⟩ := h.terminals id ht
    exact ⟨n, hn⟩
  · obtain ⟨n, hn⟩ := Option.isSome_iff_exists.mp hsome
    exact ⟨n, Store.node?_of_diagram hn⟩

/-- The search for a record ends. -/
theorem exists_find {out : NodeId → Prop} (h : s.Coherent out held) (n : Node)
    (hn : n.level < s.manager.varNum) :
    ∃ r, s.table.find s.manager.store.nodes n = some r :=
  h.table.exists_find h.roomy (h.regions ▸ hn)

/-! ### Making a node -/

/-- The session `s` comes about from `s₀` while nodes of `x` are rebuilt.  Those of `T` are left. -/
structure Rebuilding (s₀ s : Session) (rank : Nat → Nat) (x y : Var) (T held : List NodeId) :
    Prop where
  frame : s₀.SameFrame s
  coherent : s.Coherent (· ∈ T) held
  amid : s.diagram.Amid rank s.manager.varNum x y (· ∈ T)
  turning : Turning s₀.diagram s.diagram x y (· ∈ T) held
  saturated : ∀ {j}, s₀.Saturated j → s.Saturated j
  held_live : ∀ j ∈ held, s.diagram.Live j
  value : ∀ {a id b}, s₀.diagram.Eval a id b → s.diagram.Eval a id b

theorem Rebuilding.addRef (h : Rebuilding s₀ s rank x y T held) {id : NodeId}
    (hid : s.diagram.Live id) :
    Rebuilding s₀ { s with refs := Session.addRef s.refs id } rank x y T (id :: held) :=
  ⟨h.frame.trans ⟨rfl, rfl, rfl⟩, h.coherent.addRef hid, h.amid, h.turning.hold id, fun hj =>
    ⟨(h.saturated hj).1, Session.addRef_eq_max (h.coherent.lt_refs hid) (h.saturated hj).2⟩,
    fun j hj => by
    rcases List.mem_cons.mp hj with rfl | hj
    · exact hid
    · exact h.held_live j hj, h.value⟩

theorem Rebuilding.child_lt_put {id : NodeId} (h : Rebuilding s₀ s rank x y T held)
    (hl : s.diagram.Under rank (rank x + 1) l) (hr : s.diagram.Under rank (rank x + 1) r)
    (b : Bool) : (Node.mk x l r).child b < (Session.setRef s.refs id 1).size := by
  rw [Session.size_setRef]
  cases b
  · exact h.coherent.lt_refs hl.live
  · exact h.coherent.lt_refs hr.live

section Create

variable {id : NodeId} (h : Rebuilding s₀ s rank x y T held)
  (hid : s.manager.store.slots.next? = some id)
include h hid

/-- The free slot is no live node. -/
theorem Rebuilding.ne_next {j : NodeId} (hj : s.diagram.Live j) : j ≠ id :=
  hj.ne_of_fresh (h.coherent.store.next?_inner hid) (Store.diagram_next? hid)

theorem Rebuilding.next_settled : id ∉ T := by
  intro hmem
  obtain ⟨n, hn, -⟩ := h.amid.depends hmem
  exact h.ne_next hid (Diagram.live_of_eq_some hn) rfl

theorem Rebuilding.next_lt : id < s.refs.size :=
  h.coherent.refs_size ▸ h.coherent.store.next?_lt hid

theorem Rebuilding.diagram_put (n : Node) :
    (s.manager.store.put id n).diagram = Function.update s.diagram id (some n) :=
  h.coherent.store.diagram_put hid n

theorem Rebuilding.node?_put {j : NodeId} (hj : s.diagram.Live j) (n : Node) :
    (s.manager.store.put id n).node? j = s.manager.store.node? j :=
  (Store.node?_put (h.coherent.store.arena ▸ h.coherent.store.next?_lt hid) n j).trans
    (if_neg (h.ne_next hid hj))

/-- The live nodes stay. -/
theorem Rebuilding.keep_put {j : NodeId} (hj : s.diagram.Live j) (n : Node) :
    (s.manager.store.put id n).diagram j = s.diagram j := by
  rw [h.diagram_put hid, Function.update_of_ne (h.ne_next hid hj)]

theorem Rebuilding.live_put {j : NodeId} (hj : s.diagram.Live j) (n : Node) :
    (s.manager.store.put id n).diagram.Live j :=
  hj.congr (h.keep_put hid hj n)

variable (hl : s.diagram.Under rank (rank x + 1) l) (hr : s.diagram.Under rank (rank x + 1) r)
include hl hr

/-- The new node has one reference, which is held, and its children have one more each. -/
theorem Rebuilding.counted_put : Counted (Session.addEdges (Session.setRef s.refs id 1) ⟨x, l, r⟩)
    (s.manager.store.put id ⟨x, l, r⟩).diagram (id :: held) := by
  have hself : (id :: held).count id = 1 := by
    rw [List.count_cons_self,
      List.count_eq_zero.mpr fun hmem => h.ne_next hid (h.held_live id hmem) rfl]
  have hone : Counted (Session.setRef s.refs id 1) s.diagram (id :: held) := by
    refine h.coherent.counted.setRef (h.next_lt hid) (fun j hj => ?_) (.inr ?_)
    · rw [List.count_cons_of_ne (Ne.symm hj)]
    · rw [hself, Diagram.indegree_eq_zero fun p hc => h.ne_next hid (h.amid.child_live hc) rfl]
  rw [h.diagram_put hid]
  exact hone.put (h.child_lt_put hl hr) (by rw [Session.size_setRef]; exact h.next_lt hid)
    (Store.diagram_next? hid)

theorem Rebuilding.max_put {j : NodeId} (hj : s.diagram.Live j) (hm : s.refs.getD j 0 = maxRefs) :
    (Session.addEdges (Session.setRef s.refs id 1) ⟨x, l, r⟩).getD j 0 = maxRefs := by
  refine Session.addEdges_eq_max (h.child_lt_put hl hr) ?_
  rwa [Session.getD_setRef _ (h.next_lt hid), if_neg (h.ne_next hid hj)]

variable (hne : l ≠ r) (new : ∀ j, j ∉ T → s.diagram j ≠ some ⟨x, l, r⟩)
include hne new

theorem Rebuilding.amid_put :
    (s.manager.store.put id ⟨x, l, r⟩).diagram.Amid rank s.manager.varNum x y (· ∈ T) := by
  rw [h.diagram_put hid]
  exact h.amid.insert (h.coherent.store.next?_inner hid) (Store.diagram_next? hid) hne hl hr new

variable {old : NodeId}
  (hold : ∀ v, v = x ∨ s.diagram.Meets v l ∨ s.diagram.Meets v r → s.diagram.Meets v old)
include hold

/-- The record of the new node is put into the slot. -/
theorem Rebuilding.put {table : LevelTable} (hsize : table.regions.size = s.table.regions.size)
    (hroomy : table.Roomy)
    (htable : table.Holds (s.manager.store.put id ⟨x, l, r⟩).nodes fun j =>
      j = id ∨ (s.diagram j).isSome = true ∧ j ∉ T) (counters : Counters) :
    Rebuilding s₀ { s with
      manager := { s.manager with store := s.manager.store.put id ⟨x, l, r⟩, counters }
      refs := Session.addEdges (Session.setRef s.refs id 1) ⟨x, l, r⟩
      table } rank x y T (id :: held) := by
  have hs := h.coherent.store
  have hcounted := h.counted_put hid hl hr
  -- The slot was free, so nothing that is known of the other nodes changes.
  refine ⟨h.frame.trans ⟨rfl, rfl, rfl⟩, ?_, h.amid_put hid hl hr hne new, ?_, fun hj =>
    ⟨h.live_put hid (h.saturated hj).1 _, h.max_put hid hl hr (h.saturated hj).1 (h.saturated hj).2⟩,
    fun j hj => ?_, fun {a j b} hb => ?_⟩
  · refine h.coherent.change (hs.put hid _)
      (fun j hj => h.node?_put hid (Diagram.live_of_terminal hj) _) (htable.congr fun j => ?_)
      hsize hroomy ?_ hcounted (h.max_put hid hl hr)
      (fun hj => h.live_put hid (h.coherent.rooted hj) _) ?_ _
    · rw [h.diagram_put hid]
      by_cases hj : j = id
      · rw [hj, Function.update_self]
        simp [h.next_settled hid]
      · rw [Function.update_of_ne hj]
        simp [hj]
    · rw [Session.size_addEdges, Session.size_setRef]
      exact h.coherent.refs_size
    · rw [h.diagram_put hid]
      exact h.amid.cliques_insert h.coherent.cliques (Store.diagram_next? hid)
        (hs.next?_inner hid) hold hl.live hr.live
  · show Turning _ (s.manager.store.put id _).diagram x y _ _
    rw [h.diagram_put hid]
    exact h.turning.insert (Store.diagram_next? hid) _
  · rcases List.mem_cons.mp hj with rfl | hj
    · refine Diagram.live_of_eq_some (n := ⟨x, l, r⟩) ?_
      show (s.manager.store.put j _).diagram j = _
      rw [h.diagram_put hid, Function.update_self]
    · exact h.live_put hid (h.held_live j hj) _
  · refine (h.value hb).congr (S := fun _ => True) (fun _ _ => trivial) (fun {p n} _ hn => ?_)
      trivial
    exact (h.keep_put hid (Diagram.live_of_eq_some hn) _).trans hn

/-- A new node of `x` takes a free slot. -/
theorem Achieves.create :
    Achieves s (create id ⟨x, l, r⟩) (fun _ s' => Rebuilding s₀ s' rank x y T (id :: held) ∧
      s'.diagram id = some ⟨x, l, r⟩ ∧ id ∉ T ∧
      (∀ j, s.diagram.Live j → s'.diagram j = s.diagram j) ∧
      s.manager.store.freeCount ≤ s'.manager.store.freeCount + 1) E := by
  have hT := h.next_settled hid
  have hself : (s.manager.store.put id ⟨x, l, r⟩).diagram id = some ⟨x, l, r⟩ := by
    rw [h.diagram_put hid, Function.update_self]
  refine Achieves.update ?_
  refine (Achieves.index (n := ⟨x, l, r⟩) (P := fun j => (s.diagram j).isSome = true ∧ j ∉ T)
    (h.coherent.store.put hid _) (h.amid_put hid hl hr hne new).unique ?_ ?_ ?_ ?_ ?_ ?_).bind ?_
  · exact h.coherent.table.congr_nodes fun j hj => h.node?_put hid (.inr hj.1) _
  · exact h.coherent.roomy
  · rintro j ⟨hj, -⟩
    show ((s.manager.store.put id _).diagram j).isSome = true
    rw [h.keep_put hid (.inr hj)]
    exact hj
  · exact hself
  · exact h.coherent.regions ▸ h.amid.upper_lt
  · exact fun hP => h.ne_next hid (.inr hP.1) rfl
  · rintro - s' ⟨table, rfl, hsize, htable, hroomy⟩
    refine ⟨h.put hid hl hr hne new hold hsize hroomy htable _, hself, hT,
      fun j hj => h.keep_put hid hj _, ?_⟩
    show s.manager.store.slots.free ≤ (s.manager.store.slots.take id).free + 1
    rw [FreeSlots.free_take]
    omega

end Create

/-- The node of `x` with the given children, with one more reference to it. -/
theorem Achieves.make (h : Rebuilding s₀ s rank x y T held) {old : NodeId}
    (hl : s.diagram.Under rank (rank x + 1) l) (hr : s.diagram.Under rank (rank x + 1) r)
    (hold : ∀ v, v = x ∨ s.diagram.Meets v l ∨ s.diagram.Meets v r → s.diagram.Meets v old)
    (hfree : 0 < s.manager.store.freeCount) :
    Achieves s (make x l r) (fun res s' => Rebuilding s₀ s' rank x y T (res :: held) ∧
      Made x l r s'.diagram res ∧ res ∉ T ∧
      (∀ j, s.diagram.Live j → s'.diagram j = s.diagram j) ∧
      s.manager.store.freeCount ≤ s'.manager.store.freeCount + 1) E := by
  unfold Reordering.make
  split
  · rename_i heq
    refine Achieves.update (.pure ⟨h.addRef hl.live, ?_, h.amid.not_mem_of_under hl, fun _ _ => rfl,
      Nat.le_succ _⟩)
    rw [Made, if_pos heq]
  · rename_i hne
    obtain ⟨outcome, hf⟩ := exists_find h.coherent ⟨x, l, r⟩ h.amid.upper_lt
    refine .expect hf ?_
    split
    · -- The record is in the table: its node gets one more reference.
      rename_i id
      obtain ⟨⟨hsome, hT⟩, hn⟩ := h.coherent.table.of_found hf
      have hn := Store.diagram_of_isSome hsome hn
      refine Achieves.update (.pure ⟨h.addRef (Diagram.live_of_eq_some hn), ?_, hT, fun _ _ => rfl,
        Nat.le_succ _⟩)
      rw [Made, if_neg hne]
      exact hn
    · -- There is a free slot, where the node is made.
      refine .get ?_
      obtain ⟨id, hid⟩ := h.coherent.store.slots.next?_isSome hfree
      rw [hid]
      have new : ∀ j, j ∉ T → s.diagram j ≠ some ⟨x, l, r⟩ := fun j hT hn =>
        h.coherent.table.of_vacant hf ⟨by rw [hn]; rfl, hT⟩ (Store.nodes_of_diagram hn)
      refine (Achieves.create h hid hl hr hne new hold).bind ?_
      rintro - s' ⟨h', hn, hT, hkeep, hle⟩
      refine .pure ⟨h', ?_, hT, hkeep, hle⟩
      rw [Made, if_neg hne]
      exact hn

/-! ### Rebuilding a node -/

/-- The cofactors that are read off the record of a node are those in the diagram. -/
theorem cofactor_eq (ht : s.manager.store.TerminalsAt s.manager.varNum)
    (hy : y < s.manager.varNum) {c : NodeId} (hc : s.diagram.Live c) {n : Node}
    (hn : s.manager.store.node? c = some n) (b : Bool) :
    n.cofactor c y b = s.diagram.cofactor y b c := by
  by_cases hterm : c.isTerminal = true
  · obtain ⟨m, hm, hlevel⟩ := ht c hterm
    obtain rfl := Option.some.inj (hn.symm.trans hm)
    have hnone : s.diagram c = none := by
      rw [Option.eq_none_iff_forall_ne_some]
      intro m hm
      rw [Store.inner_of_diagram hm] at hterm
      cases hterm
    rw [Diagram.cofactor, hnone, Node.cofactor, if_neg]
    · rfl
    · lia
  · obtain ⟨m, hm⟩ := hc.eq_some (Bool.eq_false_iff.mpr hterm)
    obtain rfl := Option.some.inj (hn.symm.trans (Store.node?_of_diagram hm))
    rw [Diagram.cofactor, hm]
    rfl

/-- The node `id` is about to get a new record, both children of which are made. -/
structure Prepared (s₀ s : Session) (rank : Nat → Nat) (x y : Var) (T : List NodeId) (id : NodeId)
    (n : Node) (low high : NodeId) : Prop
    extends Rebuilding s₀ s rank x y (id :: T) [high, low] where
  node : s.diagram id = some n
  made_low : Made x (s.diagram.cofactor y false n.low) (s.diagram.cofactor y false n.high)
    s.diagram low
  made_high : Made x (s.diagram.cofactor y true n.low) (s.diagram.cofactor y true n.high)
    s.diagram high
  low_settled : low ∉ id :: T
  high_settled : high ∉ id :: T

section Prepared

variable {id low high : NodeId} {n : Node}

theorem mem_cons_ne (hid : id ∉ T) : (fun j => j ∈ id :: T ∧ j ≠ id) = (· ∈ T) := by
  funext j
  rw [List.mem_cons]
  refine propext ⟨fun hj => hj.1.resolve_left hj.2, fun hj => ⟨.inr hj, ?_⟩⟩
  rintro rfl
  exact hid hj

theorem Prepared.mem (_ : Prepared s₀ s rank x y T id n low high) : id ∈ id :: T :=
  List.mem_cons_self

/-- What is held stands at the upper variable or below. -/
theorem Prepared.held_under (h : Prepared s₀ s rank x y T id n low high) :
    ∀ j ∈ [high, low], s.diagram.Under rank (rank x) j := by
  intro j hj
  rcases List.mem_cons.mp hj with rfl | hj
  · exact h.made_high.under (h.amid.grand h.mem h.node false true)
  · rw [List.mem_singleton.mp hj]
    exact h.made_low.under (h.amid.grand h.mem h.node false false)

theorem Prepared.eval (h : Prepared s₀ s rank x y T id n low high) {val : Nat → Bool} {j : NodeId}
    {b : Bool} (hb : s₀.diagram.Eval val j b) :
    Diagram.Eval (Function.update s.diagram id (some ⟨y, low, high⟩)) val j b :=
  h.amid.eval_rebuild h.mem h.node h.made_low h.made_high h.low_settled h.high_settled (h.value hb)

/-- The record that the node gets is nobody's: otherwise two nodes stood for one function in the
diagram before the exchange. -/
theorem Prepared.new_record (h₀ : s₀.Sound) (h : Prepared s₀ s rank x y T id n low high)
    (j : NodeId) (hj : j ∉ id :: T) : s.diagram j ≠ some ⟨y, low, high⟩ := by
  intro hjn
  have hne : j ≠ id := fun heq => hj (heq ▸ h.mem)
  obtain ⟨n₀, hn₀, -⟩ := h.turning.left h.mem
  obtain ⟨m₀, hm₀⟩ := h.turning.old_of_lower h.amid h.held_under hjn rfl
  refine hne (h₀.reduced.eq_of_agree h₀.rank_lt h₀.rank_injective (Diagram.live_of_eq_some hm₀)
    (Diagram.live_of_eq_some hn₀) fun val => ?_)
  -- With the new record the two nodes have the same value, and both keep the one that they had.
  have hinner : ∀ {k m}, Function.update s.diagram id (some ⟨y, low, high⟩) k = some m →
      k.isTerminal = false := h.amid.inner_rebuild h.node
  obtain ⟨b, hb⟩ := h₀.reduced.exists_eval h₀.rank_lt val (Diagram.live_of_eq_some hm₀)
  obtain ⟨c, hc⟩ := h₀.reduced.exists_eval h₀.rank_lt val (Diagram.live_of_eq_some hn₀)
  have hchild := (h.eval hc).child hinner (Function.update_self _ _ _)
  have hjn' := (Function.update_of_ne hne (some ⟨y, low, high⟩) s.diagram).trans hjn
  obtain rfl : b = c := (h.eval hb).unique hinner (.node hjn' hchild)
  exact ⟨b, hb, hc⟩

theorem Prepared.diagram_setNode (h : Prepared s₀ s rank x y T id n low high) :
    (s.manager.store.setNode id ⟨y, low, high⟩).diagram =
      Function.update s.diagram id (some ⟨y, low, high⟩) :=
  h.coherent.store.diagram_setNode h.node _

/-- With the new record the node need not be rebuilt any more. -/
theorem Prepared.amid_setNode (h₀ : s₀.Sound) (h : Prepared s₀ s rank x y T id n low high)
    (hid : id ∉ T) :
    (s.manager.store.setNode id ⟨y, low, high⟩).diagram.Amid rank s.manager.varNum x y (· ∈ T) := by
  rw [h.diagram_setNode, ← mem_cons_ne hid]
  exact h.amid.rebuild h.mem h.node h.made_low h.made_high h.low_settled h.high_settled
    (h.new_record h₀)

theorem Prepared.turning_setNode (h₀ : s₀.Sound) (h : Prepared s₀ s rank x y T id n low high)
    (hid : id ∉ T) :
    Turning s₀.diagram (s.manager.store.setNode id ⟨y, low, high⟩).diagram x y (· ∈ T) [] := by
  rw [h.diagram_setNode, ← mem_cons_ne hid]
  exact h.turning.rebuild h₀.reduced h.amid.inner h.mem h.node h.made_low h.made_high
    h.low_settled h.high_settled

theorem Prepared.node?_setNode (h : Prepared s₀ s rank x y T id n low high) {j : NodeId}
    (hj : j ≠ id) :
    (s.manager.store.setNode id ⟨y, low, high⟩).node? j = s.manager.store.node? j :=
  (Store.node?_setNode (h.coherent.store.lt (Store.diagram_eq_some.mp h.node).2.1) _ j).trans
    (if_neg hj)

theorem Prepared.live_setNode (h : Prepared s₀ s rank x y T id n low high) {j : NodeId}
    (hj : s.diagram.Live j) : (s.manager.store.setNode id ⟨y, low, high⟩).diagram.Live j := by
  rw [h.diagram_setNode]
  by_cases hji : j = id
  · rw [hji]
    exact Diagram.live_of_eq_some (Function.update_self _ _ _)
  · exact hj.congr (Function.update_of_ne hji _ _)

theorem Prepared.child_lt (h : Prepared s₀ s rank x y T id n low high) (b : Bool) :
    n.child b < s.refs.size :=
  h.coherent.lt_refs (h.amid.child_live ⟨n, b, h.node, rfl⟩)

/-- The references that were held are those of the new record. -/
theorem Prepared.counted_setNode (h : Prepared s₀ s rank x y T id n low high) :
    Counted (Session.dropEdges s.refs n)
      (s.manager.store.setNode id ⟨y, low, high⟩).diagram [] := by
  have hheld : Counted s.refs s.diagram (Diagram.edges (some ⟨y, low, high⟩) ++ []) :=
    h.coherent.counted.perm (List.Perm.swap _ _ _)
  rw [h.diagram_setNode]
  exact hheld.change h.child_lt (h.coherent.lt_refs (Diagram.live_of_eq_some h.node)) h.node

/-- The record of the node is replaced. -/
theorem Prepared.setNode (h₀ : s₀.Sound) (h : Prepared s₀ s rank x y T id n low high)
    (hid : id ∉ T) {table : LevelTable} (hsize : table.regions.size = s.table.regions.size)
    (hroomy : table.Roomy)
    (htable : table.Holds (s.manager.store.setNode id ⟨y, low, high⟩).nodes fun j =>
      j = id ∨ (s.diagram j).isSome = true ∧ j ∉ id :: T) :
    Rebuilding s₀ { s with
      manager := { s.manager with store := s.manager.store.setNode id ⟨y, low, high⟩ }
      refs := Session.dropEdges s.refs n
      table } rank x y T [] := by
  have hmax : ∀ {j}, s.refs.getD j 0 = maxRefs →
      (Session.dropEdges s.refs n).getD j 0 = maxRefs := Session.dropEdges_eq_max h.child_lt
  -- With its new record, `id` leaves the set of the nodes that are still to be rebuilt.
  refine ⟨h.frame.trans ⟨rfl, rfl, rfl⟩, ?_, h.amid_setNode h₀ hid, h.turning_setNode h₀ hid,
    fun hj => ⟨h.live_setNode (h.saturated hj).1, hmax (h.saturated hj).2⟩, by simp,
    fun {a j b} hb => ?_⟩
  · refine h.coherent.change (h.coherent.store.setNode id _) (fun j hj => h.node?_setNode ?_)
      (htable.congr fun j => ?_) hsize hroomy ?_ h.counted_setNode (fun _ => hmax)
      (fun hj => h.live_setNode (h.coherent.rooted hj)) ?_ _
    · rintro rfl
      rw [h.amid.inner h.node] at hj
      cases hj
    · rw [h.diagram_setNode]
      by_cases hj : j = id
      · rw [hj, Function.update_self]
        simp [hid]
      · rw [Function.update_of_ne hj]
        simp [hj]
    · rw [Session.size_dropEdges]
      exact h.coherent.refs_size
    · rw [h.diagram_setNode]
      exact h.amid.cliques_rebuild h.mem h.node h.made_low h.made_high h.coherent.cliques
  · show (s.manager.store.setNode id _).diagram.Eval a j b
    rw [h.diagram_setNode]
    exact h.eval hb

/-- Both children of the new record are made. -/
theorem Achieves.makeChildren (h : Rebuilding s₀ s rank x y (id :: T) [])
    (hn : s.diagram id = some n) (hfree : 2 ≤ s.manager.store.freeCount)
    {k : NodeId → NodeId → Reordering Unit} {Q : Unit → Session → Prop}
    (hk : ∀ low high s', Prepared s₀ s' rank x y T id n low high →
      s.manager.store.freeCount ≤ s'.manager.store.freeCount + 2 → Achieves s' (k low high) Q E) :
    Achieves s
      (Reordering.make x (s.diagram.cofactor y false n.low) (s.diagram.cofactor y false n.high) >>=
        fun low =>
          Reordering.make x (s.diagram.cofactor y true n.low) (s.diagram.cofactor y true n.high) >>=
            fun high => k low high) Q E := by
  have hmem : id ∈ id :: T := List.mem_cons_self
  have hx := h.amid.level_eq hmem hn
  -- The labels below the new nodes occur below the node that is rebuilt.
  have hmeets : ∀ {g : Diagram}, g id = some n → ∀ c v,
      v = x ∨ g.Meets v (g.cofactor y c n.low) ∨ g.Meets v (g.cofactor y c n.high) →
      g.Meets v id := by
    rintro g hg c v (rfl | hv | hv)
    · exact .here hg hx
    · exact .child false hg (Diagram.meets_of_cofactor hv)
    · exact .child true hg (Diagram.meets_of_cofactor hv)
  -- A new node leaves the cofactors as they are.
  have hcofactor : ∀ {s' s'' : Session} {held}, Rebuilding s₀ s' rank x y (id :: T) held →
      s'.diagram id = some n → (∀ j, s'.diagram.Live j → s''.diagram j = s'.diagram j) →
      ∀ b c, s''.diagram.cofactor y c (n.child b) = s'.diagram.cofactor y c (n.child b) :=
    fun h' hn' hkeep b c =>
      Diagram.cofactor_congr (hkeep _ (h'.amid.child_live ⟨n, b, hn', rfl⟩)) c
  refine (Achieves.make h (h.amid.grand hmem hn false false) (h.amid.grand hmem hn true false)
    (hmeets hn false) (by omega)).bind ?_
  rintro low s₁ ⟨h₁, hlow, hTlow, hkeep₁, hle₁⟩
  have hn₁ : s₁.diagram id = some n := (hkeep₁ id (Diagram.live_of_eq_some hn)).trans hn
  have hcof₁ := hcofactor h hn hkeep₁
  have hl₁ := hcof₁ false
  have hh₁ := hcof₁ true
  simp only [Node.child_false, Node.child_true] at hl₁ hh₁
  rw [← hl₁ true, ← hh₁ true]
  refine (Achieves.make h₁ (h₁.amid.grand hmem hn₁ false true) (h₁.amid.grand hmem hn₁ true true)
    (hmeets hn₁ true) (by omega)).bind ?_
  rintro high s₂ ⟨h₂, hhigh, hThigh, hkeep₂, hle₂⟩
  have hcof₂ := hcofactor h₁ hn₁ hkeep₂
  have hl₂ := hcof₂ false
  have hh₂ := hcof₂ true
  simp only [Node.child_false, Node.child_true] at hl₂ hh₂
  refine hk low high s₂ ⟨h₂, (hkeep₂ id (Diagram.live_of_eq_some hn₁)).trans hn₁, ?_, ?_, hTlow,
    hThigh⟩ (by omega)
  · rw [Made, hl₂, hh₂, hl₁, hh₁, hkeep₂ low (h₁.held_live low List.mem_cons_self)]
    exact hlow
  · rw [hl₂, hh₂]
    exact hhigh

/-- The node gets its new record, the references of the old one are dropped, and it goes back into the
table. -/
theorem Achieves.replace (h₀ : s₀.Sound) (h : Prepared s₀ s rank x y T id n low high)
    (hid : id ∉ T) :
    Achieves { s with
        manager := { s.manager with store := s.manager.store.setNode id ⟨y, low, high⟩ }
        refs := Session.dropRef (Session.dropRef s.refs n.low) n.high } (Reordering.index id)
      (fun _ s' => Rebuilding s₀ s' rank x y T [] ∧
        s'.manager.store.freeCount = s.manager.store.freeCount) E := by
  have hs := h.coherent.store
  have hset := h.diagram_setNode
  have hne : ∀ {j}, j ∉ id :: T → j ≠ id := by
    rintro j hj rfl
    exact hj List.mem_cons_self
  refine (Achieves.index (n := ⟨y, low, high⟩)
    (P := fun j => (s.diagram j).isSome = true ∧ j ∉ id :: T) (hs.setNode id _)
    (h.amid_setNode h₀ hid).unique ?_ ?_ ?_ ?_ ?_ ?_).mono ?_ fun _ hE => hE
  · exact h.coherent.table.congr_nodes fun j hj => h.node?_setNode (hne hj.2)
  · exact h.coherent.roomy
  · rintro j ⟨hj, hjT⟩
    show ((s.manager.store.setNode id _).diagram j).isSome = true
    rw [hset, Function.update_of_ne (hne hjT)]
    exact hj
  · show (s.manager.store.setNode id _).diagram id = _
    rw [hset, Function.update_self]
  · exact h.coherent.regions ▸ h.amid.lower_lt
  · exact fun hP => hP.2 List.mem_cons_self
  · rintro - s' ⟨table, rfl, hsize, htable, hroomy⟩
    exact ⟨h.setNode h₀ hid hsize hroomy htable, rfl⟩

theorem Achieves.rebuild (h₀ : s₀.Sound) (h : Rebuilding s₀ s rank x y (id :: T) [])
    (hid : id ∉ T) (hfree : 2 * (T.length + 1) ≤ s.manager.store.freeCount) :
    Achieves s (rebuild x y id) (fun _ s' => Rebuilding s₀ s' rank x y T [] ∧
      2 * T.length ≤ s'.manager.store.freeCount) E := by
  obtain ⟨n, hn, -⟩ := h.amid.depends List.mem_cons_self
  refine .expect (Store.node?_of_diagram hn) ?_
  have hlive : ∀ b, s.diagram.Live (n.child b) := fun b => h.amid.child_live ⟨n, b, hn, rfl⟩
  have hcof : ∀ {m b}, s.manager.store.node? (n.child b) = some m → ∀ c,
      m.cofactor (n.child b) y c = s.diagram.cofactor y c (n.child b) := fun hm c =>
    cofactor_eq h.coherent.terminals h.amid.lower_lt (hlive _) hm c
  obtain ⟨ml, hml⟩ := exists_node h.coherent (hlive false)
  refine .expect hml ?_
  have hl : ∀ c, ml.cofactor n.low y c = s.diagram.cofactor y c n.low := hcof (b := false) hml
  simp only [Node.cofactors_eq, hl]
  obtain ⟨mh, hmh⟩ := exists_node h.coherent (hlive true)
  refine .expect hmh ?_
  have hh : ∀ c, mh.cofactor n.high y c = s.diagram.cofactor y c n.high := hcof (b := true) hmh
  simp only [hh]
  refine Achieves.makeChildren h hn (by omega) fun low high s₂ h₂ hle => ?_
  refine Achieves.update (Achieves.update (Achieves.update ?_))
  refine (Achieves.replace h₀ h₂ hid).mono ?_ fun _ hE => hE
  rintro - s' ⟨h', hfree'⟩
  exact ⟨h', by omega⟩

end Prepared

end DecisionDiagram.Reordering
