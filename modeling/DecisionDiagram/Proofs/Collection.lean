/-
A collection keeps what can be reached from the roots, and growth keeps everything.

* `Marks.of_reachAll` — what a traversal adds to the marks, whatever the store is like;
* `exists_reachAll` — it ends, and the marks are then the inner nodes at or below the given ones;
* `Manager.exists_collect` — a collection ends, leaves the kept nodes as they were, frees all
  others and indexes what is left;
* `Manager.exists_grow` — a growth step ends and changes nothing but the number of slots.

A collection needs the diagram to be reduced under some ranking of the labels, and not the tables to be
right: it serves the end of a change of the order as well, when the tables are out of date.
-/
import DecisionDiagram.Proofs.Growth
import DecisionDiagram.Proofs.Soundness

namespace DecisionDiagram

/-! ### Traversal -/

namespace BitSet

/-- The number of ids below `capacity` that have no mark. -/
def unmarked (marks : BitSet) (capacity : Nat) : Nat :=
  ((Finset.range capacity).filter fun i => marks.contains i = false).card

theorem unmarked_mono {marks marks' : BitSet} (capacity : Nat)
    (h : ∀ i, marks.contains i = true → marks'.contains i = true) :
    marks'.unmarked capacity ≤ marks.unmarked capacity := by
  refine Finset.card_le_card fun i hi => ?_
  rw [Finset.mem_filter] at hi ⊢
  refine ⟨hi.1, ?_⟩
  by_contra hc
  rw [h i (Bool.not_eq_false _ ▸ hc)] at hi
  cases hi.2

theorem unmarked_insert_lt {marks : BitSet} {capacity i : Nat} (hi : i < capacity)
    (hm : marks.contains i = false) :
    (marks.insert i).unmarked capacity < marks.unmarked capacity := by
  refine Finset.card_lt_card ⟨fun j hj => ?_, fun hsub => ?_⟩
  · rw [Finset.mem_filter, contains_insert, Bool.or_eq_false_iff] at hj
    exact Finset.mem_filter.mpr ⟨hj.1, hj.2.2⟩
  · have := hsub (Finset.mem_filter.mpr ⟨Finset.mem_range.mpr hi, hm⟩)
    rw [Finset.mem_filter, contains_insert] at this
    simp at this

theorem unmarked_le (marks : BitSet) (capacity : Nat) : marks.unmarked capacity ≤ capacity := by
  have := Finset.card_filter_le (Finset.range capacity) fun i => marks.contains i = false
  rwa [Finset.card_range] at this

end BitSet

/-- The node has a mark, or needs none. -/
def Covered (marks : BitSet) (id : NodeId) : Prop :=
  id.isTerminal = true ∨ marks.contains id = true

/-- What a traversal from the nodes of `R` adds to the marks: inner nodes at or below these, and
with a node its children. -/
structure Marks (g : Diagram) (R : List NodeId) (marks marks' : BitSet) : Prop where
  mono : ∀ {j}, marks.contains j = true → marks'.contains j = true
  roots : ∀ r ∈ R, Covered marks' r
  closed : ∀ {j : NodeId} {n}, marks'.contains j = true → marks.contains j = false → g j = some n →
    ∀ b, Covered marks' (n.child b)
  source : ∀ {j : NodeId}, marks'.contains j = true → marks.contains j = false →
    j.isTerminal = false ∧ ∃ r ∈ R, g.Reaches r j

section Traversal

variable {g : Diagram} {rank : Nat → Nat} {bound : Nat} {s : Store} {marks : BitSet}

theorem Covered.mono {marks' : BitSet} {id : NodeId}
    (h : ∀ {j}, marks.contains j = true → marks'.contains j = true) (hid : Covered marks id) :
    Covered marks' id := hid.imp_right h

theorem Marks.append {R R' : List NodeId} {marks₁ marks₂ : BitSet} (h : Marks g R marks marks₁)
    (h' : Marks g R' marks₁ marks₂) : Marks g (R ++ R') marks marks₂ := by
  refine ⟨fun hj => h'.mono (h.mono hj), ?_, ?_, ?_⟩
  · intro r hr
    rcases List.mem_append.mp hr with hr | hr
    · exact (h.roots r hr).mono h'.mono
    · exact h'.roots r hr
  · intro j n hj hold hn b
    by_cases h1 : marks₁.contains j = true
    · exact (h.closed h1 hold hn b).mono h'.mono
    · exact h'.closed hj (Bool.eq_false_iff.mpr h1) hn b
  · intro j hj hold
    by_cases h1 : marks₁.contains j = true
    · obtain ⟨ht, r, hr, hp⟩ := h.source h1 hold
      exact ⟨ht, r, List.mem_append_left _ hr, hp⟩
    · obtain ⟨ht, r, hr, hp⟩ := h'.source hj (Bool.eq_false_iff.mpr h1)
      exact ⟨ht, r, List.mem_append_right _ hr, hp⟩

/-- A node is marked before its children are entered. -/
theorem Marks.enter {id : NodeId} {n : Node} {marks' : BitSet} (hn : g id = some n)
    (ht : id.isTerminal = false) (hm : marks.contains id = false)
    (h : Marks g [n.low, n.high] (marks.insert id) marks') : Marks g [id] marks marks' := by
  have hid : marks'.contains id = true := h.mono (by rw [BitSet.contains_insert]; simp)
  have other : ∀ {j}, j ≠ id → marks.contains j = false →
      (marks.insert id).contains j = false := by
    intro j hj hold
    rw [BitSet.contains_insert, hold, beq_eq_false_iff_ne.mpr hj, Bool.or_false]
  -- The mark of `id` is new; all other marks are accounted for by the search below it.
  refine ⟨fun hj => h.mono (by rw [BitSet.contains_insert, hj, Bool.or_true]), ?_, ?_, ?_⟩
  · intro r hr
    rw [List.mem_singleton.mp hr]
    exact .inr hid
  · intro j m hj hold hm' b
    by_cases hji : j = id
    · subst hji
      obtain rfl := Option.some.inj (hn.symm.trans hm')
      cases b
      · exact h.roots n.low (by simp)
      · exact h.roots n.high (by simp)
    · exact h.closed hj (other hji hold) hm' b
  · intro j hj hold
    by_cases hji : j = id
    · subst hji
      exact ⟨ht, j, by simp, .refl⟩
    · obtain ⟨hjt, r, hr, hp⟩ := h.source hj (other hji hold)
      refine ⟨hjt, id, by simp, hp.head ?_⟩
      rcases List.mem_cons.mp hr with rfl | hr
      · exact ⟨n, false, hn, rfl⟩
      · rw [List.mem_singleton.mp hr]
        exact ⟨n, true, hn, rfl⟩

/-- Nothing is added to marks that cover the nodes already. -/
theorem Marks.refl {R : List NodeId} (h : ∀ r ∈ R, Covered marks r) : Marks g R marks marks where
  mono hj := hj
  roots := h
  closed hj hold := absurd hj (Bool.eq_false_iff.mp hold)
  source hj hold := absurd hj (Bool.eq_false_iff.mp hold)

section Reach

variable {nodes : Array Node} {S : NodeId → Prop} {fuel : Nat} {marks' : BitSet}

/-- What a traversal of one node adds to the marks, if it ends.  The arena need agree with the diagram
only in a set `S` of nodes that is not left on the way down. -/
theorem Marks.of_reach
    (hS : ∀ {id n}, S id → id.isTerminal = false → nodes[id]? = some n →
      g id = some n ∧ ∀ b, S (n.child b))
    {id : NodeId} (hid : S id) (h : reach nodes fuel id marks = some marks') :
    Marks g [id] marks marks' := by
  induction fuel generalizing id marks marks' with
  | zero => cases h
  | succ fuel ih =>
    rw [reach] at h
    split at h
    · rename_i hdone
      obtain rfl := Option.some.inj h
      exact .refl fun r hr => List.mem_singleton.mp hr ▸ Bool.or_eq_true_iff.mp hdone
    · rename_i hdone
      obtain ⟨ht, hm⟩ := Bool.or_eq_false_iff.mp (Bool.eq_false_iff.mpr hdone)
      split at h
      · cases h
      · rename_i n hnode
        obtain ⟨hn, hchild⟩ := hS hid ht hnode
        split at h
        · cases h
        · rename_i marks₁ hlow
          exact .enter hn ht hm ((ih (hchild false) hlow).append (ih (hchild true) h))

/-- The same for a list of nodes. -/
theorem Marks.of_reachAll
    (hS : ∀ {id n}, S id → id.isTerminal = false → nodes[id]? = some n →
      g id = some n ∧ ∀ b, S (n.child b))
    {R : List NodeId} (hR : ∀ r ∈ R, S r) (h : reachAll nodes fuel R marks = some marks') :
    Marks g R marks marks' := by
  induction R generalizing marks with
  | nil =>
    obtain rfl := Option.some.inj h
    exact .refl (by simp)
  | cons r R ih =>
    rw [reachAll] at h
    split at h
    · cases h
    · rename_i marks₁ hr
      exact (Marks.of_reach hS (hR r (by simp)) hr).append
        (ih (fun r hr => hR r (List.mem_cons_of_mem _ hr)) h)

end Reach

/-- In a reduced diagram no way down leaves the live nodes. -/
theorem live_of_reduced (hg : s.diagram.Reduced rank bound) {id : NodeId} {n : Node}
    (hid : s.diagram.Live id) (ht : id.isTerminal = false) (hnode : s.nodes[id]? = some n) :
    s.diagram id = some n ∧ ∀ b, s.diagram.Live (n.child b) := by
  obtain ⟨n', hn'⟩ := hid.eq_some ht
  obtain rfl := Option.some.inj (hnode.symm.trans (Store.nodes_of_diagram hn'))
  exact ⟨hn', fun b => (hg.below hn' b).live⟩

/-- The traversal of one node ends.  Each node that is entered gets a mark, so the number of unmarked
ones bounds the depth. -/
theorem exists_reach (hs : s.Valid) (hg : s.diagram.Reduced rank bound) {fuel : Nat} {id : NodeId}
    {marks : BitSet} (hid : s.diagram.Live id) (hfuel : marks.unmarked s.capacity < fuel) :
    ∃ marks', reach s.nodes fuel id marks = some marks' := by
  induction fuel generalizing id marks with
  | zero => omega
  | succ fuel ih =>
    by_cases hdone : (id.isTerminal || marks.contains id) = true
    · exact ⟨marks, by rw [reach, if_pos hdone]⟩
    · obtain ⟨ht, hm⟩ := Bool.or_eq_false_iff.mp (Bool.eq_false_iff.mpr hdone)
      obtain ⟨n, hn⟩ := hid.eq_some ht
      have hlive : ∀ b, s.diagram.Live (n.child b) := fun b => (hg.below hn b).live
      have hless := BitSet.unmarked_insert_lt (hs.lt_of_isSome (by rw [hn]; rfl)) hm
      obtain ⟨marks₁, h₁⟩ : ∃ marks₁, reach s.nodes fuel n.low (marks.insert id) = some marks₁ :=
        ih (hlive false) (by omega)
      have hlow := Marks.of_reach (live_of_reduced hg) (hlive false) h₁
      have hmono := BitSet.unmarked_mono s.capacity fun i => hlow.mono (j := i)
      obtain ⟨marks₂, h₂⟩ : ∃ marks₂, reach s.nodes fuel n.high marks₁ = some marks₂ :=
        ih (hlive true) (by omega)
      refine ⟨marks₂, ?_⟩
      rw [reach, if_neg hdone, Store.nodes_of_diagram hn]
      simp only [h₁, h₂]

theorem exists_reachAll (hs : s.Valid) (hg : s.diagram.Reduced rank bound) {R : List NodeId}
    (hR : ∀ r ∈ R, s.diagram.Live r) (marks : BitSet) :
    ∃ marks', reachAll s.nodes (s.nodes.size + 1) R marks = some marks' ∧
      Marks s.diagram R marks marks' := by
  suffices h : ∃ marks', reachAll s.nodes (s.nodes.size + 1) R marks = some marks' by
    obtain ⟨marks', h⟩ := h
    exact ⟨marks', h, .of_reachAll (live_of_reduced hg) hR h⟩
  induction R generalizing marks with
  | nil => exact ⟨marks, rfl⟩
  | cons r R ih =>
    have hle := BitSet.unmarked_le marks s.capacity
    obtain ⟨marks₁, h₁⟩ := exists_reach hs hg (hR r (by simp))
      (show marks.unmarked s.capacity < s.nodes.size + 1 by rw [hs.arena]; omega)
    obtain ⟨marks₂, h₂⟩ := ih (fun r hr => hR r (List.mem_cons_of_mem _ hr)) marks₁
    refine ⟨marks₂, ?_⟩
    rw [reachAll, h₁]
    exact h₂

/-- Started without marks, the traversal marks the inner nodes at or below the given ones. -/
theorem Marks.contains_iff (hg : g.Reduced rank bound) {R : List NodeId} {marks' : BitSet}
    (h : Marks g R marks marks') (hempty : ∀ j, marks.contains j = false) {id : NodeId}
    (ht : id.isTerminal = false) : marks'.contains id = true ↔ g.Below R id := by
  constructor
  · intro hid
    obtain ⟨-, r, hr, hp⟩ := h.source hid (hempty id)
    exact ⟨r, .inr hr, hp⟩
  · rintro ⟨r, hr, hp⟩
    have hcov : Covered marks' r := by
      rcases hr with hr | hr
      · exact .inl hr
      · exact h.roots r hr
    have hclosed : g.Closed (Covered marks') := by
      rintro p c hp ⟨n, b, hn, rfl⟩
      rcases hp with hp | hp
      · rw [hg.inner hn] at hp
        cases hp
      · exact h.closed hp (hempty p) hn b
    rcases Diagram.Closed.reaches hclosed hcov hp with hid | hid
    · rw [ht] at hid
      cases hid
    · exact hid

end Traversal

namespace Manager

variable {m m' : Manager} {rank : Nat → Nat} {bound : Nat}

/-- The graph of a manager, with its labels below `bound`, fits the store and the unique table.  The
computed tables do not matter. -/
structure Shared (m : Manager) (bound : Nat) : Prop where
  store : m.store.Valid
  reduced : m.diagram.Reduced id bound
  table : m.table.Indexes m.store
  rooted : ∀ {id}, m.Rooted id → m.diagram.Live id

theorem Coherent.shared (h : m.Coherent bound) : m.Shared bound :=
  ⟨h.store, h.reduced, h.table, h.rooted⟩

theorem Shared.rootNodes_live (h : m.Shared bound) : ∀ r ∈ m.rootNodes, m.diagram.Live r :=
  fun _ hr => h.rooted (mem_rootNodes.mp hr).2

theorem Shared.kept_live (h : m.Shared bound) {id : NodeId} (hid : m.Kept id) : m.diagram.Live id :=
  hid.live h.reduced h.rootNodes_live

/-! ### Collection -/

/-- The manager `m'` is `m` after a collection. -/
structure Collected (m m' : Manager) : Prop extends SameFrame m m' where
  pending : m'.pending = m.pending
  error : m'.error = m.error
  store : m'.store.Valid
  capacity : m'.store.capacity = m.store.capacity
  kept : ∀ id, m.Kept id → m'.diagram id = m.diagram id
  dropped : ∀ id, ¬ m.Kept id → m'.diagram id = none
  terminals : ∀ {id : NodeId}, id.isTerminal = true → m'.store.node? id = m.store.node? id
  table : m'.table.Indexes m'.store
  computed : ∀ {bound}, m.diagram.Reduced id bound → (∀ x ∈ m.pairings.nodes, m.diagram.Live x) →
    m.computed.Sound m.diagram m.pairings m.store.TerminalsAt →
    m'.computed.Sound m'.diagram m'.pairings m'.store.TerminalsAt

theorem Collected.reduced (h : m.Collected m') (hg : m.diagram.Reduced rank bound) :
    m'.diagram.Reduced rank bound :=
  hg.restrict (kept_closed m) h.kept h.dropped

theorem exists_collect (hs : m.store.Valid) (hg : m.diagram.Reduced rank bound)
    (hroot : ∀ r ∈ m.rootNodes, m.diagram.Live r) :
    ∃ freed m', m.collect = some (freed, m') ∧ m.Collected m' := by
  obtain ⟨marks, hmarks, hM⟩ := exists_reachAll hs hg hroot m.store.marks.clear
  have hiff : ∀ {id : NodeId}, id.isTerminal = false → (marks.contains id = true ↔ m.Kept id) :=
    fun ht => hM.contains_iff hg (BitSet.contains_clear _) ht
  obtain ⟨s, t, hsweep, hculled, hsize, hhold⟩ := exists_sweep marks
    (UniqueTable.awaits_ofCapacity hs fun hi hj => hg.unique hi hj)
  have hs' := hculled.valid
  have hkept : ∀ id, m.Kept id → s.diagram id = m.diagram id := fun _ => hculled.kept hs hiff
  have hdropped : ∀ id, ¬ m.Kept id → s.diagram id = none := fun _ => hculled.dropped hs hiff
  -- The table was emptied first, so it holds what the sweep put back and nothing else.
  have hindex : t.Indexes s.clearMarks := by
    refine ⟨?_, hhold.congr fun id => ?_⟩
    · rw [hsize, UniqueTable.ofCapacity, Array.size_replicate]
      exact congrArg slotsFor hculled.capacity.symm
    · rw [or_false]
      exact (hculled.isSome_iff hs).symm
  have hlive : ∀ id, s.isLive id = true → m.Kept id := by
    intro id hid
    by_contra hnot
    have hnone := hdropped id hnot
    rcases hs'.live_iff.mpr hid with ht | hsome
    · exact hnot (kept_of_terminal ht)
    · rw [hnone] at hsome
      cases hsome
  refine ⟨_, _, by rw [collect, extent, hmarks]; simp only [hsweep]; rfl, ?_⟩
  rcases hp : m.config.cachePolicy with _ | _
  · simp only [refreshComputed, hp]
    exact ⟨⟨rfl, rfl, rfl, rfl, rfl, rfl, rfl, rfl⟩, rfl, rfl, ⟨hs'.slots, hs'.arena, hs'.small,
      hs'.terminal⟩, hculled.capacity, hkept, hdropped, hculled.terminals _, hindex,
      fun _ _ _ => .clear _ _ _ _⟩
  · simp only [refreshComputed, hp]
    refine ⟨⟨rfl, rfl, rfl, rfl, rfl, rfl, rfl, rfl⟩, rfl, rfl, ⟨hs'.slots, hs'.arena, hs'.small,
      hs'.terminal⟩, hculled.capacity, hkept, hdropped, hculled.terminals _, hindex, fun hg hp hc => ?_⟩
    refine hc.clean hg (hg.restrict (kept_closed m) hkept hdropped) (kept_closed m) hkept
      (fun x hx => ⟨hp x hx, kept_of_rooted (.inr (.inr (.inr (.inr hx))))⟩) hlive fun d hd id ht => ?_
    rw [← hculled.terminals _ ht]
    exact hd id ht

theorem Collected.evolves (h : m.Collected m') : m.Evolves m' where
  toSameFrame := h.toSameFrame
  pending := by
    rw [h.pending]
    exact List.Subset.refl _
  terminals := h.terminals
  kept := h.kept

/-- After a collection, the live nodes are those that it kept. -/
theorem Collected.live_iff (h : m.Collected m') (hlive : ∀ {id}, m.Kept id → m.diagram.Live id)
    {id : NodeId} :
    m'.diagram.Live id ↔ m.Kept id := by
  refine ⟨fun hid => ?_, fun hid => (hlive hid).congr (h.kept id hid)⟩
  by_contra hnot
  rcases hid with ht | hsome
  · exact hnot (kept_of_terminal ht)
  · rw [h.dropped id hnot] at hsome
    cases hsome

/-- A live node was live before, with the same record. -/
theorem Collected.node?_eq (h : m.Collected m') (hlive : ∀ {id}, m.Kept id → m.diagram.Live id)
    {id : NodeId} (hid : m'.diagram.Live id) :
    m.diagram.Live id ∧ m'.store.node? id = m.store.node? id := by
  have hkept := (h.live_iff hlive).mp hid
  refine ⟨hlive hkept, ?_⟩
  rcases hid with ht | hsome
  · exact h.terminals ht
  · obtain ⟨n, hn⟩ := Option.isSome_iff_exists.mp hsome
    have hn' : m.diagram id = some n := (h.kept id hkept).symm.trans hn
    exact (Store.node?_of_diagram hn).trans (Store.node?_of_diagram hn').symm

theorem Shared.collected (hm : m.Shared bound) (h : m.Collected m') : m'.Shared bound where
  store := h.store
  reduced := h.reduced hm.reduced
  table := h.table
  rooted {id} hid := by
    have hid' : m.Rooted id := by
      rw [Rooted, h.pending, h.operands, h.roots, h.literals, h.pairings] at hid
      exact hid
    exact (hm.rooted hid').congr (h.kept id (kept_of_rooted hid'))

theorem Coherent.collected (hm : m.Coherent bound) (h : m.Collected m') : m'.Coherent bound where
  store := h.store
  reduced := h.reduced hm.reduced
  table := h.table
  rooted := (hm.shared.collected h).rooted
  computed := h.computed hm.reduced (fun _ => hm.pairings_live) hm.computed
  error := by
    rw [h.error]
    exact hm.error

/-! ### Growth -/

/-- A growth step adds slots, and not too many. -/
theorem nextCapacity?_spec {capacity : Nat} (hsmall : m.store.capacity < 2 ^ 32)
    (h : m.nextCapacity? = some capacity) : m.store.capacity < capacity ∧ capacity < 2 ^ 32 := by
  rw [nextCapacity?, Option.map_eq_some_iff] at h
  obtain ⟨c, hc, rfl⟩ := h
  have hcur : m.store.capacity.toUInt64.toNat = m.store.capacity := toNat_toUInt64 (by omega)
  obtain ⟨hlt, hle, -⟩ := nextCapacity_eq_some hc
  rw [UInt64.lt_iff_toNat_lt, hcur] at hlt
  rw [UInt64.le_iff_toNat_le] at hle
  have : maxCapacity.toNat = 4294967294 := rfl
  omega

/-- The manager `m'` is `m` after a growth step, or `m` itself if there is none. -/
structure Grown (m m' : Manager) : Prop extends SameFrame m m' where
  pending : m'.pending = m.pending
  error : m'.error = m.error
  store : m'.store.Valid
  diagram : m'.diagram = m.diagram
  terminals : ∀ {id : NodeId}, id.isTerminal = true → m'.store.node? id = m.store.node? id
  table : m'.table.Indexes m'.store
  computed : m.computed.Sound m.diagram m.pairings m.store.TerminalsAt →
    m'.computed.Sound m'.diagram m'.pairings m'.store.TerminalsAt

theorem exists_rehash (hs : m.store.Valid) (distinct : m.store.Distinct) :
    ∃ table, m.rehash = some { m with table } ∧ table.Indexes m.store := by
  have hlen : (UniqueTable.ofCapacity m.store.capacity).slots.size = slotsFor m.store.capacity :=
    Array.size_replicate
  obtain ⟨t, ht, hsize, hhold⟩ :=
    UniqueTable.exists_insertAll? (UniqueTable.awaits_ofCapacity hs distinct)
  refine ⟨t, by rw [rehash, ht]; rfl, hsize.trans hlen, hhold.congr fun id => ?_⟩
  rw [or_false]
  exact hs.isSome_iff.symm

theorem fitComputed_eq (m : Manager) :
    m.fitComputed = m ∨ ∃ bits, m.fitComputed = { m with computed := m.computed.resize bits } := by
  rw [fitComputed]
  split
  · exact .inl rfl
  · dsimp only
    split
    · exact .inl rfl
    · exact .inr ⟨_, rfl⟩

theorem exists_grow (hm : m.Shared bound) : ∃ m', m.grow = some m' ∧ m.Grown m' := by
  rcases hcap : m.nextCapacity? with _ | capacity
  · refine ⟨m, by rw [grow, hcap], .refl m, rfl, rfl, hm.store, rfl, fun _ => rfl, hm.table,
      fun h => h⟩
  · obtain ⟨hlt, hsmall⟩ := nextCapacity?_spec hm.store.small hcap
    have hs := hm.store.grow hlt hsmall
    have hdiagram : (m.store.grow capacity).diagram = m.diagram := hm.store.diagram_grow capacity
    obtain ⟨t, ht, hindex⟩ := exists_rehash (m := { m with
      store := m.store.grow capacity
      counters := { m.counters with growths := m.counters.growths + 1 } }) hs (by
        intro i j n hi hj
        rw [hdiagram] at hi hj
        exact hm.reduced.unique hi hj)
    have hterm : ∀ {id : NodeId}, id.isTerminal = true →
        (m.store.grow capacity).node? id = m.store.node? id := fun ht =>
      Store.node?_grow (hm.store.lt (hm.store.terminal _ ht)) capacity
    refine ⟨_, by rw [grow, hcap]; simp only [ht, Option.map_some]; rfl, ?_⟩
    -- The computed tables keep their answers, unless they are resized too.
    rcases fitComputed_eq { m with
      store := m.store.grow capacity
      table := t
      counters := { m.counters with growths := m.counters.growths + 1 } } with h | ⟨bits, h⟩
    · rw [h]
      refine ⟨⟨rfl, rfl, rfl, rfl, rfl, rfl, rfl, rfl⟩, rfl, rfl, hs, hdiagram, hterm, hindex, ?_⟩
      intro hc
      show m.computed.Sound (m.store.grow capacity).diagram m.pairings _
      rw [hdiagram]
      refine hc.mono hm.reduced hm.reduced (fun _ hx => hm.reduced.child_live hx) (fun _ h => h)
        (fun _ _ => rfl) (fun _ hx => hm.rooted (.inr (.inr (.inr (.inr hx))))) fun d hd id ht => ?_
      rw [← hterm ht]
      exact hd id ht
    · rw [h]
      exact ⟨⟨rfl, rfl, rfl, rfl, rfl, rfl, rfl, rfl⟩, rfl, rfl, hs, hdiagram, hterm, hindex,
        fun _ => .resize _ _ _ _ _⟩

theorem Grown.evolves (h : m.Grown m') : m.Evolves m' where
  toSameFrame := h.toSameFrame
  pending := by
    rw [h.pending]
    exact List.Subset.refl _
  terminals := h.terminals
  kept id _ := by rw [h.diagram]

theorem Shared.grown (hm : m.Shared bound) (h : m.Grown m') : m'.Shared bound where
  store := h.store
  reduced := h.diagram ▸ hm.reduced
  table := h.table
  rooted {id} hid := by
    rw [Rooted, h.pending, h.operands, h.roots, h.literals, h.pairings] at hid
    rw [h.diagram]
    exact hm.rooted hid

theorem Coherent.grown (hm : m.Coherent bound) (h : m.Grown m') : m'.Coherent bound where
  store := h.store
  reduced := h.diagram ▸ hm.reduced
  table := h.table
  rooted := (hm.shared.grown h).rooted
  computed := h.computed hm.computed
  error := by
    rw [h.error]
    exact hm.error

end Manager

end DecisionDiagram
