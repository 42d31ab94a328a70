/-
The unique table is an exact index of a store.

`UniqueTable.Indexes` says that the table has its full length and holds the inner nodes of the
store, each on the path of its record.

* `UniqueTable.Indexes.find_eq`, `.of_found`, `.of_vacant` — what a search answers;
* `UniqueTable.Indexes.put` — a new node takes the vacancy that the search found;
* `UniqueTable.Awaits` — the nodes of a list are in the store and not yet in the table;
* `UniqueTable.exists_insertAll?` — a table is filled from such a list;
* `Store.Culled` — a store without the nodes of a list that have no mark;
* `exists_sweep` — a sweep culls the store and indexes the nodes that stay.
-/
import DecisionDiagram.Collect
import DecisionDiagram.Proofs.Arena
import DecisionDiagram.Proofs.Stretch

namespace DecisionDiagram

namespace Store

variable {s : Store}

/-- No two inner nodes have the same record. -/
def Distinct (s : Store) : Prop :=
  ∀ {i j n}, s.diagram i = some n → s.diagram j = some n → i = j

theorem Distinct.free (h : s.Distinct) (id : NodeId) : (s.free id).Distinct := by
  intro i j n hi hj
  have part : ∀ {j}, (s.free id).diagram j = some n → s.diagram j = some n := by
    intro j hj
    rw [diagram_free, Function.update_apply] at hj
    split at hj
    · cases hj
    · exact hj
  exact h (part hi) (part hj)

theorem nodes_of_diagram {id : NodeId} {n : Node} (h : s.diagram id = some n) :
    s.nodes[id]? = some n := node?_of_diagram h

theorem ne_zero_of_diagram {id : NodeId} {n : Node} (h : s.diagram id = some n) : id ≠ 0 := by
  rintro rfl
  cases inner_of_diagram h

theorem diagram_of_isSome {id : NodeId} {n : Node} (h : (s.diagram id).isSome = true)
    (hn : s.nodes[id]? = some n) : s.diagram id = some n := by
  obtain ⟨n', hn'⟩ := Option.isSome_iff_exists.mp h
  obtain rfl := Option.some.inj (hn.symm.trans (nodes_of_diagram hn'))
  exact hn'

theorem Valid.lt_of_isSome (h : s.Valid) {id : NodeId} (hid : (s.diagram id).isSome = true) :
    id < s.capacity := by
  obtain ⟨n, hn⟩ := Option.isSome_iff_exists.mp hid
  have := h.lt (diagram_eq_some.mp hn).2.1
  rwa [h.arena] at this

theorem Valid.slotsFor_capacity_lt (h : s.Valid) : slotsFor s.capacity < 2 ^ 64 :=
  slotsFor_lt (h.small.trans (by decide))

end Store

namespace UniqueTable

/-- The table holds the nodes of the set `P`, each on the path of its record in the store. -/
abbrev Holds (t : UniqueTable) (nodes : Array Node) (P : NodeId → Prop) : Prop :=
  Stretch t.slots nodes 0 t.slots.size P

/-- The table holds the inner nodes of the store, and nothing else. -/
structure Indexes (t : UniqueTable) (s : Store) : Prop where
  size : t.slots.size = slotsFor s.capacity
  holds : t.Holds s.nodes fun id => (s.diagram id).isSome

variable {t : UniqueTable} {s : Store} {key : Node} {P : NodeId → Prop}

theorem lt_slotsFor (count : Nat) : count < slotsFor count := by
  have := two_mul_le_slotsFor count
  omega

theorem slots_insertAt (t : UniqueTable) (slot : Nat) (id : NodeId) :
    (t.insertAt slot id).slots = t.slots.setIfInBounds slot id := rfl

@[simp] theorem size_insertAt (t : UniqueTable) (slot : Nat) (id : NodeId) :
    (t.insertAt slot id).slots.size = t.slots.size := by
  rw [slots_insertAt, Array.size_setIfInBounds]

theorem holds_ofCapacity {capacity : Nat} (h : slotsFor capacity < 2 ^ 64) (nodes : Array Node) :
    (ofCapacity capacity).Holds nodes fun _ => False := by
  obtain ⟨e, he, hsize⟩ := exists_slotsFor h
  have hlen : (ofCapacity capacity).slots.size = slotsFor capacity := Array.size_replicate
  refine Stretch.of_zero he (hlen.trans hsize) (by omega) ?_
  intro p hp
  rw [hlen] at hp
  show (Array.replicate (slotsFor capacity) 0)[0 + p]? = some 0
  rw [Array.getElem?_replicate, if_pos (by omega)]

theorem indexes_ofCapacity (hs : s.Valid) (h : ∀ id, s.diagram id = none) :
    (ofCapacity s.capacity).Indexes s := by
  have hnone : (fun id => ((s.diagram id).isSome : Prop)) = fun _ => False := by
    funext id
    simp [h id]
  refine ⟨Array.size_replicate, ?_⟩
  rw [hnone]
  exact holds_ofCapacity hs.slotsFor_capacity_lt s.nodes

/-- With fewer nodes than slots, every search ends. -/
theorem Holds.exists_find_of_length {nodes : Array Node} (h : t.Holds nodes P) {l : List NodeId}
    (hl : ∀ id, P id → id ∈ l) (hlt : l.length < t.slots.size) (key : Node) :
    ∃ r, t.find nodes key = some r := by
  obtain ⟨slot, hslot, hzero⟩ := h.exists_vacancy hl hlt
  exact h.exists_probe key hslot hzero

/-- As long as the table is longer than the arena, every search ends. -/
theorem Holds.exists_find (h : t.Holds s.nodes P) (hs : s.Valid)
    (hP : ∀ id, P id → (s.diagram id).isSome) (hlt : s.capacity < t.slots.size) (key : Node) :
    ∃ r, t.find s.nodes key = some r :=
  h.exists_find_of_length (l := List.range s.capacity)
    (fun id hid => List.mem_range.mpr (hs.lt_of_isSome (hP id hid))) (by rwa [List.length_range]) key

/-- The nodes of a list are in the store, and are not in the table, which holds the set `P` and has
room for more. -/
structure Awaits (t : UniqueTable) (s : Store) (P : NodeId → Prop) (ids : List NodeId) : Prop where
  nodup : ids.Nodup
  store : s.Valid
  distinct : s.Distinct
  isSome : ∀ id ∈ ids, (s.diagram id).isSome = true
  holds : t.Holds s.nodes P
  stored : ∀ id, P id → (s.diagram id).isSome = true
  new : ∀ id ∈ ids, ¬ P id
  lt : s.capacity < t.slots.size

/-- An empty table awaits all nodes of the store. -/
theorem awaits_ofCapacity (hs : s.Valid) (distinct : s.Distinct) :
    (ofCapacity s.capacity).Awaits s (fun _ => False) s.liveIds where
  nodup := s.liveIds_nodup
  store := hs
  distinct := distinct
  isSome _ hid := hs.isSome_iff.mpr hid
  holds := holds_ofCapacity hs.slotsFor_capacity_lt s.nodes
  stored _ h := h.elim
  new _ _ h := h
  lt := by
    rw [ofCapacity, Array.size_replicate]
    exact lt_slotsFor _

section Awaits

variable {id : NodeId} {ids : List NodeId}

theorem Awaits.notMem (h : t.Awaits s P (id :: ids)) : id ∉ ids := (List.nodup_cons.mp h.nodup).1

theorem Awaits.ne (h : t.Awaits s P (id :: ids)) {j : NodeId} (hj : j ∈ ids) : j ≠ id := by
  rintro rfl
  exact h.notMem hj

theorem Awaits.eq_some (h : t.Awaits s P (id :: ids)) : ∃ n, s.diagram id = some n :=
  Option.isSome_iff_exists.mp (h.isSome id (by simp))

/-- The next node has a vacancy, takes it, and the table awaits the others. -/
theorem Awaits.exists_vacancy? (h : t.Awaits s P (id :: ids)) :
    ∃ slot, t.vacancy? s.nodes id = some slot ∧
      (t.insertAt slot id).Awaits s (fun j => j = id ∨ P j) ids := by
  obtain ⟨n, hn⟩ := h.eq_some
  have hid : ¬ P id := h.new id (by simp)
  obtain ⟨r, hr⟩ := h.holds.exists_find h.store h.stored h.lt n
  cases r with
  | found j =>
    obtain ⟨hj, hnj⟩ := h.holds.found hr
    have := h.distinct (Store.diagram_of_isSome (h.stored j hj) hnj) hn
    exact absurd (this ▸ hj) hid
  | vacant slot =>
    refine ⟨slot, ?_, (List.nodup_cons.mp h.nodup).2, h.store, h.distinct,
      fun j hj => h.isSome j (List.mem_cons_of_mem _ hj), ?_, ?_, ?_, ?_⟩
    · rw [vacancy?, Store.nodes_of_diagram hn]
      simp only [hr]
    · rw [Holds, size_insertAt]
      exact h.holds.insert (fun _ _ _ hm => hm) (Store.ne_zero_of_diagram hn) hid
        (Store.nodes_of_diagram hn) hr
    · rintro j (rfl | hj)
      · exact h.isSome j (by simp)
      · exact h.stored j hj
    · rintro j hj (rfl | hPj)
      · exact h.notMem hj
      · exact h.new j (List.mem_cons_of_mem _ hj) hPj
    · rw [size_insertAt]
      exact h.lt

/-- Without the next node, the table awaits the others. -/
theorem Awaits.free (h : t.Awaits s P (id :: ids)) : t.Awaits (s.free id) P ids := by
  obtain ⟨n, hn⟩ := h.eq_some
  have hcap : (s.free id).capacity = s.capacity := FreeSlots.capacity_release _ _
  have hne : ∀ {j}, P j → j ≠ id := by
    rintro j hj rfl
    exact h.new j (by simp) hj
  refine ⟨(List.nodup_cons.mp h.nodup).2,
    h.store.free (Store.inner_of_diagram hn) (h.store.lt_of_isSome (h.isSome id (by simp))),
    Store.Distinct.free h.distinct id, fun j hj => ?_, ?_, fun j hj => ?_,
    fun j hj => h.new j (List.mem_cons_of_mem _ hj), by rw [hcap]; exact h.lt⟩
  · rw [Store.diagram_free_of_ne (h.ne hj)]
    exact h.isSome j (List.mem_cons_of_mem _ hj)
  · refine h.holds.congr_nodes fun j m hj hm => ?_
    have hnode := Store.node?_free (s := s) (hne hj)
    exact hnode.trans hm
  · rw [Store.diagram_free_of_ne (hne hj)]
    exact h.stored j hj

theorem exists_insertAll? (h : t.Awaits s P ids) :
    ∃ t', insertAll? s.nodes ids t = some t' ∧ t'.slots.size = t.slots.size ∧
      t'.Holds s.nodes fun id => id ∈ ids ∨ P id := by
  induction ids generalizing t P with
  | nil => exact ⟨t, rfl, rfl, h.holds.congr fun id => by simp⟩
  | cons id ids ih =>
    obtain ⟨slot, hslot, h₁⟩ := h.exists_vacancy?
    obtain ⟨t', ht', hsize, hold⟩ := ih h₁
    refine ⟨t', ?_, hsize.trans (size_insertAt t slot id), hold.congr fun j => ?_⟩
    · rw [insertAll?, hslot]
      exact ht'
    · rw [List.mem_cons]
      tauto

end Awaits

/-! ### Searches in the full index -/

theorem Indexes.lt (h : t.Indexes s) : s.capacity < t.slots.size := by
  rw [h.size]
  exact lt_slotsFor _

theorem Indexes.exists_find (h : t.Indexes s) (hs : s.Valid) (key : Node) :
    ∃ r, t.find s.nodes key = some r :=
  h.holds.exists_find hs (fun _ hid => hid) h.lt key

theorem Indexes.of_found (h : t.Indexes s) {id : NodeId}
    (hf : t.find s.nodes key = some (.found id)) : s.diagram id = some key := by
  obtain ⟨hid, hn⟩ := h.holds.found hf
  exact Store.diagram_of_isSome hid hn

theorem Indexes.of_vacant (h : t.Indexes s) {slot : Nat}
    (hf : t.find s.nodes key = some (.vacant slot)) (id : NodeId) : s.diagram id ≠ some key := by
  intro hn
  have hid : (s.diagram id).isSome = true := by
    rw [hn]
    rfl
  exact h.holds.vacant hf hid (Store.nodes_of_diagram hn)

/-- The table finds every node for its own record. -/
theorem Indexes.find_eq (h : t.Indexes s) (hs : s.Valid) (distinct : s.Distinct) {id : NodeId}
    (hn : s.diagram id = some key) : t.find s.nodes key = some (.found id) := by
  obtain ⟨r, hr⟩ := h.exists_find hs key
  cases r with
  | found j => rw [hr, distinct (h.of_found hr) hn]
  | vacant slot => exact absurd hn (h.of_vacant hr id)

/-- The table holds the inner nodes. -/
theorem Indexes.mem_slots (h : t.Indexes s) (hs : s.Valid) {id : NodeId} (hid : id ≠ 0) :
    (∃ slot : Nat, t.slots[slot]? = some id) ↔ id ∈ s.liveIds := by
  rw [← hs.isSome_iff]
  constructor
  · rintro ⟨slot, hslot⟩
    obtain ⟨hlt, -⟩ := Array.getElem?_eq_some_iff.mp hslot
    exact h.holds.entry hlt (by rwa [Nat.zero_add]) hid
  · intro hsome
    obtain ⟨n, k, -, -, hslot, -⟩ := h.holds.path hsome
    exact ⟨_, hslot⟩

/-- No node takes two slots. -/
theorem Indexes.slot_unique (h : t.Indexes s) {slot slot' : Nat} {id : NodeId}
    (hslot : t.slots[slot]? = some id) (hslot' : t.slots[slot']? = some id) (hid : id ≠ 0) :
    slot = slot' := by
  obtain ⟨hlt, -⟩ := Array.getElem?_eq_some_iff.mp hslot
  obtain ⟨hlt', -⟩ := Array.getElem?_eq_some_iff.mp hslot'
  exact h.holds.once hlt hlt' (by rwa [Nat.zero_add]) (by rwa [Nat.zero_add]) hid

/-- A table is the index of a store if it finds every inner node for its record, and holds nothing else
and no node twice. -/
theorem Indexes.of_find (hs : s.Valid) (hsize : t.slots.size = slotsFor s.capacity)
    (hfind : ∀ {id n}, s.diagram id = some n → t.find s.nodes n = some (.found id))
    (hentry : ∀ {slot : Nat} {id : NodeId}, t.slots[slot]? = some id → id = 0 ∨ id ∈ s.liveIds)
    (honce : ∀ {slot slot' : Nat} {id : NodeId}, t.slots[slot]? = some id → t.slots[slot']? = some id →
      id ≠ 0 → slot = slot') : t.Indexes s := by
  obtain ⟨e, he, hpow⟩ := exists_slotsFor hs.slotsFor_capacity_lt
  refine ⟨hsize, ⟨e, he, hsize.trans hpow⟩, Nat.le_of_eq (Nat.zero_add _), ?_, ?_, ?_, ?_⟩
  · intro p id _ hslot hne
    rw [Nat.zero_add] at hslot
    exact hs.isSome_iff.mpr ((hentry hslot).resolve_left hne)
  · intro id hid
    obtain ⟨n, hn⟩ := Option.isSome_iff_exists.mp hid
    have hlt : t.slots.size < 2 ^ 64 := hsize ▸ hs.slotsFor_capacity_lt
    obtain ⟨k, hk, hpassed, hslot, -, -⟩ := probe_eq_some hlt (hfind hn)
    refine ⟨n, k, Store.nodes_of_diagram hn, hk, hslot, fun j hj hzero => ?_⟩
    obtain ⟨id', -, hslot', hne, -, -⟩ := hpassed j hj
    exact hne (Option.some.inj (hslot'.symm.trans hzero))
  · intro p q id _ _ hp hq hne
    rw [Nat.zero_add] at hp hq
    exact honce hp hq hne
  · intro id hid
    obtain ⟨n, hn⟩ := Option.isSome_iff_exists.mp hid
    exact Store.ne_zero_of_diagram hn

/-- A new node takes the vacancy that the search for its record found. -/
theorem Indexes.put (h : t.Indexes s) (hs : s.Valid) {id : NodeId}
    (hid : s.slots.next? = some id) {slot : Nat} (hf : t.find s.nodes key = some (.vacant slot)) :
    (t.insertAt slot id).Indexes (s.put id key) := by
  have hfresh : s.diagram id = none := Store.diagram_next? hid
  have hlt : id < s.nodes.size := hs.arena ▸ hs.next?_lt hid
  have hnodes : ∀ j, (s.put id key).nodes[j]? = if j = id then some key else s.nodes[j]? :=
    fun j => Store.node?_put hlt key j
  refine ⟨?_, ?_⟩
  · rw [size_insertAt]
    exact h.size
  · rw [Holds, size_insertAt]
    -- The slot of the new node was free, so the other nodes have the records that they had.
    have hold : Stretch (t.slots.setIfInBounds slot id) (s.put id key).nodes 0 t.slots.size
        fun j => j = id ∨ (s.diagram j).isSome = true := by
      refine h.holds.insert ?_ ?_ ?_ ?_ hf
      · intro j n hj hn
        have hne : j ≠ id := by
          rintro rfl
          rw [hfresh] at hj
          cases hj
        rw [hnodes, if_neg hne]
        exact hn
      · rintro rfl
        cases hs.next?_inner hid
      · rw [hfresh]
        exact Bool.false_ne_true
      · rw [hnodes, if_pos rfl]
    refine hold.congr fun j => ?_
    rw [hs.diagram_put hid, Function.update_apply]
    split
    · rename_i hj
      simp [hj]
    · rename_i hj
      simp [hj]

/-- The index depends on the records of the inner nodes only. -/
theorem Indexes.congr (h : t.Indexes s) {s' : Store} (hcap : s'.capacity = s.capacity)
    (hdiagram : s'.diagram = s.diagram) : t.Indexes s' := by
  refine ⟨hcap ▸ h.size, ?_⟩
  rw [hdiagram]
  refine h.holds.congr_nodes fun id n hid hn => ?_
  have hd := Store.diagram_of_isSome hid hn
  rw [← hdiagram] at hd
  exact Store.nodes_of_diagram hd

end UniqueTable

/-! ### Sweeping -/

namespace Store

/-- The store `s'` is `s` without the nodes of a list that have no mark. -/
structure Culled (marks : BitSet) (ids : List NodeId) (s s' : Store) : Prop where
  valid : s'.Valid
  capacity : s'.capacity = s.capacity
  diagram : ∀ id, s'.diagram id =
    if id ∈ ids ∧ marks.contains id = false then none else s.diagram id
  terminals : ∀ id : NodeId, id.isTerminal = true → s'.node? id = s.node? id

variable {s s' : Store} {marks : BitSet} {ids : List NodeId} {id : NodeId}

theorem culled_nil (hs : s.Valid) : Culled marks [] s s :=
  ⟨hs, rfl, fun id => by simp, fun _ _ => rfl⟩

/-- A node with a mark stays. -/
theorem Culled.cons_keep (h : Culled marks ids s s') (hm : marks.contains id = true) :
    Culled marks (id :: ids) s s' := by
  refine ⟨h.valid, h.capacity, fun j => ?_, h.terminals⟩
  rw [h.diagram j]
  by_cases hj : j = id
  · subst hj
    simp [hm]
  · simp [hj]

/-- A node without a mark is freed. -/
theorem Culled.cons_free (h : Culled marks ids (s.free id) s') (hid : id.isTerminal = false)
    (hm : marks.contains id = false) : Culled marks (id :: ids) s s' := by
  refine ⟨h.valid, h.capacity.trans (FreeSlots.capacity_release _ _), fun j => ?_, fun j hj => ?_⟩
  · rw [h.diagram j]
    by_cases hj : j = id
    · subst hj
      simp [hm, diagram_free]
    · simp [hj, diagram_free_of_ne hj]
  · rw [h.terminals j hj, node?_free]
    rintro rfl
    rw [hid] at hj
    cases hj

section All

variable {K : NodeId → Prop}

/-- If the marks tell the nodes of the set `K`, these keep their records. -/
theorem Culled.kept (h : Culled marks s.liveIds s s') (hs : s.Valid)
    (hiff : ∀ {id : NodeId}, id.isTerminal = false → (marks.contains id = true ↔ K id))
    (hid : K id) : s'.diagram id = s.diagram id := by
  rw [h.diagram, if_neg]
  rintro ⟨hlive, hm⟩
  obtain ⟨n, hn⟩ := hs.mem_liveIds.mp hlive
  rw [(hiff (inner_of_diagram hn)).mpr hid] at hm
  cases hm

/-- The other nodes are gone. -/
theorem Culled.dropped (h : Culled marks s.liveIds s s') (hs : s.Valid)
    (hiff : ∀ {id : NodeId}, id.isTerminal = false → (marks.contains id = true ↔ K id))
    (hid : ¬ K id) : s'.diagram id = none := by
  rw [h.diagram]
  split
  · rfl
  · rename_i hnot
    rw [Option.eq_none_iff_forall_ne_some]
    intro n hn
    refine hnot ⟨hs.mem_liveIds.mpr ⟨n, hn⟩, ?_⟩
    rw [Bool.eq_false_iff]
    exact fun hm => hid ((hiff (inner_of_diagram hn)).mp hm)

theorem Culled.isSome_iff (h : Culled marks s.liveIds s s') (hs : s.Valid) :
    (s'.diagram id).isSome = true ↔ id ∈ s.liveIds ∧ marks.contains id = true := by
  rw [h.diagram]
  by_cases hlive : id ∈ s.liveIds
  · by_cases hm : marks.contains id = true
    · simp [hlive, hm, hs.isSome_iff.mpr hlive]
    · simp [hlive, hm]
  · rw [if_neg fun h => hlive h.1, hs.isSome_iff]
    simp [hlive]

end All

end Store

/-- A sweep through a list of nodes frees those without a mark and indexes the others. -/
theorem exists_sweep (marks : BitSet) {ids : List NodeId} {s : Store} {t : UniqueTable}
    {P : NodeId → Prop} (h : t.Awaits s P ids) :
    ∃ s' t', sweep marks ids s t = some (s', t') ∧ s.Culled marks ids s' ∧
      t'.slots.size = t.slots.size ∧
      t'.Holds s'.nodes fun id => (id ∈ ids ∧ marks.contains id = true) ∨ P id := by
  -- The set `P` collects the nodes that the table has got back so far.
  induction ids generalizing s t P with
  | nil => exact ⟨s, t, rfl, Store.culled_nil h.store, rfl, h.holds.congr fun id => by simp⟩
  | cons id ids ih =>
    obtain ⟨n, hn⟩ := h.eq_some
    by_cases hm : marks.contains id = true
    · obtain ⟨slot, hslot, h₁⟩ := h.exists_vacancy?
      obtain ⟨s', t', hsweep, hculled, hsize, hold⟩ := ih h₁
      refine ⟨s', t', ?_, hculled.cons_keep hm, hsize.trans (UniqueTable.size_insertAt t slot id),
        hold.congr fun j => ?_⟩
      · rw [sweep, if_pos hm, hslot]
        exact hsweep
      · by_cases hj : j = id
        · subst hj
          simp [hm]
        · simp [hj]
    · obtain ⟨s', t', hsweep, hculled, hsize, hold⟩ := ih h.free
      refine ⟨s', t', ?_, hculled.cons_free (Store.inner_of_diagram hn) (Bool.eq_false_iff.mpr hm),
        hsize, hold.congr fun j => ?_⟩
      · rw [sweep, if_neg hm]
        exact hsweep
      · by_cases hj : j = id
        · subst hj
          simp [hm]
        · simp [hj]

end DecisionDiagram
