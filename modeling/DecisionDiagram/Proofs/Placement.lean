/-
The unique table is exact after any sequence of insertions.

A node gets into the table in one of two ways: `insert?` looks its own record up, and a new node takes
the vacancy that a search found before its record was written.  The arena may change in between, but
the nodes in the table have records of their own and keep them (`Placement.Separate`).

* `UniqueTable.exists_placeAll?` — an empty table takes as many nodes as it was made for;
* `UniqueTable.exact_index` — afterwards it finds these nodes by their records and nothing else, and
  each search ends where the jumps first meet the node or a vacancy.
-/
import DecisionDiagram.Proofs.Index

namespace DecisionDiagram

/-- The insertion of a node. -/
structure Placement where
  /-- The arena at that time. -/
  arena : Array Node
  id : NodeId
  key : Node
  /-- Whether the record is looked up first, and written to the arena after that. -/
  searched : Bool

namespace UniqueTable

/-- Inserts a node, in the one way or the other. -/
def place? (t : UniqueTable) (p : Placement) : Option UniqueTable :=
  if p.searched then
    match t.find p.arena p.key with
    | some (.vacant slot) => some (t.insertAt slot p.id)
    | _ => none
  else t.insert? p.arena p.id

/-- Inserts nodes, one after the other. -/
def placeAll? (t : UniqueTable) (ps : List Placement) : Option UniqueTable := ps.foldlM place? t

end UniqueTable

namespace Placement

variable {ps : List Placement} {p : Placement} {nodes : Array Node}

/-- The nodes have records of their own, which are in the arena at each later insertion and in the
arena `nodes` at the end. -/
structure Separate (ps : List Placement) (nodes : Array Node) : Prop where
  nonzero : ∀ p ∈ ps, p.id ≠ 0
  written : ∀ p ∈ ps, p.searched = false → p.arena[p.id]? = some p.key
  distinct : (ps.map (·.key)).Nodup
  kept : ps.Pairwise fun p q => q.arena[p.id]? = some p.key
  final : ∀ p ∈ ps, nodes[p.id]? = some p.key

/-- At the last insertion, the other nodes have their records in its arena. -/
theorem Separate.init (h : Separate (ps ++ [p]) nodes) : Separate ps p.arena := by
  obtain ⟨hkept, -, hlast⟩ := List.pairwise_append.mp h.kept
  have hdistinct := h.distinct
  rw [List.map_append, List.nodup_append] at hdistinct
  exact {
    nonzero := fun q hq => h.nonzero q (List.mem_append_left _ hq)
    written := fun q hq => h.written q (List.mem_append_left _ hq)
    distinct := hdistinct.1
    kept := hkept
    final := fun q hq => hlast q hq p (List.mem_singleton_self p) }

theorem Separate.key_ne (h : Separate (ps ++ [p]) nodes) : ∀ q ∈ ps, q.key ≠ p.key := by
  have hdistinct := h.distinct
  rw [List.map_append, List.nodup_append] at hdistinct
  exact fun q hq => hdistinct.2.2 q.key (List.mem_map_of_mem hq) p.key (List.mem_singleton_self _)

/-- No two of the nodes have the same record. -/
theorem Separate.unique (h : Separate ps nodes) {i j : NodeId} {key : Node}
    (hi : ∃ p ∈ ps, p.id = i) (hj : ∃ p ∈ ps, p.id = j) (hik : nodes[i]? = some key)
    (hjk : nodes[j]? = some key) : i = j := by
  obtain ⟨p, hp, rfl⟩ := hi
  obtain ⟨q, hq, rfl⟩ := hj
  have hpk := (h.final p hp).symm.trans hik
  have hqk := (h.final q hq).symm.trans hjk
  rw [List.inj_on_of_nodup_map h.distinct hp hq (Option.some.inj (hpk.trans hqk.symm))]

end Placement

namespace UniqueTable

variable {t : UniqueTable} {nodes : Array Node} {P : NodeId → Prop} {ps : List Placement}
  {p : Placement} {capacity : Nat}

/-- Both ways of insertion put the node into the vacancy for its record. -/
theorem place?_of_vacant {slot : Nat} (h : t.find p.arena p.key = some (.vacant slot))
    (hkey : p.searched = false → p.arena[p.id]? = some p.key) :
    t.place? p = some (t.insertAt slot p.id) := by
  unfold place?
  split
  · rw [h]
  · rename_i hdirect
    rw [Bool.not_eq_true] at hdirect
    rw [insert?, vacancy?, hkey hdirect]
    simp only [h, Option.map_some]

/-- A search for a record that no node has gives the vacancy, and the node takes it. -/
theorem Holds.exists_place? (h : t.Holds p.arena P) {l : List NodeId} (hl : ∀ id, P id → id ∈ l)
    (hlt : l.length < t.slots.size) (hid : p.id ≠ 0)
    (hkey : p.searched = false → p.arena[p.id]? = some p.key)
    (hnew : ∀ id, P id → p.arena[id]? ≠ some p.key) (hold : ¬ P p.id)
    (hkept : ∀ id n, P id → p.arena[id]? = some n → nodes[id]? = some n)
    (hnode : nodes[p.id]? = some p.key) :
    ∃ slot, t.place? p = some (t.insertAt slot p.id) ∧
      (t.insertAt slot p.id).Holds nodes fun id => id = p.id ∨ P id := by
  obtain ⟨r, hr⟩ := h.exists_find_of_length hl hlt p.key
  cases r with
  | found id =>
    obtain ⟨hP, hn⟩ := h.found hr
    exact absurd hn (hnew id hP)
  | vacant slot =>
    refine ⟨slot, place?_of_vacant hr hkey, ?_⟩
    rw [Holds, size_insertAt]
    exact h.insert hkept hid hold hnode hr

theorem placeAll?_append_singleton (t : UniqueTable) (ps : List Placement) (p : Placement) :
    t.placeAll? (ps ++ [p]) = (t.placeAll? ps).bind fun t' => t'.place? p := by
  rw [placeAll?, List.foldlM_append]
  exact congrArg _ (funext fun t' => List.foldlM_cons.trans (bind_pure _))

/-- An empty table takes as many nodes as it was made for. -/
theorem exists_placeAll? (hword : slotsFor capacity < 2 ^ 64) (hle : ps.length ≤ capacity)
    (h : Placement.Separate ps nodes) :
    ∃ t, (ofCapacity capacity).placeAll? ps = some t ∧ t.size = ps.length ∧
      t.slots.size = slotsFor capacity ∧ t.Holds nodes fun id => ∃ p ∈ ps, p.id = id := by
  -- The last insertion is taken off: to the nodes before it, its arena is the one at the end.
  induction ps using List.reverseRecOn generalizing nodes with
  | nil =>
    exact ⟨_, rfl, rfl, Array.size_replicate, (holds_ofCapacity hword nodes).congr (by simp)⟩
  | append_singleton ps p ih =>
    rw [List.length_append, List.length_singleton] at hle
    obtain ⟨t, hrun, hsize, hslots, hold⟩ := ih (Nat.le_of_succ_le hle) h.init
    have hlast : p ∈ ps ++ [p] := List.mem_append_right _ (List.mem_singleton_self p)
    have hfew : (ps.map (·.id)).length < t.slots.size := by
      have := lt_slotsFor capacity
      rw [List.length_map]
      omega
    -- The others have other records, and keep them.
    have hother : ∀ id, (∃ q ∈ ps, q.id = id) → p.arena[id]? ≠ some p.key ∧
        ∀ n, p.arena[id]? = some n → nodes[id]? = some n := by
      rintro id ⟨q, hq, rfl⟩
      rw [h.init.final q hq, h.final q (List.mem_append_left _ hq)]
      exact ⟨fun heq => h.key_ne q hq (Option.some.inj heq), fun n hn => hn⟩
    have hnew : ¬ ∃ q ∈ ps, q.id = p.id := by
      rintro ⟨q, hq, hid⟩
      have hqn := h.final q (List.mem_append_left _ hq)
      rw [hid, h.final p hlast] at hqn
      exact h.key_ne q hq (Option.some.inj hqn).symm
    obtain ⟨slot, hplace, hold'⟩ := hold.exists_place? (fun id hid => List.mem_map.mpr hid) hfew
      (h.nonzero p hlast) (h.written p hlast) (fun id hid => (hother id hid).1) hnew
      (fun id n hid => (hother id hid).2 n) (h.final p hlast)
    refine ⟨t.insertAt slot p.id, ?_, ?_, by rw [size_insertAt, hslots], hold'.congr fun id => ?_⟩
    · rw [placeAll?_append_singleton, hrun]
      exact hplace
    · rw [List.length_append, List.length_singleton, ← hsize]
      rfl
    · simp only [List.mem_append, List.mem_singleton]
      constructor
      · rintro (rfl | ⟨q, hq, rfl⟩)
        · exact ⟨p, .inr rfl, rfl⟩
        · exact ⟨q, .inl hq, rfl⟩
      · rintro ⟨q, hq | rfl, rfl⟩
        · exact .inr ⟨q, hq, rfl⟩
        · exact .inl rfl

/-! ### What the table answers -/

/-- The table is an exact index of the nodes of the set `P`. -/
structure ExactIndex (t : UniqueTable) (nodes : Array Node) (P : NodeId → Prop) : Prop where
  found : ∀ key id, t.find nodes key = some (.found id) ↔ P id ∧ nodes[id]? = some key
  vacant : ∀ key, (∀ id, P id → nodes[id]? ≠ some key) →
    ∃ slot : Nat, t.find nodes key = some (.vacant slot) ∧ t.slots[slot]? = some 0
  /-- The search passes slots with other records, and ends at the node or at a vacancy. -/
  ends : ∀ key, ∃ r k, t.find nodes key = some r ∧ k < t.slots.size ∧
    (∀ i < k, Passed t.slots nodes key (probePos key t.slots.size i)) ∧
    Outcome t.slots nodes key (probePos key t.slots.size k) r
  /-- The jumps lead to every slot once. -/
  visits : ∀ key, Set.BijOn (probePos key t.slots.size) (Set.Iio t.slots.size)
    (Set.Iio t.slots.size)

/-- A table with more slots than nodes, which have records of their own, is exact. -/
theorem Holds.exactIndex (h : t.Holds nodes P) {l : List NodeId} (hl : ∀ id, P id → id ∈ l)
    (hlt : l.length < t.slots.size)
    (hunique : ∀ {i j key}, P i → P j → nodes[i]? = some key → nodes[j]? = some key → i = j) :
    t.ExactIndex nodes P := by
  obtain ⟨p, hp, hzero⟩ := h.exists_vacancy hl hlt
  refine ⟨fun key id => h.found_iff hp hzero hunique, fun key => h.exists_vacant hp hzero,
    fun key => ?_, fun key => ?_⟩
  · obtain ⟨r, hr⟩ := h.exists_probe key hp hzero
    obtain ⟨k, hk, hpassed, hout⟩ := probe_eq_some h.lt hr
    simp only [Nat.zero_add] at hpassed hout
    exact ⟨r, k, hr, hk, hpassed, hout⟩
  · obtain ⟨e, he, hsize⟩ := h.pow
    rw [hsize]
    exact bijOn_probePos he key

/-- **A table that is made or emptied for `capacity` nodes is an exact index of the nodes that are
inserted into it**, up to that number.  The number of slots fits a machine word. -/
theorem exact_index {t₀ : UniqueTable}
    (hmade : t₀ = ofCapacity capacity ∨ ∃ t : UniqueTable, t₀ = t.reset capacity)
    (hword : slotsFor capacity < 2 ^ 64) (hle : ps.length ≤ capacity)
    (h : Placement.Separate ps nodes) :
    ∃ t, t₀.placeAll? ps = some t ∧ t.size = ps.length ∧
      (t.ExactIndex nodes fun id => ∃ p ∈ ps, p.id = id) ∧
      ∀ key slot, t.find nodes key = some (.vacant slot) → ∀ id,
        t₀.placeAll? (ps ++ [⟨nodes, id, key, true⟩]) = some (t.insertAt slot id) := by
  obtain rfl : t₀ = ofCapacity capacity := by
    rcases hmade with rfl | ⟨t, rfl⟩
    · rfl
    · exact reset_eq t capacity
  obtain ⟨t, hrun, hsize, hslots, hold⟩ := exists_placeAll? hword hle h
  refine ⟨t, hrun, hsize, ?_, fun key slot hslot id => ?_⟩
  · refine hold.exactIndex (l := ps.map (·.id)) (fun id hid => List.mem_map.mpr hid) ?_ h.unique
    have := lt_slotsFor capacity
    rw [List.length_map]
    omega
  · rw [placeAll?_append_singleton, hrun]
    exact place?_of_vacant (p := ⟨nodes, id, key, true⟩) hslot fun hdirect => nomatch hdirect

/-- Two nodes get into a table that was full before, the second one by a search for its record. -/
theorem exact_index_after_reset :
    slotsFor 4 < 2 ^ 64 ∧
      Placement.Separate
        [⟨#[⟨2, 0, 0⟩, ⟨2, 1, 1⟩, ⟨1, 0, 1⟩], 2, ⟨1, 0, 1⟩, false⟩,
          ⟨#[⟨2, 0, 0⟩, ⟨2, 1, 1⟩, ⟨1, 0, 1⟩], 3, ⟨0, 2, 1⟩, true⟩]
        #[⟨2, 0, 0⟩, ⟨2, 1, 1⟩, ⟨1, 0, 1⟩, ⟨0, 2, 1⟩] ∧
      ∃ t, ((⟨Array.replicate 8 2, 8⟩ : UniqueTable).reset 4).placeAll?
          [⟨#[⟨2, 0, 0⟩, ⟨2, 1, 1⟩, ⟨1, 0, 1⟩], 2, ⟨1, 0, 1⟩, false⟩,
            ⟨#[⟨2, 0, 0⟩, ⟨2, 1, 1⟩, ⟨1, 0, 1⟩], 3, ⟨0, 2, 1⟩, true⟩] = some t ∧
        t.size = 2 ∧
        t.find #[⟨2, 0, 0⟩, ⟨2, 1, 1⟩, ⟨1, 0, 1⟩, ⟨0, 2, 1⟩] ⟨0, 2, 1⟩ = some (.found 3) ∧
        ∃ slot : Nat, t.find #[⟨2, 0, 0⟩, ⟨2, 1, 1⟩, ⟨1, 0, 1⟩, ⟨0, 2, 1⟩] ⟨0, 2, 0⟩ =
          some (.vacant slot) ∧ t.slots[slot]? = some 0 := by
  have hword : slotsFor 4 < 2 ^ 64 := by decide
  have hsep : Placement.Separate
      [⟨#[⟨2, 0, 0⟩, ⟨2, 1, 1⟩, ⟨1, 0, 1⟩], 2, ⟨1, 0, 1⟩, false⟩,
        ⟨#[⟨2, 0, 0⟩, ⟨2, 1, 1⟩, ⟨1, 0, 1⟩], 3, ⟨0, 2, 1⟩, true⟩]
      #[⟨2, 0, 0⟩, ⟨2, 1, 1⟩, ⟨1, 0, 1⟩, ⟨0, 2, 1⟩] :=
    ⟨by decide, by decide, by decide, by decide, by decide⟩
  obtain ⟨t, hrun, hsize, hexact, -⟩ :=
    exact_index (.inr ⟨⟨Array.replicate 8 2, 8⟩, rfl⟩) hword (by decide) hsep
  refine ⟨hword, hsep, t, hrun, hsize, (hexact.found _ _).mpr ⟨by simp, rfl⟩, hexact.vacant _ ?_⟩
  rintro id ⟨p, hp, rfl⟩
  rw [hsep.final p hp]
  revert p
  decide

end UniqueTable

end DecisionDiagram
