/-
The table that is divided by variable is exact after any sequence of insertions and removals.

The list of the nodes that are in the table, with their records, follows from the requests
(`Request.after`).  A node that was taken out is of no concern to the table any more, so its record may
change; those in the table have records of their own and keep them (`Request.AllWithin`).

* `LevelTable.Represents.insert`, `.take` — what one request preserves;
* `LevelTable.Represents.serveAll` — what a sequence of requests preserves;
* `LevelTable.Holds.insertWithin_eq` — a new layout brings about no further layout;
* `LevelTable.partitioned_index` — the table answers for the nodes of the list and nothing else, in
  each region for those of its variable.
-/
import Mathlib.Data.List.Nodup
import DecisionDiagram.Proofs.Reorder.Regions

namespace DecisionDiagram

namespace LevelTable

/-- A change of the table. -/
inductive Request
  /-- Inserts a node of the arena, whose record there is `key`. -/
  | insert (arena : Array Node) (id : NodeId) (key : Node)
  /-- Empties the region of a variable. -/
  | take (var : Var)

/-- The nodes of the list have the records that stand beside them. -/
def Keeps (nodes : Array Node) (held : List (NodeId × Node)) : Prop :=
  ∀ p ∈ held, nodes[p.1]? = some p.2

namespace Request

/-- The nodes in the table afterwards. -/
def after (held : List (NodeId × Node)) : Request → List (NodeId × Node)
  | insert _ id key => (id, key) :: held
  | take var => held.filter fun p => p.2.level ≠ var

/-- The request may be made of a table with `bound` variables and the nodes of the list, which have
their records at that time.  The names of nodes are 32-bit words. -/
def Within (bound : Nat) (held : List (NodeId × Node)) : Request → Prop
  | insert arena id key => id ≠ 0 ∧ id < 2 ^ 32 ∧ arena[id]? = some key ∧ key.level < bound ∧
      (∀ p ∈ held, arena[p.1]? = some p.2) ∧ ∀ p ∈ held, p.2 ≠ key
  | take var => var < bound

/-- The requests may be made one after the other. -/
def AllWithin (bound : Nat) : List (NodeId × Node) → List Request → Prop
  | _, [] => True
  | held, r :: rs => r.Within bound held ∧ AllWithin bound (r.after held) rs

/-- The nodes in the table after a sequence of requests. -/
def afterAll (held : List (NodeId × Node)) (rs : List Request) : List (NodeId × Node) :=
  rs.foldl after held

instance (bound : Nat) (held : List (NodeId × Node)) : (r : Request) → Decidable (r.Within bound held)
  | insert arena id key => inferInstanceAs (Decidable (id ≠ 0 ∧ id < 2 ^ 32 ∧ arena[id]? = some key ∧
      key.level < bound ∧ (∀ p ∈ held, arena[p.1]? = some p.2) ∧ ∀ p ∈ held, p.2 ≠ key))
  | take var => inferInstanceAs (Decidable (var < bound))

instance decidableAllWithin (bound : Nat) : (held : List (NodeId × Node)) → (rs : List Request) →
    Decidable (AllWithin bound held rs)
  | _, [] => isTrue trivial
  | held, r :: rs =>
    have := decidableAllWithin bound (r.after held) rs
    inferInstanceAs (Decidable (r.Within bound held ∧ AllWithin bound (r.after held) rs))

end Request

/-- The table after a request, where `insert` is the way to insert. -/
def serve? (insert : Array Node → LevelTable → NodeId → Option LevelTable) (t : LevelTable) :
    Request → Option LevelTable
  | .insert arena id _ => insert arena t id
  | .take var => (t.take? var).map Prod.snd

/-- The table after a sequence of requests. -/
def serveAll? (insert : Array Node → LevelTable → NodeId → Option LevelTable) (t : LevelTable)
    (rs : List Request) : Option LevelTable := rs.foldlM (serve? insert) t

variable {t : LevelTable} {nodes : Array Node} {P : NodeId → Prop} {held : List (NodeId × Node)}
  {id : NodeId} {key : Node} {v : Var}

/-! ### Insertion with nested layouts -/

/-- A new layout brings about no further layout, however the nodes are put back. -/
theorem Holds.insertWithin_eq (h : t.Holds nodes P) (hsmall : ∀ id, P id → id < 2 ^ 32)
    (hd : DistinctOn nodes P) (depth : Nat) (id : NodeId) :
    insertWithin? nodes (depth + 1) t id = t.insert? nodes id := by
  rw [insertWithin?, insert?]
  cases nodes[id]? with
  | none => rfl
  | some n =>
    -- No node that is put back comes upon a crowded region, so it does not matter what would happen then.
    obtain ⟨t', hlayout, -⟩ := h.exists_relayout hsmall hd n.level
    simp only [Option.bind_eq_bind, Option.bind_some, makeRoom?, relayout?,
      hlayout _ (places_place nodes), hlayout _ (places_insertWithin nodes depth)]
    split <;> rfl

/-! ### The nodes in the table -/

/-- The table holds the nodes of the list, which have records of their own. -/
structure Represents (t : LevelTable) (held : List (NodeId × Node)) : Prop where
  distinct : (held.map Prod.snd).Nodup
  small : ∀ p ∈ held, p.1 < 2 ^ 32
  roomy : t.Roomy
  holds : ∃ nodes, Keeps nodes held ∧ t.Holds nodes fun id => id ∈ held.map Prod.fst

theorem represents_ofCounts {counts : List Nat} (hword : ∀ c ∈ counts, slotsFor c < 2 ^ 64) :
    (ofCounts counts).Represents [] where
  distinct := List.nodup_nil
  small := List.forall_mem_nil _
  roomy := roomy_ofCounts counts
  holds := ⟨#[], List.forall_mem_nil _, (holds_ofCounts hword #[]).congr fun _ => by simp⟩

section Kept

variable (hkept : Keeps nodes held)
include hkept

/-- A node of the list has the record beside it, and no other. -/
theorem Keeps.mem_iff : (id, key) ∈ held ↔ id ∈ held.map Prod.fst ∧ nodes[id]? = some key := by
  constructor
  · exact fun hp => ⟨List.mem_map.mpr ⟨_, hp, rfl⟩, hkept _ hp⟩
  · rintro ⟨hid, hn⟩
    obtain ⟨⟨j, k⟩, hp, rfl⟩ := List.mem_map.mp hid
    obtain rfl : k = key := Option.some.inj ((hkept _ hp).symm.trans hn)
    exact hp

/-- What is chosen from the list by the records can be chosen by the arena. -/
theorem Keeps.mem_filter_iff (f : Node → Bool) :
    id ∈ (held.filter fun p => f p.2).map Prod.fst ↔
      id ∈ held.map Prod.fst ∧ ∃ n, nodes[id]? = some n ∧ f n = true := by
  constructor
  · intro hid
    obtain ⟨⟨j, n⟩, hp, rfl⟩ := List.mem_map.mp hid
    obtain ⟨hp, hf⟩ := List.mem_filter.mp hp
    exact ⟨List.mem_map_of_mem hp, n, hkept _ hp, hf⟩
  · rintro ⟨hid, n, hn, hf⟩
    exact List.mem_map.mpr ⟨(id, n), List.mem_filter.mpr ⟨hkept.mem_iff.mpr ⟨hid, hn⟩, hf⟩, rfl⟩

theorem Keeps.mem_labelled_iff (v : Var) :
    id ∈ (held.filter fun p => p.2.level = v).map Prod.fst ↔
      id ∈ held.map Prod.fst ∧ Labelled nodes v id := by
  rw [hkept.mem_filter_iff fun n => n.level = v]
  simp only [decide_eq_true_eq, Labelled]

theorem Keeps.mem_unlabelled_iff (v : Var) :
    id ∈ (held.filter fun p => p.2.level ≠ v).map Prod.fst ↔
      id ∈ held.map Prod.fst ∧ ¬ Labelled nodes v id := by
  rw [hkept.mem_filter_iff fun n => n.level ≠ v]
  refine and_congr_right fun hid => ?_
  obtain ⟨p, hp, rfl⟩ := List.mem_map.mp hid
  simp [Labelled, hkept p hp]

theorem Represents.holds_of_keeps (h : t.Represents held) :
    t.Holds nodes fun id => id ∈ held.map Prod.fst := by
  obtain ⟨nodes₀, hkept₀, hold⟩ := h.holds
  refine hold.congr_nodes fun id hid => ?_
  obtain ⟨p, hp, rfl⟩ := List.mem_map.mp hid
  rw [hkept p hp, hkept₀ p hp]

theorem Represents.distinctOn (h : t.Represents held) :
    DistinctOn nodes fun id => id ∈ held.map Prod.fst := by
  refine ⟨fun {i j n} hi hj hin hjn => ?_⟩
  exact congrArg Prod.fst (List.inj_on_of_nodup_map h.distinct (hkept.mem_iff.mpr ⟨hi, hin⟩)
    (hkept.mem_iff.mpr ⟨hj, hjn⟩) rfl)

/-- The names in the list are different, as their records are. -/
theorem Represents.nodup (h : t.Represents held) : (held.map Prod.fst).Nodup := by
  refine List.Nodup.map_on (fun p hp q hq hpq => ?_) (List.Nodup.of_map _ h.distinct)
  refine List.inj_on_of_nodup_map h.distinct hp hq (Option.some.inj ?_)
  rw [← hkept p hp, ← hkept q hq, hpq]

end Kept

theorem Represents.lt (h : t.Represents held) : ∀ id, id ∈ held.map Prod.fst → id < 2 ^ 32 := by
  intro id hid
  obtain ⟨p, hp, rfl⟩ := List.mem_map.mp hid
  exact h.small p hp

/-! ### Requests -/

/-- An insertion adds the node to the list. -/
theorem Represents.insert (h : t.Represents held) {arena : Array Node}
    (hr : (Request.insert arena id key).Within t.regions.size held) :
    ∃ t', t.insert? arena id = some t' ∧
      (∀ depth, insertWithin? arena (depth + 1) t id = some t') ∧
      t'.regions.size = t.regions.size ∧ t'.Represents ((id, key) :: held) := by
  obtain ⟨hid, hsmall, hn, hlt, hkept, hnew⟩ := hr
  have hold := h.holds_of_keeps hkept
  have hdistinct := h.distinctOn hkept
  -- The record is none of those in the table, hence the node is none of those either.
  have hother : ∀ j ∈ held.map Prod.fst, arena[j]? ≠ some key := by
    intro j hj hjn
    exact hnew (j, key) (Keeps.mem_iff hkept |>.mpr ⟨hj, hjn⟩) rfl
  obtain ⟨t', hinsert, hsize, hold', hroomy'⟩ := hold.exists_insert h.roomy h.lt hid hn hlt
    (hdistinct.insert hn hother) fun hmem => hother id hmem hn
  refine ⟨t', hinsert, fun depth => ?_, hsize, ?_, ?_, hroomy', arena, ?_, ?_⟩
  · rw [hold.insertWithin_eq h.lt hdistinct]
    exact hinsert
  · rw [List.map_cons, List.nodup_cons]
    refine ⟨fun hmem => ?_, h.distinct⟩
    obtain ⟨p, hp, heq⟩ := List.mem_map.mp hmem
    exact hnew p hp heq
  · rintro p (_ | ⟨_, hp⟩)
    · exact hsmall
    · exact h.small p hp
  · rintro p (_ | ⟨_, hp⟩)
    · exact hn
    · exact hkept p hp
  · exact hold'.congr fun j => by rw [List.map_cons, List.mem_cons]

/-- The nodes of one variable leave the list. -/
theorem Represents.take (h : t.Represents held) {r : Region} (hr : t.regions[v]? = some r) :
    (t.clear v r).Represents (held.filter fun p => p.2.level ≠ v) := by
  -- The nodes that leave still have their records in the arena of the last insertion.
  obtain ⟨nodes, hkept, hold⟩ := h.holds
  have hsub : (held.filter fun p => p.2.level ≠ v).Sublist held := List.filter_sublist
  refine ⟨h.distinct.sublist (hsub.map _), fun p hp => h.small p (hsub.subset hp),
    h.roomy.clear v r, nodes, fun p hp => hkept p (hsub.subset hp), ?_⟩
  exact (hold.clear hr).congr fun id => (hkept.mem_unlabelled_iff v).symm

/-- The ways to insert that a sequence of requests may be served with: as the table stands, and with
layouts within layouts. -/
def Inserts (insert : Array Node → LevelTable → NodeId → Option LevelTable) : Prop :=
  (insert = fun arena t id => t.insert? arena id) ∨
    ∃ depth, insert = fun arena => insertWithin? arena (depth + 1)

theorem Represents.serve (h : t.Represents held) {r : Request}
    (hr : r.Within t.regions.size held) :
    ∃ t', (∀ insert, Inserts insert → t.serve? insert r = some t') ∧
      t'.regions.size = t.regions.size ∧ t'.Represents (r.after held) := by
  cases r with
  | insert arena id key =>
    obtain ⟨t', hinsert, hwithin, hrest⟩ := h.insert hr
    refine ⟨t', fun insert hins => ?_, hrest⟩
    rcases hins with rfl | ⟨depth, rfl⟩
    · exact hinsert
    · exact hwithin depth
  | take var =>
    have hregion := Array.getElem?_eq_getElem (show var < t.regions.size from hr)
    refine ⟨t.clear var t.regions[var], fun insert _ => ?_, size_regions_clear .., h.take hregion⟩
    rw [serve?, take?, hregion]
    rfl

theorem Represents.serveAll (h : t.Represents held) {rs : List Request}
    (hrs : Request.AllWithin t.regions.size held rs) :
    ∃ t', (∀ insert, Inserts insert → t.serveAll? insert rs = some t') ∧
      t'.regions.size = t.regions.size ∧ t'.Represents (Request.afterAll held rs) := by
  induction rs generalizing t held with
  | nil => exact ⟨t, fun _ _ => rfl, rfl, h⟩
  | cons r rs ih =>
    obtain ⟨t₁, hserve, hsize, h₁⟩ := h.serve hrs.1
    obtain ⟨t', hall, hsize', h'⟩ := ih h₁ (hsize ▸ hrs.2)
    refine ⟨t', fun insert hins => ?_, hsize'.trans hsize, h'⟩
    rw [serveAll?, List.foldlM_cons, hserve insert hins]
    exact hall insert hins

/-! ### What the table answers -/

/-- The table is an exact index of the nodes of the list, in each region of those of its variable. -/
structure Partitions (t : LevelTable) (nodes : Array Node) (held : List (NodeId × Node)) :
    Prop where
  found : ∀ key, key.level < t.regions.size → ∀ id,
    t.find nodes key = some (.found id) ↔ id ∈ held.map Prod.fst ∧ nodes[id]? = some key
  vacant : ∀ key, key.level < t.regions.size → (∀ id ∈ held.map Prod.fst, nodes[id]? ≠ some key) →
    ∃ slot : Nat, t.find nodes key = some (.vacant slot) ∧ t.slots[slot]? = some 0
  count : ∀ v < t.regions.size, t.count? v = some (held.countP fun p => p.2.level = v)
  /-- The nodes of a variable are taken, each once, and the other regions stay as they are. -/
  take : ∀ v < t.regions.size, ∃ ids t', t.take? v = some (ids, t') ∧ ids.Nodup ∧
    ids.Perm ((held.filter fun p => p.2.level = v).map Prod.fst) ∧
    ∀ (w : Var) r, w ≠ v → t.regions[w]? = some r → t'.regions[w]? = some r ∧
      ∀ p, r.start ≤ p → p < r.start + r.size → t'.slots[p]? = t.slots[p]?
  /-- A new layout loses and adds nothing, and brings about no further layout. -/
  layout : ∀ v < t.regions.size, ∃ t', t.relayout? nodes v = some t' ∧
    (∀ depth, t.relayoutBy? (insertWithin? nodes depth) v = some t') ∧
    t'.regions.size = t.regions.size ∧ t'.Roomy ∧ ∀ (w : Var) r r', t.regions[w]? = some r →
      t'.regions[w]? = some r' → (t'.members r').Perm (t.members r)
  roomy : t.Roomy

/-- A search finds the only node of the table with the record. -/
theorem Holds.found_iff (h : t.Holds nodes P) (hroomy : t.Roomy) (hd : DistinctOn nodes P)
    (hlt : key.level < t.regions.size) :
    t.find nodes key = some (.found id) ↔ P id ∧ nodes[id]? = some key := by
  have hr := Array.getElem?_eq_getElem hlt
  obtain ⟨p, hp, hzero⟩ := h.exists_zero hroomy hr
  rw [find, hr]
  refine ((h.region hr).found_iff hp hzero fun hi hj => hd.unique hi.1 hj.1).trans ?_
  -- A node with the record has its label, so it is in the region that was searched.
  exact ⟨fun hf => ⟨hf.1.1, hf.2⟩, fun hf => ⟨⟨hf.1, key, hf.2, rfl⟩, hf.2⟩⟩

theorem Holds.exists_vacant (h : t.Holds nodes P) (hroomy : t.Roomy)
    (hlt : key.level < t.regions.size) (hnone : ∀ id, P id → nodes[id]? ≠ some key) :
    ∃ slot : Nat, t.find nodes key = some (.vacant slot) ∧ t.slots[slot]? = some 0 := by
  have hr := Array.getElem?_eq_getElem hlt
  obtain ⟨p, hp, hzero⟩ := h.exists_zero hroomy hr
  rw [find, hr]
  exact (h.region hr).exists_vacant hp hzero fun id hid => hnone id hid.1

/-- The nodes of a region are those of the list with the label. -/
theorem Represents.members_perm (h : t.Represents held) (hkept : Keeps nodes held) {r : Region}
    (hr : t.regions[v]? = some r) :
    (t.members r).Perm ((held.filter fun p => p.2.level = v).map Prod.fst) := by
  have hold := h.holds_of_keeps hkept
  have hnodup : ((held.filter fun p => p.2.level = v).map Prod.fst).Nodup :=
    (h.nodup hkept).sublist (List.filter_sublist.map _)
  refine (List.perm_ext_iff_of_nodup (hold.members_nodup hr) hnodup).mpr fun id => ?_
  rw [hold.mem_members hr, hkept.mem_labelled_iff]

theorem Holds.count_eq (h : t.Holds nodes P) {r : Region} (hr : t.regions[v]? = some r) :
    r.count = (t.members r).length := by
  obtain ⟨l, hnodup, hl, hcount⟩ := h.count hr
  rw [hcount]
  refine ((List.perm_ext_iff_of_nodup hnodup (h.members_nodup hr)).mpr fun id => ?_).length_eq
  rw [hl, h.mem_members hr]

/-- A region that is emptied leaves the others as they are. -/
theorem Holds.clear_other (h : t.Holds nodes P) {r r' : Region} {w : Var}
    (hr : t.regions[v]? = some r) (hne : w ≠ v) (hr' : t.regions[w]? = some r') :
    (t.clear v r).regions[w]? = some r' ∧
      ∀ p, r'.start ≤ p → p < r'.start + r'.size → (t.clear v r).slots[p]? = t.slots[p]? := by
  constructor
  · show (t.regions.modify v _)[w]? = some r'
    rw [Array.getElem?_modify, if_neg hne.symm]
    exact hr'
  · intro p hp hlt
    have hdis := h.disjoint hne hr' hr
    show (List.foldl _ t.slots _)[p]? = _
    rw [getElem?_foldl_zero, if_neg]
    rw [List.mem_range'_1]
    omega

theorem Represents.partitions (h : t.Represents held) (hkept : Keeps nodes held) :
    t.Partitions nodes held := by
  have hold := h.holds_of_keeps hkept
  have hdistinct := h.distinctOn hkept
  refine ⟨fun key hlt id => hold.found_iff h.roomy hdistinct hlt,
    fun key hlt => hold.exists_vacant h.roomy hlt, fun v hv => ?_, fun v hv => ?_, fun v hv => ?_,
    h.roomy⟩
  · have hr := Array.getElem?_eq_getElem hv
    rw [count?, hr, Option.map_some, hold.count_eq hr, (h.members_perm hkept hr).length_eq,
      List.length_map, List.countP_eq_length_filter]
  · have hr := Array.getElem?_eq_getElem hv
    refine ⟨t.members t.regions[v], t.clear v t.regions[v], ?_, hold.members_nodup hr,
      h.members_perm hkept hr, fun w r' hne hr' => hold.clear_other hr hne hr'⟩
    rw [take?, hr]
    rfl
  · obtain ⟨t', hlayout, hsize, hold', hroomy, -⟩ := hold.exists_relayout h.lt hdistinct v
    refine ⟨t', hlayout _ (places_place nodes),
      fun depth => hlayout _ (places_insertWithin nodes depth), hsize, hroomy,
      fun w r r' hr hr' => ?_⟩
    refine (List.perm_ext_iff_of_nodup (hold'.members_nodup hr') (hold.members_nodup hr)).mpr
      fun id => ?_
    rw [hold'.mem_members hr', hold.mem_members hr]

/-- **The table is an exact index of the nodes that were inserted and not taken out since**, in each
region of those of its variable.  Whether the layouts within layouts that the insertion might bring
about are counted or left out makes no difference, because none comes up.  The number of slots of
each region fits a machine word. -/
theorem partitioned_index {counts : List Nat} (hword : ∀ c ∈ counts, slotsFor c < 2 ^ 64)
    {rs : List Request} (hrs : Request.AllWithin counts.length [] rs)
    (hkept : Keeps nodes (Request.afterAll [] rs)) :
    ∃ t, (ofCounts counts).serveAll? (fun arena t id => t.insert? arena id) rs = some t ∧
      (∀ depth, (ofCounts counts).serveAll? (fun arena => insertWithin? arena (depth + 1)) rs =
        some t) ∧
      t.regions.size = counts.length ∧ t.Partitions nodes (Request.afterAll [] rs) := by
  have hsize := size_regions_ofCounts counts
  obtain ⟨t, hserve, hsize', h⟩ := (represents_ofCounts hword).serveAll (hsize.symm ▸ hrs)
  exact ⟨t, hserve _ (.inl rfl), fun depth => hserve _ (.inr ⟨depth, rfl⟩), hsize'.trans hsize,
    h.partitions hkept⟩

/-- The fifth node of a variable brings about a new layout, and the node of the other variable is taken
out afterwards. -/
theorem partitioned_index_after_layout :
    let arena : Array Node := #[⟨2, 0, 0⟩, ⟨2, 1, 1⟩, ⟨1, 0, 1⟩, ⟨1, 1, 0⟩, ⟨1, 2, 0⟩, ⟨1, 3, 0⟩,
      ⟨0, 2, 3⟩, ⟨1, 4, 0⟩]
    let requests : List Request := [.insert arena 2 ⟨1, 0, 1⟩, .insert arena 3 ⟨1, 1, 0⟩,
      .insert arena 4 ⟨1, 2, 0⟩, .insert arena 5 ⟨1, 3, 0⟩, .insert arena 6 ⟨0, 2, 3⟩,
      .insert arena 7 ⟨1, 4, 0⟩, .take 0]
    Request.AllWithin 2 [] requests ∧ Keeps arena (Request.afterAll [] requests) ∧
      ∃ t, (ofCounts [1, 1]).serveAll? (fun arena t id => t.insert? arena id) requests = some t ∧
        t.count? 0 = some 0 ∧ t.count? 1 = some 5 ∧
        t.find arena ⟨1, 4, 0⟩ = some (.found 7) ∧
        ∃ slot : Nat, t.find arena ⟨0, 2, 3⟩ = some (.vacant slot) ∧ t.slots[slot]? = some 0 := by
  intro arena requests
  have hrs : Request.AllWithin 2 [] requests := by decide
  have hkept : Keeps arena (Request.afterAll [] requests) := by
    rw [Keeps]
    decide
  have hword : ∀ c ∈ [1, 1], slotsFor c < 2 ^ 64 := by decide
  obtain ⟨t, hserve, -, hsize, h⟩ := partitioned_index hword hrs hkept
  have hlt : ∀ v < 2, v < t.regions.size := fun v hv => hsize.symm ▸ hv
  exact ⟨hrs, hkept, t, hserve, h.count 0 (hlt 0 (by decide)), h.count 1 (hlt 1 (by decide)),
    (h.found _ (hlt 1 (by decide)) 7).mpr (by decide), h.vacant _ (hlt 0 (by decide)) (by decide)⟩

end LevelTable

end DecisionDiagram
