/-
The table that is divided by variable is an exact index of the nodes that it holds.

`LevelTable.Holds` says that the regions do not overlap, and that each is a stretch with the nodes of
its variable and counts them.  As long as no region is more than half full, every search ends, so the
operations on the table have an answer.

* `LevelTable.Holds.insertAt` — a node takes the vacancy that the search found;
* `LevelTable.Holds.clear` — a region is emptied, the others stay;
* `LevelTable.Holds.exists_relayout` — a new layout loses and adds nothing, and has more room;
* `LevelTable.Holds.exists_insert` — a node with a record of its own is put into the table.
-/
import DecisionDiagram.LevelTable
import DecisionDiagram.Proofs.Stretch

namespace DecisionDiagram

/-- The record of the node has the label `v`. -/
def Labelled (nodes : Array Node) (v : Var) (id : NodeId) : Prop :=
  ∃ n, nodes[id]? = some n ∧ n.level = v

theorem Labelled.unique {nodes : Array Node} {v w : Var} {id : NodeId}
    (hv : Labelled nodes v id) (hw : Labelled nodes w id) : v = w := by
  obtain ⟨n, hn, rfl⟩ := hv
  obtain ⟨m, hm, rfl⟩ := hw
  rw [Option.some.inj (hn.symm.trans hm)]

/-- No two nodes of the set `P` have the same record. -/
structure DistinctOn (nodes : Array Node) (P : NodeId → Prop) : Prop where
  unique : ∀ {i j n}, P i → P j → nodes[i]? = some n → nodes[j]? = some n → i = j

theorem DistinctOn.mono {nodes : Array Node} {P Q : NodeId → Prop} (h : DistinctOn nodes Q)
    (hPQ : ∀ id, P id → Q id) : DistinctOn nodes P :=
  ⟨fun hi hj => h.unique (hPQ _ hi) (hPQ _ hj)⟩

/-- With a node whose record none of the others has, the records are different still. -/
theorem DistinctOn.insert {nodes : Array Node} {P : NodeId → Prop} {id : NodeId} {key : Node}
    (h : DistinctOn nodes P) (hn : nodes[id]? = some key)
    (hnew : ∀ j, P j → nodes[j]? ≠ some key) : DistinctOn nodes fun j => j = id ∨ P j := by
  refine ⟨fun {i j n} hi hj hin hjn => ?_⟩
  rcases hi with rfl | hi <;> rcases hj with rfl | hj
  · rfl
  · exact absurd (hjn.trans (hin.symm.trans hn)) (hnew j hj)
  · exact absurd (hin.trans (hjn.symm.trans hn)) (hnew i hi)
  · exact h.unique hi hj hin hjn

namespace LevelTable

/-- The table holds the nodes of the set `P`, each in the region of its variable. -/
structure Holds (t : LevelTable) (nodes : Array Node) (P : NodeId → Prop) : Prop where
  region : ∀ {v : Var} {r}, t.regions[v]? = some r →
    Stretch t.slots nodes r.start r.size fun id => P id ∧ Labelled nodes v id
  disjoint : ∀ {v w : Var} {r r'}, v ≠ w → t.regions[v]? = some r → t.regions[w]? = some r' →
    r.start + r.size ≤ r'.start ∨ r'.start + r'.size ≤ r.start
  label : ∀ {id}, P id → ∃ v, v < t.regions.size ∧ Labelled nodes v id
  count : ∀ {v : Var} {r}, t.regions[v]? = some r → ∃ l : List NodeId, l.Nodup ∧
    (∀ id, id ∈ l ↔ P id ∧ Labelled nodes v id) ∧ r.count = l.length

/-- No region is more than half full. -/
def Roomy (t : LevelTable) : Prop :=
  ∀ (v : Var) r, t.regions[v]? = some r → 2 * r.count ≤ r.size

/-- With one more node of the variable `v`, its region is not more than half full. -/
def Admits (t : LevelTable) (v : Var) : Prop :=
  ∀ r, t.regions[v]? = some r → 2 * (r.count + 1) ≤ r.size

variable {t t' : LevelTable} {nodes nodes' : Array Node} {P Q : NodeId → Prop} {key : Node}

theorem Holds.congr (h : t.Holds nodes P) (hPQ : ∀ id, P id ↔ Q id) : t.Holds nodes Q := by
  obtain rfl : P = Q := funext fun id => propext (hPQ id)
  exact h

/-- The table depends on the records of its own nodes only. -/
theorem Holds.congr_nodes (h : t.Holds nodes P)
    (hn : ∀ id, P id → nodes'[id]? = nodes[id]?) : t.Holds nodes' P := by
  have hlabel : ∀ v id, P id ∧ Labelled nodes v id ↔ P id ∧ Labelled nodes' v id := by
    intro v id
    constructor
    · rintro ⟨hid, n, hnode, hv⟩
      exact ⟨hid, n, (hn id hid).trans hnode, hv⟩
    · rintro ⟨hid, n, hnode, hv⟩
      exact ⟨hid, n, (hn id hid).symm.trans hnode, hv⟩
  refine ⟨?_, h.disjoint, ?_, ?_⟩
  · intro v r hr
    refine ((h.region hr).congr_nodes fun id n hid hnode => ?_).congr (hlabel v)
    exact (hn id hid.1).trans hnode
  · intro id hid
    obtain ⟨v, hv, hl⟩ := h.label hid
    exact ⟨v, hv, ((hlabel v id).mp ⟨hid, hl⟩).2⟩
  · intro v r hr
    obtain ⟨l, hnodup, hl, hcount⟩ := h.count hr
    exact ⟨l, hnodup, fun id => (hl id).trans (hlabel v id), hcount⟩

/-! ### Searches -/

theorem find_eq_some {r : Probe} (hf : t.find nodes key = some r) :
    ∃ region, t.regions[key.level]? = some region ∧
      probe t.slots nodes key region.start region.size = some r := by
  unfold find at hf
  split at hf
  · cases hf
  · rename_i region hr
    exact ⟨region, hr, hf⟩

theorem Holds.of_found (h : t.Holds nodes P) {id : NodeId}
    (hf : t.find nodes key = some (.found id)) : P id ∧ nodes[id]? = some key := by
  obtain ⟨region, hr, hp⟩ := find_eq_some hf
  obtain ⟨hid, hn⟩ := (h.region hr).found hp
  exact ⟨hid.1, hn⟩

theorem Holds.of_vacant (h : t.Holds nodes P) {slot : Nat}
    (hf : t.find nodes key = some (.vacant slot)) {id : NodeId} (hid : P id) :
    nodes[id]? ≠ some key := by
  intro hn
  obtain ⟨region, hr, hp⟩ := find_eq_some hf
  exact (h.region hr).vacant hp ⟨hid, key, hn, rfl⟩ hn

/-- A region that is half full at most has a vacancy. -/
theorem Holds.exists_zero (h : t.Holds nodes P) (hroomy : t.Roomy) {v : Var} {r : Region}
    (hr : t.regions[v]? = some r) : ∃ p, p < r.size ∧ t.slots[r.start + p]? = some 0 := by
  obtain ⟨l, -, hl, hcount⟩ := h.count hr
  have hst := h.region hr
  have hhalf := hroomy _ _ hr
  have hpos := hst.pos
  exact hst.exists_vacancy (fun id hid => (hl id).mpr hid) (by rw [← hcount]; omega)

theorem Holds.exists_find (h : t.Holds nodes P) (hroomy : t.Roomy)
    (hlt : key.level < t.regions.size) : ∃ r, t.find nodes key = some r := by
  have hr := Array.getElem?_eq_getElem hlt
  obtain ⟨p, hp, hzero⟩ := h.exists_zero hroomy hr
  rw [find, hr]
  exact (h.region hr).exists_probe key hp hzero

/-! ### Work on one region -/

/-- The region of a variable gets other nodes and another count where it lies, and the slots of the
other regions stay as they are. -/
theorem Holds.rework (h : t.Holds nodes P) {v : Var} {r : Region} {slots : Array Nat}
    (count : Nat → Nat) (hr : t.regions[v]? = some r)
    (hother : ∀ {q : Region} {S : NodeId → Prop},
      r.start + r.size ≤ q.start ∨ q.start + q.size ≤ r.start →
      Stretch t.slots nodes q.start q.size S → Stretch slots nodes q.start q.size S)
    (hregion : Stretch slots nodes r.start r.size fun id => Q id ∧ Labelled nodes v id)
    (hcount : ∃ l : List NodeId, l.Nodup ∧ (∀ id, id ∈ l ↔ Q id ∧ Labelled nodes v id) ∧
      count r.count = l.length)
    (hQ : ∀ id, ¬ Labelled nodes v id → (Q id ↔ P id)) :
    Holds ⟨slots, t.regions.modify v fun r => { r with count := count r.count }⟩ nodes Q := by
  -- Every region lies where it did, and only one count is another.
  have hold : ∀ {w : Var} {q : Region},
      (t.regions.modify v fun r => { r with count := count r.count })[w]? = some q →
      ∃ q', t.regions[w]? = some q' ∧ q.start = q'.start ∧ q.size = q'.size ∧
        q.count = if v = w then count q'.count else q'.count := by
    intro w q hw
    rw [Array.getElem?_modify] at hw
    split at hw
    · rename_i heq
      obtain ⟨q', hq', rfl⟩ := Option.map_eq_some_iff.mp hw
      exact ⟨q', hq', rfl, rfl, by rw [if_pos heq]⟩
    · rename_i hne
      exact ⟨q, hw, rfl, rfl, by rw [if_neg hne]⟩
  have other : ∀ {w : Var}, v ≠ w → ∀ id, P id ∧ Labelled nodes w id ↔ Q id ∧ Labelled nodes w id :=
    fun hne id => and_congr_left fun hl => (hQ id fun hv => hne (hv.unique hl)).symm
  refine ⟨?_, ?_, ?_, ?_⟩
  · intro w q hw
    obtain ⟨q', hq', hstart, hsize, -⟩ := hold hw
    rw [hstart, hsize]
    by_cases heq : v = w
    · subst heq
      obtain rfl := Option.some.inj (hr.symm.trans hq')
      exact hregion
    · exact (hother (h.disjoint heq hr hq') (h.region hq')).congr (other heq)
  · intro w u q q' hne hw hu
    obtain ⟨p, hp, hps, hpz, -⟩ := hold hw
    obtain ⟨p', hp', hps', hpz', -⟩ := hold hu
    have := h.disjoint hne hp hp'
    omega
  · intro id hid
    show ∃ w, w < (t.regions.modify v _).size ∧ _
    rw [Array.size_modify]
    by_cases hl : Labelled nodes v id
    · exact ⟨v, (Array.getElem?_eq_some_iff.mp hr).1, hl⟩
    · exact h.label ((hQ id hl).mp hid)
  · intro w q hw
    obtain ⟨q', hq', -, -, hc⟩ := hold hw
    rw [hc]
    by_cases heq : v = w
    · subst heq
      obtain rfl := Option.some.inj (hr.symm.trans hq')
      rw [if_pos rfl]
      exact hcount
    · obtain ⟨l, hnodup, hl, hlen⟩ := h.count hq'
      exact ⟨l, hnodup, fun id => (hl id).trans (other heq id), by rw [if_neg heq, hlen]⟩

/-! ### Insertion -/

theorem vacancy?_eq_some {id slot : Nat} {v : Var} (h : t.vacancy? nodes id = some (v, slot)) :
    ∃ n, nodes[id]? = some n ∧ v = n.level ∧ t.find nodes n = some (.vacant slot) := by
  unfold vacancy? at h
  split at h
  · cases h
  · rename_i n hn
    split at h
    · rename_i slot' hf
      obtain ⟨rfl, rfl⟩ := Prod.mk.inj (Option.some.inj h)
      exact ⟨n, hn, rfl, hf⟩
    · cases h

theorem regions_insertAt (t : LevelTable) (slot : Nat) (v : Var) (id : NodeId) (w : Var) :
    (t.insertAt slot v id).regions[w]? =
      if v = w then t.regions[w]?.map fun r => { r with count := r.count + 1 }
      else t.regions[w]? := by
  show (t.regions.modify v _)[w]? = _
  rw [Array.getElem?_modify]

@[simp] theorem size_regions_insertAt (t : LevelTable) (slot : Nat) (v : Var) (id : NodeId) :
    (t.insertAt slot v id).regions.size = t.regions.size := Array.size_modify

/-- The node takes the vacancy that the search for its record found, and was not in the table. -/
theorem Holds.insertAt (h : t.Holds nodes P) {id slot : Nat} {v : Var} (hid : id ≠ 0)
    (hv : t.vacancy? nodes id = some (v, slot)) :
    ¬ P id ∧ (t.insertAt slot v id).Holds nodes fun j => j = id ∨ P j := by
  obtain ⟨n, hn, rfl, hf⟩ := vacancy?_eq_some hv
  obtain ⟨region, hr, hp⟩ := find_eq_some hf
  have hst := h.region hr
  have hnew : ¬ P id := fun hP => h.of_vacant hf hP hn
  have hlabel : Labelled nodes n.level id := ⟨n, hn, rfl⟩
  have hmem : ∀ j, (j = id ∨ P j ∧ Labelled nodes n.level j) ↔
      (j = id ∨ P j) ∧ Labelled nodes n.level j := by
    intro j
    constructor
    · rintro (rfl | ⟨hj, hjl⟩)
      · exact ⟨.inl rfl, hlabel⟩
      · exact ⟨.inr hj, hjl⟩
    · rintro ⟨rfl | hj, hjl⟩
      · exact .inl rfl
      · exact .inr ⟨hj, hjl⟩
  -- The slot lies in the region of the variable, and in no other one.
  obtain ⟨k, hk, -, rfl, -⟩ := probe_eq_some hst.lt hp
  have hpos := probePos_lt hst.pos n k
  refine ⟨hnew, h.rework (· + 1) hr (fun hq hs => hs.set_outside (by omega) id) ?_ ?_
    fun j hj => or_iff_right ?_⟩
  · exact (hst.insert (fun _ _ _ hm => hm) hid (fun hc => hnew hc.1) hn hp).congr hmem
  · obtain ⟨l, hnodup, hl, hlen⟩ := h.count hr
    refine ⟨id :: l, List.nodup_cons.mpr ⟨fun hin => hnew ((hl id).mp hin).1, hnodup⟩,
      fun j => ?_, ?_⟩
    · rw [List.mem_cons, hl, hmem]
    · rw [hlen, List.length_cons]
  · rintro rfl
    exact hj hlabel

/-- A node with a record of its own has a vacancy. -/
theorem Holds.exists_vacancy? (h : t.Holds nodes P) (hroomy : t.Roomy) {id : NodeId} {n : Node}
    (hn : nodes[id]? = some n) (hlt : n.level < t.regions.size)
    (new : ∀ j, P j → nodes[j]? ≠ some n) : ∃ slot, t.vacancy? nodes id = some (n.level, slot) := by
  obtain ⟨r, hr⟩ := h.exists_find hroomy hlt
  cases r with
  | found j =>
    obtain ⟨hj, hjn⟩ := h.of_found hr
    exact absurd hjn (new j hj)
  | vacant slot =>
    refine ⟨slot, ?_⟩
    rw [vacancy?, hn]
    simp only [hr]

theorem Admits.insertAt {v : Var} (h : t.Admits v) (hroomy : t.Roomy) (slot : Nat) (id : NodeId) :
    (t.insertAt slot v id).Roomy := by
  intro w r hr
  rw [regions_insertAt] at hr
  split at hr
  · rename_i heq
    obtain ⟨r', hr', rfl⟩ := Option.map_eq_some_iff.mp hr
    exact h r' (heq ▸ hr')
  · exact hroomy w r hr

/-! ### Members of a region -/

theorem mem_members {r : Region} (hfits : r.start + r.size ≤ t.slots.size) {id : NodeId} :
    id ∈ t.members r ↔ id ≠ 0 ∧ ∃ p, p < r.size ∧ t.slots[r.start + p]? = some id := by
  rw [members, List.mem_filter, decide_eq_true_eq, and_comm, Array.mem_toList_iff]
  refine and_congr_right fun _ => ?_
  rw [Array.mem_iff_getElem?]
  constructor
  · rintro ⟨p, hp⟩
    rw [Array.getElem?_extract] at hp
    split at hp
    · rename_i hlt
      exact ⟨p, by omega, hp⟩
    · cases hp
  · rintro ⟨p, hp, hs⟩
    refine ⟨p, ?_⟩
    rw [Array.getElem?_extract, if_pos (by omega)]
    exact hs

theorem Holds.mem_members (h : t.Holds nodes P) {v : Var} {r : Region}
    (hr : t.regions[v]? = some r) {id : NodeId} :
    id ∈ t.members r ↔ P id ∧ Labelled nodes v id := by
  have hst := h.region hr
  rw [LevelTable.mem_members hst.fits]
  constructor
  · rintro ⟨hid, p, hp, hs⟩
    exact hst.entry hp hs hid
  · intro hid
    obtain ⟨n, k, -, hk, hs, -⟩ := hst.path hid
    exact ⟨hst.nonzero hid, _, probePos_lt hst.pos n k, hs⟩

theorem Holds.members_nodup (h : t.Holds nodes P) {v : Var} {r : Region}
    (hr : t.regions[v]? = some r) : (t.members r).Nodup := by
  have hst := h.region hr
  -- No node has two slots of the region.
  have hpair : ((t.slots.extract r.start (r.start + r.size)).toList).Pairwise
      fun a b => a ≠ 0 → a ≠ b := by
    rw [List.pairwise_iff_getElem]
    intro i j hi hj hij hne heq
    have hi₁ := hi
    have hj₁ := hj
    rw [Array.length_toList, Array.size_extract] at hi₁ hj₁
    have hfits := hst.fits
    have entry : ∀ {p} (hp : p < r.size), t.slots[r.start + p]? =
        (t.slots.extract r.start (r.start + r.size))[p]? := by
      intro p hp
      rw [Array.getElem?_extract, if_pos (by omega)]
    have hi' : (t.slots.extract r.start (r.start + r.size))[i]? =
        some (t.slots.extract r.start (r.start + r.size)).toList[i] := by
      rw [← Array.getElem?_toList, List.getElem?_eq_getElem]
    have hj' : (t.slots.extract r.start (r.start + r.size))[j]? =
        some (t.slots.extract r.start (r.start + r.size)).toList[j] := by
      rw [← Array.getElem?_toList, List.getElem?_eq_getElem]
    rw [← heq] at hj'
    have := hst.once (p := i) (q := j) (by omega) (by omega)
      ((entry (by omega)).trans hi') ((entry (by omega)).trans hj') hne
    omega
  refine (hpair.filter _).imp_of_mem ?_
  intro a b ha _ hab
  exact hab (of_decide_eq_true (List.mem_filter.mp ha).2)

/-! ### Emptying a region -/

theorem getElem?_foldl_zero (ps : List Nat) (slots : Array Nat) (q : Nat) :
    (ps.foldl (·.setIfInBounds · 0) slots)[q]? =
      if q ∈ ps then slots[q]?.map fun _ => 0 else slots[q]? := by
  induction ps generalizing slots with
  | nil => simp
  | cons p ps ih =>
    rw [List.foldl_cons, ih, Array.getElem?_setIfInBounds]
    by_cases hq : p = q
    · subst hq
      by_cases hlt : p < slots.size
      · simp [hlt]
      · simp [hlt]
    · simp [hq, Ne.symm hq]

theorem size_foldl_zero (ps : List Nat) (slots : Array Nat) :
    (ps.foldl (·.setIfInBounds · 0) slots).size = slots.size := by
  induction ps generalizing slots with
  | nil => rfl
  | cons p ps ih => rw [List.foldl_cons, ih, Array.size_setIfInBounds]

theorem Stretch.foldl_outside {slots : Array Nat} {start size : Nat}
    (h : Stretch slots nodes start size P) {ps : List Nat}
    (hps : ∀ p ∈ ps, p < start ∨ start + size ≤ p) :
    Stretch (ps.foldl (·.setIfInBounds · 0) slots) nodes start size P := by
  induction ps generalizing slots with
  | nil => exact h
  | cons p ps ih =>
    rw [List.foldl_cons]
    exact ih (h.set_outside (hps p (by simp)) 0) fun q hq => hps q (List.mem_cons_of_mem _ hq)

@[simp] theorem size_regions_clear (t : LevelTable) (v : Var) (r : Region) :
    (t.clear v r).regions.size = t.regions.size := Array.size_modify

theorem Roomy.clear (h : t.Roomy) (v : Var) (region : Region) : (t.clear v region).Roomy := by
  intro w r hw
  have hw : (t.regions.modify v fun r => { r with count := 0 })[w]? = some r := hw
  rw [Array.getElem?_modify] at hw
  split at hw
  · obtain ⟨r', -, rfl⟩ := Option.map_eq_some_iff.mp hw
    exact Nat.zero_le _
  · exact h w r hw

/-- A region that was emptied holds no node, the others hold theirs. -/
theorem Holds.clear (h : t.Holds nodes P) {v : Var} {r : Region} (hr : t.regions[v]? = some r) :
    (t.clear v r).Holds nodes fun id => P id ∧ ¬ Labelled nodes v id := by
  have none : ∀ {id : NodeId}, ¬ ((P id ∧ ¬ Labelled nodes v id) ∧ Labelled nodes v id) :=
    fun hid => hid.1.2 hid.2
  have hst := h.region hr
  refine h.rework (fun _ => 0) hr (fun hq hs => Stretch.foldl_outside hs fun p hp => ?_) ?_
    ⟨[], List.nodup_nil, fun id => by simp [none], rfl⟩ fun id hid => and_iff_left hid
  · rw [List.mem_range'_1] at hp
    omega
  · obtain ⟨e, he, hpow⟩ := hst.pow
    refine (Stretch.of_zero he hpow ?_ ?_).congr fun id => (iff_false_intro none).symm
    · rw [size_foldl_zero]
      exact hst.fits
    · intro p hp
      rw [getElem?_foldl_zero, if_pos (by rw [List.mem_range'_1]; omega)]
      obtain ⟨id, hid⟩ := hst.exists_slot hp
      rw [hid]
      rfl

/-! ### A new layout -/

theorem regionsFrom_spec {counts : List Nat} {start : Nat} {v : Nat} {r : Region}
    (h : (regionsFrom start counts)[v]? = some r) :
    start ≤ r.start ∧ r.start + r.size ≤ start + (counts.map slotsFor).sum ∧ r.count = 0 ∧
      ∃ c, counts[v]? = some c ∧ r.size = slotsFor c := by
  induction counts generalizing start v with
  | nil => simp [regionsFrom] at h
  | cons c counts ih =>
    rw [regionsFrom] at h
    rw [List.map_cons, List.sum_cons]
    cases v with
    | zero =>
      obtain rfl := Option.some.inj h
      exact ⟨Nat.le_refl _, by simp only; omega, rfl, c, rfl, rfl⟩
    | succ v =>
      obtain ⟨hle, hend, hcount, c', hc', hsize⟩ := ih (by simpa using h)
      exact ⟨by omega, by omega, hcount, c', hc', hsize⟩

theorem regionsFrom_disjoint {counts : List Nat} {start : Nat} {v w : Nat} {r r' : Region}
    (hlt : v < w) (hv : (regionsFrom start counts)[v]? = some r)
    (hw : (regionsFrom start counts)[w]? = some r') : r.start + r.size ≤ r'.start := by
  induction counts generalizing start v w with
  | nil => simp [regionsFrom] at hv
  | cons c counts ih =>
    rw [regionsFrom] at hv hw
    obtain ⟨w, rfl⟩ := Nat.exists_eq_succ_of_ne_zero (show w ≠ 0 by omega)
    cases v with
    | zero =>
      obtain rfl := Option.some.inj hv
      exact (regionsFrom_spec (by simpa using hw)).1
    | succ v =>
      exact ih (show v < w by omega)
        (show (regionsFrom (start + slotsFor c) counts)[v]? = some r by simpa using hv)
        (by simpa using hw)

theorem length_regionsFrom (counts : List Nat) (start : Nat) :
    (regionsFrom start counts).length = counts.length := by
  induction counts generalizing start with
  | nil => rfl
  | cons c counts ih => rw [regionsFrom, List.length_cons, ih, List.length_cons]

theorem size_regions_ofCounts (counts : List Nat) :
    (ofCounts counts).regions.size = counts.length := by
  rw [ofCounts, List.size_toArray, length_regionsFrom]

theorem getElem?_regions_ofCounts (counts : List Nat) (v : Var) :
    (ofCounts counts).regions[v]? = (regionsFrom 0 counts)[v]? := by
  rw [ofCounts, List.getElem?_toArray]

theorem holds_ofCounts {counts : List Nat} (h : ∀ c ∈ counts, slotsFor c < 2 ^ 64)
    (nodes : Array Node) :
    (ofCounts counts).Holds nodes fun _ => False := by
  have get : ∀ {v : Nat} {r : Region}, (ofCounts counts).regions[v]? = some r →
      (regionsFrom 0 counts)[v]? = some r := by
    intro v r hr
    rwa [getElem?_regions_ofCounts] at hr
  have hsize : (ofCounts counts).slots.size = (counts.map slotsFor).sum := Array.size_replicate
  refine ⟨?_, ?_, fun hid => hid.elim, ?_⟩
  · intro v r hr
    obtain ⟨-, hend, -, c, hc, hrs⟩ := regionsFrom_spec (get hr)
    obtain ⟨e, he, hpow⟩ := exists_slotsFor (h c (List.mem_of_getElem? hc))
    refine (Stretch.of_zero he (hrs.trans hpow) (by omega) ?_).congr fun id => by simp
    intro p hp
    show (Array.replicate (counts.map slotsFor).sum 0)[r.start + p]? = some 0
    rw [Array.getElem?_replicate, if_pos (by omega)]
  · intro v w r r' hne hv hw
    rcases Nat.lt_or_gt_of_ne hne with hlt | hgt
    · exact .inl (regionsFrom_disjoint hlt (get hv) (get hw))
    · exact .inr (regionsFrom_disjoint hgt (get hw) (get hv))
  · intro v r hr
    obtain ⟨-, -, hcount, -⟩ := regionsFrom_spec (get hr)
    exact ⟨[], List.nodup_nil, fun id => by simp, hcount⟩

theorem roomy_ofCounts (counts : List Nat) : (ofCounts counts).Roomy := by
  intro v r hr
  rw [getElem?_regions_ofCounts] at hr
  obtain ⟨-, -, hcount, -⟩ := regionsFrom_spec hr
  rw [hcount]
  exact Nat.zero_le _

/-- The region of each variable has the length for as many nodes as `counts` says. -/
def Spans (t : LevelTable) (counts : List Nat) : Prop :=
  ∀ (v : Var) r, t.regions[v]? = some r → ∃ c, counts[v]? = some c ∧ r.size = slotsFor c

theorem spans_ofCounts (counts : List Nat) : (ofCounts counts).Spans counts := by
  intro v r hr
  rw [getElem?_regions_ofCounts] at hr
  exact (regionsFrom_spec hr).2.2.2

theorem Spans.insertAt {counts : List Nat} (h : t.Spans counts) (slot : Nat) (v : Var)
    (id : NodeId) : (t.insertAt slot v id).Spans counts := by
  intro w r hr
  rw [regions_insertAt] at hr
  split at hr
  · obtain ⟨r', hr', rfl⟩ := Option.map_eq_some_iff.mp hr
    exact h w r' hr'
  · exact h w r hr

/-- The set has no more nodes of any variable than `counts` says. -/
def Bounds (nodes : Array Node) (P : NodeId → Prop) (counts : List Nat) : Prop :=
  ∀ v c, counts[v]? = some c → ∀ l : List NodeId, l.Nodup →
    (∀ id ∈ l, P id ∧ Labelled nodes v id) → l.length ≤ c

theorem Holds.roomy (h : t.Holds nodes P) {counts : List Nat} (hs : t.Spans counts)
    (hb : Bounds nodes P counts) : t.Roomy := by
  intro v r hr
  obtain ⟨c, hc, hsize⟩ := hs v r hr
  obtain ⟨l, hnodup, hl, hcount⟩ := h.count hr
  have hle := hb v c hc l hnodup fun id hid => (hl id).mp hid
  have := two_mul_le_slotsFor c
  omega

/-- The way to insert puts the node into its region as it stands, if the region has room for it. -/
def Places (nodes : Array Node) (insert : LevelTable → NodeId → Option LevelTable) : Prop :=
  ∀ {t : LevelTable} {id : NodeId} {n : Node}, nodes[id]? = some n → t.isCrowded n.level = false →
    insert t id = t.place? nodes id

theorem places_place (nodes : Array Node) : Places nodes fun t id => t.place? nodes id :=
  fun _ _ => rfl

theorem places_insertWithin (nodes : Array Node) (depth : Nat) :
    Places nodes (insertWithin? nodes depth) := by
  intro t id n hn hcrowded
  cases depth with
  | zero =>
    rw [insertWithin?, hn]
    simp [hcrowded]
  | succ depth =>
    rw [insertWithin?, hn]
    simp [hcrowded]

/-- A region has room for one more node as long as it holds fewer than `counts` says. -/
theorem Holds.not_crowded {A : NodeId → Prop} {counts : List Nat} (h : t.Holds nodes P)
    (hs : t.Spans counts) (hb : Bounds nodes A counts) (hPA : ∀ id, P id → A id) {id : NodeId}
    {n : Node} (hid : A id) (hnew : ¬ P id) (hn : nodes[id]? = some n) :
    t.isCrowded n.level = false := by
  unfold isCrowded
  split
  · rfl
  · rename_i r hr
    obtain ⟨c, hc, hsize⟩ := hs _ r hr
    obtain ⟨l, hnodup, hl, hcount⟩ := h.count hr
    have hle := hb _ c hc (id :: l)
      (List.nodup_cons.mpr ⟨fun hmem => hnew ((hl id).mp hmem).1, hnodup⟩) fun j hj => by
        rcases List.mem_cons.mp hj with rfl | hj
        · exact ⟨hid, n, hn, rfl⟩
        · exact ⟨hPA j ((hl j).mp hj).1, ((hl j).mp hj).2⟩
    have := two_mul_le_slotsFor c
    rw [List.length_cons] at hle
    rw [decide_eq_false_iff_not]
    omega

/-- A table with regions that are long enough is filled with the nodes of a list, none of which comes
upon a crowded region. -/
theorem Holds.exists_fill {A : NodeId → Prop} {counts : List Nat} (hb : Bounds nodes A counts)
    (hd : DistinctOn nodes A) {k : Nat}
    (hlabel : ∀ id, A id → id ≠ 0 ∧ ∃ n, nodes[id]? = some n ∧ n.level < k) {ids : List NodeId}
    (h : t.Holds nodes P) (hs : t.Spans counts) (hk : t.regions.size = k) (hnodup : ids.Nodup)
    (hA : ∀ id, A id ↔ id ∈ ids ∨ P id) (new : ∀ id ∈ ids, ¬ P id) :
    ∃ t', (∀ insert, Places nodes insert → ids.foldlM insert t = some t') ∧ t'.regions.size = k ∧
      t'.Holds nodes A ∧ t'.Spans counts := by
  induction ids generalizing t P with
  | nil => exact ⟨t, fun _ _ => rfl, hk, h.congr fun id => by simp [hA], hs⟩
  | cons id ids ih =>
    obtain ⟨hid, hnodup⟩ := List.nodup_cons.mp hnodup
    have hAid : A id := (hA id).mpr (.inl List.mem_cons_self)
    have hPA : ∀ j, P j → A j := fun j hj => (hA j).mpr (.inr hj)
    obtain ⟨hne, n, hn, hlt⟩ := hlabel id hAid
    have hroomy := h.roomy hs fun v c hc l hl hlab =>
      hb v c hc l hl fun j hj => ⟨hPA j (hlab j hj).1, (hlab j hj).2⟩
    obtain ⟨slot, hslot⟩ := h.exists_vacancy? hroomy hn (hk ▸ hlt) fun j hj hjn =>
      new id List.mem_cons_self (hd.unique (hPA j hj) hAid hjn hn ▸ hj)
    -- The node goes into its region as it stands, whichever way to insert is used.
    obtain ⟨t', hfill, hrest⟩ := ih (h.insertAt hne hslot).2 (hs.insertAt slot n.level id)
      (by rw [size_regions_insertAt, hk]) hnodup (fun j => by rw [hA, List.mem_cons]; tauto)
      fun j hj hP => hP.elim (fun heq => hid (heq ▸ hj)) (new j (List.mem_cons_of_mem _ hj))
    have hopen := h.not_crowded hs hb hPA hAid (new id List.mem_cons_self) hn
    refine ⟨t', fun insert hins => ?_, hrest⟩
    rw [List.foldlM_cons, hins hn hopen, place?, hslot]
    exact hfill insert hins

/-- A list of ids without repetition is no longer than the arena. -/
theorem length_le_of_nodup {l : List NodeId} (hnodup : l.Nodup) {n : Nat} (h : ∀ id ∈ l, id < n) :
    l.length ≤ n := by
  have hsub : l ⊆ List.range n := fun id hid => List.mem_range.mpr (h id hid)
  have := (List.subperm_of_subset hnodup hsub).length_le
  rwa [List.length_range] at this

theorem Holds.lt_size (h : t.Holds nodes P) {id : NodeId} (hid : P id) : id < nodes.size := by
  obtain ⟨-, -, n, hn, -⟩ := h.label hid
  exact (Array.getElem?_eq_some_iff.mp hn).1

/-- The nodes that a new layout puts back, by variable. -/
def held (t : LevelTable) : List (List NodeId) := t.regions.toList.map t.members

/-- How many nodes of each variable a new layout for `v` has room for. -/
def counts (t : LevelTable) (v : Var) : List Nat :=
  (t.held.map List.length).modify v fun n => (n + 1) * 2

theorem relayoutBy?_eq (t : LevelTable) (insert : LevelTable → NodeId → Option LevelTable)
    (v : Var) : t.relayoutBy? insert v = t.held.flatten.foldlM insert (ofCounts (t.counts v)) := rfl

theorem held_eq_some {w : Var} {l : List NodeId} (h : t.held[w]? = some l) :
    ∃ r : Region, t.regions[w]? = some r ∧ l = t.members r := by
  rw [held, List.getElem?_map, Array.getElem?_toList] at h
  obtain ⟨r, hr, rfl⟩ := Option.map_eq_some_iff.mp h
  exact ⟨r, hr, rfl⟩

theorem Holds.mem_held (h : t.Holds nodes P) (id : NodeId) : id ∈ t.held.flatten ↔ P id := by
  rw [List.mem_flatten]
  constructor
  · rintro ⟨l, hl, hid⟩
    obtain ⟨w, hw⟩ := List.mem_iff_getElem?.mp hl
    obtain ⟨r, hr, rfl⟩ := held_eq_some hw
    exact ((h.mem_members hr).mp hid).1
  · intro hid
    obtain ⟨w, hw, hl⟩ := h.label hid
    have hr := Array.getElem?_eq_getElem hw
    refine ⟨_, List.mem_map.mpr ⟨_, Array.mem_toList_iff.mpr (Array.mem_of_getElem? hr), rfl⟩, ?_⟩
    exact (h.mem_members hr).mpr ⟨hid, hl⟩

theorem Holds.nodup_held (h : t.Holds nodes P) : t.held.flatten.Nodup := by
  rw [List.nodup_flatten, List.pairwise_iff_getElem]
  refine ⟨fun l hl => ?_, fun i j hi hj hij => ?_⟩
  · obtain ⟨w, hw⟩ := List.mem_iff_getElem?.mp hl
    obtain ⟨r, hr, rfl⟩ := held_eq_some hw
    exact h.members_nodup hr
  · -- No node has two variables.
    obtain ⟨r, hr, hri⟩ := held_eq_some (List.getElem?_eq_getElem hi)
    obtain ⟨r', hr', hrj⟩ := held_eq_some (List.getElem?_eq_getElem hj)
    rw [hri, hrj]
    intro id hid hid'
    exact Nat.ne_of_lt hij (((h.mem_members hr).mp hid).2.unique ((h.mem_members hr').mp hid').2)

theorem counts_eq_some {v w : Var} {c : Nat} (h : (t.counts v)[w]? = some c) :
    ∃ r : Region, t.regions[w]? = some r ∧
      c = if v = w then ((t.members r).length + 1) * 2 else (t.members r).length := by
  rw [counts, List.getElem?_modify, List.getElem?_map] at h
  obtain ⟨n, hn, rfl⟩ := Option.map_eq_some_iff.mp h
  obtain ⟨l, hl, rfl⟩ := Option.map_eq_some_iff.mp hn
  obtain ⟨r, hr, rfl⟩ := held_eq_some hl
  exact ⟨r, hr, rfl⟩

/-- The members of a region are all the nodes of its variable. -/
theorem Holds.length_le (h : t.Holds nodes P) {w : Var} {r : Region} (hr : t.regions[w]? = some r)
    {l : List NodeId} (hnodup : l.Nodup) (hl : ∀ id ∈ l, P id ∧ Labelled nodes w id) :
    l.length ≤ (t.members r).length :=
  (List.subperm_of_subset hnodup fun id hid => (h.mem_members hr).mpr (hl id hid)).length_le

theorem Holds.bounds (h : t.Holds nodes P) (v : Var) : Bounds nodes P (t.counts v) := by
  intro w c hc l hnodup hl
  obtain ⟨r, hr, rfl⟩ := counts_eq_some hc
  have := h.length_le hr hnodup hl
  split <;> omega

theorem Holds.slotsFor_counts_lt (h : t.Holds nodes P) (hsmall : ∀ id, P id → id < 2 ^ 32)
    {v : Var} : ∀ c ∈ t.counts v, slotsFor c < 2 ^ 64 := by
  intro c hc
  obtain ⟨w, hw⟩ := List.mem_iff_getElem?.mp hc
  obtain ⟨r, hr, rfl⟩ := counts_eq_some hw
  have := length_le_of_nodup (h.members_nodup hr) fun id hid =>
    hsmall id ((h.mem_members hr).mp hid).1
  refine slotsFor_lt ?_
  split <;> omega

/-- A new layout loses and adds nothing, and the given variable has room for one more node. -/
theorem Holds.exists_relayout (h : t.Holds nodes P) (hsmall : ∀ id, P id → id < 2 ^ 32)
    (hd : DistinctOn nodes P) (v : Var) :
    ∃ t', (∀ insert, Places nodes insert → t.relayoutBy? insert v = some t') ∧
      t'.regions.size = t.regions.size ∧ t'.Holds nodes P ∧ t'.Roomy ∧ t'.Admits v := by
  have hlabel : ∀ id, P id → id ≠ 0 ∧ ∃ n, nodes[id]? = some n ∧ n.level < t.regions.size := by
    intro id hid
    obtain ⟨w, hw, n, hn, rfl⟩ := h.label hid
    exact ⟨(h.region (Array.getElem?_eq_getElem hw)).nonzero ⟨hid, n, hn, rfl⟩, n, hn, hw⟩
  obtain ⟨t', hfill, hsize, hh, hspans⟩ := Holds.exists_fill (h.bounds v) hd hlabel
    (holds_ofCounts (h.slotsFor_counts_lt hsmall) nodes) (spans_ofCounts _)
    (by rw [size_regions_ofCounts]; simp [counts, held]) h.nodup_held
    (fun id => by rw [h.mem_held, or_false]) (fun _ _ hF => hF)
  refine ⟨t', fun insert hins => ?_, hsize, hh, hh.roomy hspans (h.bounds v), fun r hr => ?_⟩
  · rw [relayoutBy?_eq]
    exact hfill insert hins
  · obtain ⟨c, hc, hlen⟩ := hspans v r hr
    obtain ⟨r', hr', rfl⟩ := counts_eq_some hc
    obtain ⟨l, hnodup, hl, hcount⟩ := hh.count hr
    have hle := h.length_le hr' hnodup fun id hid => (hl id).mp hid
    have := two_mul_le_slotsFor (((t.members r').length + 1) * 2)
    rw [if_pos rfl] at hlen
    omega

theorem Holds.exists_makeRoom (h : t.Holds nodes P) (hroomy : t.Roomy)
    (hsmall : ∀ id, P id → id < 2 ^ 32) (hd : DistinctOn nodes P) (v : Var) :
    ∃ t', t.makeRoom? nodes v = some t' ∧ t'.regions.size = t.regions.size ∧ t'.Holds nodes P ∧
      t'.Roomy ∧ t'.Admits v := by
  unfold makeRoom?
  split
  · obtain ⟨t', hlayout, hrest⟩ := h.exists_relayout hsmall hd v
    exact ⟨t', hlayout _ (places_place nodes), hrest⟩
  · rename_i hcrowded
    refine ⟨t, rfl, rfl, h, hroomy, fun r hr => ?_⟩
    rw [isCrowded, hr, decide_eq_true_eq] at hcrowded
    omega

/-- A node with a record of its own is put into the table. -/
theorem Holds.exists_insert (h : t.Holds nodes P) (hroomy : t.Roomy)
    (hsmall : ∀ id, P id → id < 2 ^ 32) {id : NodeId} {n : Node} (hid : id ≠ 0) (hn : nodes[id]? = some n)
    (hlt : n.level < t.regions.size) (hd : DistinctOn nodes fun j => j = id ∨ P j) (new : ¬ P id) :
    ∃ t', t.insert? nodes id = some t' ∧ t'.regions.size = t.regions.size ∧
      (t'.Holds nodes fun j => j = id ∨ P j) ∧ t'.Roomy := by
  obtain ⟨t₁, h₁, hsize, hh, hroomy₁, hadmits⟩ := h.exists_makeRoom hroomy hsmall
    (hd.mono fun _ => .inr) n.level
  obtain ⟨slot, hslot⟩ := hh.exists_vacancy? hroomy₁ hn (hsize ▸ hlt) fun j hj hjn =>
    new (hd.unique (.inr hj) (.inl rfl) hjn hn ▸ hj)
  refine ⟨t₁.insertAt slot n.level id, ?_, ?_, (hh.insertAt hid hslot).2,
    hadmits.insertAt hroomy₁ slot id⟩
  · rw [insert?, hn]
    simp only [Option.bind_eq_bind, Option.bind_some, h₁, place?, hslot, Option.map_some]
  · rw [size_regions_insertAt, hsize]

end LevelTable

end DecisionDiagram
