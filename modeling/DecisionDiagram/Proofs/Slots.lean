/-
The allocator of node slots and the arena keep in step.

The allocator keeps the same facts in several forms.  `FreeSlots.Exact` says that the forms agree: the
record has a word for each bucket, a bucket has a flag if and only if its word is full, and every bucket
below the hint is full.  `FreeSlots.Valid` says besides that the padding of the last bucket is recorded
as used, and that the number of free slots is right.  Consequently

* `FreeSlots.Exact.contains_of_lt_next?` — what is offered is the lowest index off the record;
* `FreeSlots.Valid.next?_isSome` — a free slot is offered as long as there is one;
* `FreeSlots.Valid.next?_lt` — what is offered is below the capacity;
* `FreeSlots.Valid.take`, `.release`, `.grow` — the operations of a store keep it so.
-/
import Mathlib.Order.Interval.Finset.Nat
import DecisionDiagram.Store

namespace DecisionDiagram

namespace Bitmap

variable {m : Bitmap} {is : List Nat}

theorem words_foldl_set (is : List Nat) (m : Bitmap) :
    (is.foldl set m).words.size = m.words.size := by
  induction is generalizing m with
  | nil => rfl
  | cons i is ih => rw [List.foldl_cons, ih, set, Array.size_modify]

theorem contains_foldl_set (his : ∀ i ∈ is, i < m.capacity) (j : Nat) :
    (is.foldl set m).contains j = (m.contains j || decide (j ∈ is)) := by
  induction is generalizing m with
  | nil => simp
  | cons i is ih =>
    have hrest : ∀ j ∈ is, j < (m.set i).capacity := fun j hj => by
      rw [capacity_set]
      exact his j (List.mem_cons_of_mem _ hj)
    rw [List.foldl_cons, ih hrest, contains_set (his i (by simp)), Bool.eq_iff_iff]
    simp only [Bool.or_eq_true, beq_iff_eq, decide_eq_true_eq, List.mem_cons]
    tauto

/-- Whether a word is full depends on the indices that share it. -/
theorem isFull_congr {m' : Bitmap} {b : Nat}
    (h : ∀ i, i / width = b → m'.contains i = m.contains i) : m'.isFull b = m.isFull b := by
  rw [Bool.eq_iff_iff, isFull_iff, isFull_iff]
  exact forall₂_congr fun i hi => by rw [h i hi]

theorem isFull_mono {m' : Bitmap} {b : Nat} (hb : m.isFull b = true)
    (h : ∀ i, m.contains i = true → m'.contains i = true) : m'.isFull b = true :=
  isFull_iff.mpr fun i hi => h i (isFull_iff.mp hb i hi)

end Bitmap

namespace FreeSlots

theorem mem_span {lo hi i : Nat} : i ∈ span lo hi ↔ lo ≤ i ∧ i < hi := by
  rw [span, List.mem_range'_1]
  omega

/-- The slots that are not in use. -/
def vacancies (s : FreeSlots) : Finset Nat :=
  (Finset.range s.capacity).filter fun i => s.isUsed i = false

theorem mem_vacancies {s : FreeSlots} {i : Nat} :
    i ∈ s.vacancies ↔ i < s.capacity ∧ s.isUsed i = false := by
  simp [vacancies]

theorem isUsed_eq {s : FreeSlots} {i : Nat} (h : i < s.capacity) :
    s.isUsed i = s.occupied.contains i := by
  simp [isUsed, h]

theorem lt_of_isUsed {s : FreeSlots} {i : Nat} (h : s.isUsed i = true) : i < s.capacity := by
  simp only [isUsed, Bool.and_eq_true, decide_eq_true_eq] at h
  exact h.1

/-! ### Flags -/

/-- The buckets with a flag are those that are full. -/
def Flags (full : BitSet) (occupied : Bitmap) : Prop :=
  ∀ b, full.contains b = true ↔ occupied.isFull b = true

variable {full : BitSet} {occupied : Bitmap}

theorem contains_flag {b c : Nat} : (flag occupied full b).contains c = true ↔
    full.contains c = true ∨ c = b ∧ occupied.isFull b = true := by
  unfold flag
  split
  · rename_i h
    rw [BitSet.contains_insert, Bool.or_eq_true, beq_iff_eq]
    tauto
  · tauto

/-- Indices of one bucket are added to the record. -/
theorem Flags.fill (h : Flags full occupied) {is : List Nat} {b : Nat}
    (his : ∀ i ∈ is, i < occupied.capacity ∧ bucketOf i = b) :
    Flags (flag (is.foldl Bitmap.set occupied) full b) (is.foldl Bitmap.set occupied) := by
  have hset := fun j => Bitmap.contains_foldl_set (j := j) fun i hi => (his i hi).1
  have hmono : ∀ {c}, occupied.isFull c = true → (is.foldl Bitmap.set occupied).isFull c = true :=
    fun hc => Bitmap.isFull_mono hc fun i hi => by rw [hset, hi, Bool.true_or]
  intro c
  rw [contains_flag, h c]
  -- Only the word of that bucket can have become full.
  by_cases hc : c = b
  · subst hc
    exact ⟨fun hor => hor.elim hmono fun hcb => hcb.2, fun hfull => .inr ⟨rfl, hfull⟩⟩
  · have hsame : (is.foldl Bitmap.set occupied).isFull c = occupied.isFull c := by
      refine Bitmap.isFull_congr fun i hi => ?_
      have hmem : i ∉ is := fun hmem => hc (hi ▸ (his i hmem).2)
      rw [hset, decide_eq_false hmem, Bool.or_false]
    rw [hsame]
    exact ⟨fun hor => hor.resolve_right fun hcb => hc hcb.1, .inl⟩

/-- An index is taken off the record. -/
theorem Flags.clear (h : Flags full occupied) (id : Nat) :
    Flags (full.remove (bucketOf id)) (occupied.clear id) := by
  intro b
  rw [BitSet.contains_remove, Bool.and_eq_true, bne_iff_ne, h b]
  -- The word of the index is not full any more, and the others are as they were.
  by_cases hb : b = bucketOf id
  · have hopen : (occupied.clear id).isFull b ≠ true := by
      intro hfull
      have := Bitmap.isFull_iff.mp hfull id hb.symm
      simp at this
    exact ⟨fun hne => absurd hb hne.1, fun hfull => absurd hfull hopen⟩
  · have hsame : (occupied.clear id).isFull b = occupied.isFull b := by
      refine Bitmap.isFull_congr fun i hi => ?_
      have hne : i ≠ id := fun heq => hb (heq ▸ hi.symm)
      rw [Bitmap.contains_clear, bne_iff_ne.mpr hne, Bool.true_and]
    rw [hsame]
    exact ⟨fun hand => hand.2, fun hfull => ⟨hb, hfull⟩⟩

/-! ### The parts of the allocator agree -/

/-- The record has a word for each bucket, and the flags and the hint say what it says. -/
structure Exact (s : FreeSlots) : Prop where
  storage : s.occupied.words.size = Bitmap.wordsFor s.capacity
  flags : Flags s.full s.occupied
  below_hint : ∀ b, b < s.hint → s.occupied.isFull b = true

variable {s : FreeSlots}

theorem Exact.capacity_eq (h : s.Exact) :
    s.occupied.capacity = Bitmap.wordsFor s.capacity * Bitmap.width := by
  rw [Bitmap.capacity, h.storage]

theorem Exact.capacity_le (h : s.Exact) : s.capacity ≤ s.occupied.capacity := by
  rw [h.capacity_eq]
  exact Bitmap.le_wordsFor _

theorem next?_lt_capacity {id : Nat} (hid : s.next? = some id) : id < s.occupied.capacity := by
  unfold next? at hid
  split at hid
  · cases hid
  · obtain ⟨b, hb, hlow⟩ := Option.bind_eq_some_iff.mp hid
    have hlt := (BitSet.firstClearFrom_eq_some hb).2.1
    have hdiv := (Bitmap.lowestClear?_eq_some hlow).1
    rw [← hdiv] at hlt
    exact (Nat.div_lt_iff_lt_mul (by decide)).mp hlt

/-- The index that is offered is the lowest one off the record. -/
theorem Exact.contains_of_lt_next? (h : s.Exact) {id j : Nat} (hid : s.next? = some id)
    (hj : j < id) : s.occupied.contains j = true := by
  unfold next? at hid
  split at hid
  · cases hid
  · obtain ⟨b, hb, hlow⟩ := Option.bind_eq_some_iff.mp hid
    obtain ⟨hdiv, -, hbelow⟩ := Bitmap.lowestClear?_eq_some hlow
    have hle : j / Bitmap.width ≤ b := hdiv ▸ Nat.div_le_div_right (Nat.le_of_lt hj)
    rcases Nat.eq_or_lt_of_le hle with heq | hlt
    · exact hbelow j heq hj
    · -- All buckets before the one that was found are full.
      refine Bitmap.isFull_iff.mp ?_ j rfl
      by_cases hhint : j / Bitmap.width < s.hint
      · exact h.below_hint _ hhint
      · exact (h.flags _).mp
          ((BitSet.firstClearFrom_eq_some hb).2.2.2 _ (Nat.le_of_not_lt hhint) hlt)

/-- None is offered if the count of free slots is zero, or if the whole record is in use. -/
theorem Exact.contains_of_next?_eq_none (h : s.Exact) (hnone : s.next? = none) (hfree : s.free ≠ 0)
    {j : Nat} (hj : j < s.occupied.capacity) : s.occupied.contains j = true := by
  rw [next?, if_neg hfree] at hnone
  have hlt : j / Bitmap.width < s.occupied.words.size := Bitmap.div_lt hj
  refine Bitmap.isFull_iff.mp ?_ j rfl
  rcases hf : s.full.firstClearFrom s.hint s.occupied.words.size with _ | b
  · by_cases hhint : j / Bitmap.width < s.hint
    · exact h.below_hint _ hhint
    · exact (h.flags _).mp
        (BitSet.contains_of_firstClearFrom_eq_none hf (Nat.le_of_not_lt hhint) hlt)
  · -- A bucket without a flag has a slot to offer.
    rw [hf, Option.bind_some, Bitmap.lowestClear?_eq_none, ← h.flags b,
      (BitSet.firstClearFrom_eq_some hf).2.2.1] at hnone
    cases hnone

/-- An index comes onto the record.  The hint may be any up to which the buckets are full then. -/
theorem Exact.occupy (h : s.Exact) {id hint : Nat} (hid : id < s.occupied.capacity)
    (hhint : ∀ b, b < hint → (s.occupied.set id).isFull b = true) :
    Exact { s.occupy id with hint } where
  storage := (Array.size_modify).trans h.storage
  flags := by
    have hone : ∀ i ∈ [id], i < s.occupied.capacity ∧ bucketOf i = bucketOf id := by
      intro i hi
      obtain rfl := List.mem_singleton.mp hi
      exact ⟨hid, rfl⟩
    have hfill := h.flags.fill hone
    rwa [List.foldl_cons, List.foldl_nil] at hfill
  below_hint := hhint

theorem isFull_set {id b : Nat} (hid : id < s.occupied.capacity) (hb : s.occupied.isFull b = true) :
    (s.occupied.set id).isFull b = true :=
  Bitmap.isFull_mono hb fun i hi => by rw [Bitmap.contains_set hid, hi, Bool.or_true]

theorem Exact.take (h : s.Exact) {id : Nat} (hid : s.next? = some id) : (s.take id).Exact := by
  -- The hint moves up to the bucket of the slot, and what lies below the slot is in use.
  refine h.occupy (next?_lt_capacity hid) fun b hb => isFull_set (next?_lt_capacity hid) ?_
  refine Bitmap.isFull_iff.mpr fun i hi => h.contains_of_lt_next? hid ?_
  have : i / Bitmap.width < id / Bitmap.width := hi.symm ▸ hb
  exact Nat.lt_of_not_le fun hle => absurd (Nat.div_le_div_right hle) (Nat.not_le_of_lt this)

theorem Exact.claim (h : s.Exact) {id : Nat} (hid : id < s.capacity) : (s.occupy id).Exact := by
  have hlt := Nat.lt_of_lt_of_le hid h.capacity_le
  exact h.occupy hlt fun b hb => isFull_set hlt (h.below_hint b hb)

theorem Exact.release (h : s.Exact) (id : Nat) : (s.release id).Exact := by
  unfold FreeSlots.release
  split
  · refine ⟨(Array.size_modify).trans h.storage, h.flags.clear id, fun b hb => ?_⟩
    change b < min s.hint (bucketOf id) at hb
    -- The index lies in none of the buckets below the hint that there is now.
    have hfull := h.below_hint b (by omega)
    rw [← hfull]
    refine Bitmap.isFull_congr fun i hi => ?_
    have hne : i ≠ id := by
      rintro rfl
      rw [bucketOf] at hb
      omega
    show (s.occupied.clear id).contains i = _
    rw [Bitmap.contains_clear, bne_iff_ne.mpr hne, Bool.true_and]
  · exact h

/-! ### Growth -/

/-- What a longer record takes over: indices that are off the record from then on. -/
structure Vacated (is : List Nat) (s s' : FreeSlots) : Prop where
  words : s'.occupied.words.size = s.occupied.words.size
  contains : ∀ j, s'.occupied.contains j = (s.occupied.contains j && decide (j ∉ is))
  flags : Flags s.full s.occupied → Flags s'.full s'.occupied
  capacity : s'.capacity = s.capacity
  free : s'.free = s.free
  hint : s'.hint = s.hint

theorem vacated (is : List Nat) (s : FreeSlots) : Vacated is s (is.foldl vacate s) := by
  induction is generalizing s with
  | nil => exact ⟨rfl, fun j => by simp, fun h => h, rfl, rfl, rfl⟩
  | cons i is ih =>
    have h := ih (s.vacate i)
    rw [List.foldl_cons]
    refine ⟨h.words.trans Array.size_modify, fun j => ?_, fun hf => h.flags (hf.clear i), h.capacity,
      h.free, h.hint⟩
    have hone : (s.vacate i).occupied.contains j = (j != i && s.occupied.contains j) :=
      Bitmap.contains_clear _ _ _
    rw [h.contains, hone, Bool.eq_iff_iff]
    simp only [Bool.and_eq_true, bne_iff_ne, decide_eq_true_eq, List.mem_cons]
    tauto

theorem capacity_extend (s : FreeSlots) (capacity : Nat) :
    (s.extend capacity).capacity = capacity := rfl

theorem free_extend (s : FreeSlots) (capacity : Nat) :
    (s.extend capacity).free = s.free + (capacity - s.capacity) := by
  have h := vacated (span s.capacity (min s.occupied.capacity capacity)) s
  show _ + (capacity - _) = _
  rw [h.free, h.capacity]

theorem hint_extend (s : FreeSlots) (capacity : Nat) :
    (s.extend capacity).hint = min s.hint (bucketOf s.capacity) := by
  have h := vacated (span s.capacity (min s.occupied.capacity capacity)) s
  show min _ (bucketOf _) = _
  rw [h.hint, h.capacity]

theorem capacity_grow {capacity : Nat} (h : s.capacity ≤ capacity) :
    (s.grow capacity).capacity = capacity := by
  unfold grow
  split
  · omega
  · rfl

theorem free_grow {capacity : Nat} (h : s.capacity ≤ capacity) :
    (s.grow capacity).free = s.free + (capacity - s.capacity) := by
  unfold grow
  split
  · have : capacity = s.capacity := by omega
    simp [this]
  · exact free_extend s capacity

section Extend

variable {capacity : Nat} (h : s.Exact) (hlt : s.capacity < capacity)

include h hlt

theorem Exact.words_extend : (s.extend capacity).occupied.words.size = Bitmap.wordsFor capacity := by
  have hv := vacated (span s.capacity (min s.occupied.capacity capacity)) s
  show (List.foldl Bitmap.set (Bitmap.extend _ _) _).words.size = _
  rw [Bitmap.words_foldl_set, Bitmap.size_extend, hv.words, h.storage]
  simp only [Bitmap.wordsFor, Bitmap.width]
  omega

/-- The record keeps what was in use, and has the padding of the new last bucket. -/
theorem Exact.contains_extend (j : Nat) : (s.extend capacity).occupied.contains j = true ↔
    j < s.capacity ∧ s.occupied.contains j = true ∨
      capacity ≤ j ∧ j < Bitmap.wordsFor capacity * Bitmap.width := by
  have hv := vacated (span s.capacity (min s.occupied.capacity capacity)) s
  have hcap := h.capacity_le
  have hroom : ∀ i ∈ span capacity (Bitmap.wordsFor capacity * Bitmap.width),
      i < ((List.foldl vacate s (span s.capacity (min s.occupied.capacity capacity))).occupied.extend
        (Bitmap.wordsFor capacity)).capacity := by
    intro i hi
    rw [Bitmap.capacity, Bitmap.size_extend]
    exact Nat.lt_of_lt_of_le (mem_span.mp hi).2 (Nat.mul_le_mul_right _ (Nat.le_max_right _ _))
  have hroof := Bitmap.le_wordsFor capacity
  have hwords : s.occupied.capacity ≤ Bitmap.wordsFor capacity * Bitmap.width := by
    rw [h.capacity_eq]
    simp only [Bitmap.wordsFor, Bitmap.width]
    omega
  show (List.foldl Bitmap.set (Bitmap.extend _ _) _).contains j = true ↔ _
  rw [Bitmap.contains_foldl_set hroom, Bitmap.contains_extend, hv.contains]
  simp only [Bool.or_eq_true, Bool.and_eq_true, decide_eq_true_eq, mem_span]
  -- Past the old capacity, what is still on the record is padding of the new bucket as well.
  constructor
  · rintro (⟨hj, hout⟩ | hpad)
    · have := Bitmap.lt_capacity_of_contains hj
      by_cases hjc : j < s.capacity
      · exact .inl ⟨hjc, hj⟩
      · exact .inr (by omega)
    · exact .inr hpad
  · rintro (⟨hjc, hj⟩ | hpad)
    · exact .inl ⟨hj, by omega⟩
    · exact .inr hpad

theorem Exact.extend : (s.extend capacity).Exact := by
  have hv := vacated (span s.capacity (min s.occupied.capacity capacity)) s
  refine ⟨h.words_extend hlt, ?_, fun b hb => ?_⟩
  · -- The padding lies in the last bucket.
    have hroof := Bitmap.le_wordsFor capacity
    have hbase : Flags
        ((List.foldl vacate s (span s.capacity (min s.occupied.capacity capacity))).full.reserve
          (Bitmap.wordsFor capacity))
        ((List.foldl vacate s (span s.capacity (min s.occupied.capacity capacity))).occupied.extend
          (Bitmap.wordsFor capacity)) := by
      intro b
      rw [BitSet.contains_reserve, hv.flags h.flags b]
      exact Bool.eq_iff_iff.mp (Bitmap.isFull_congr fun i _ => (Bitmap.contains_extend _ _ i).symm)
    refine hbase.fill fun i hi => ?_
    obtain ⟨hge, hend⟩ := mem_span.mp hi
    rw [Bitmap.capacity, Bitmap.size_extend]
    refine ⟨Nat.lt_of_lt_of_le hend (Nat.mul_le_mul_right _ (Nat.le_max_right _ _)), ?_⟩
    simp only [bucketOf, Bitmap.wordsFor, Bitmap.width] at *
    omega
  · -- A bucket before the one of the old capacity has had no padding to lose.
    rw [hint_extend] at hb
    have hfull := Bitmap.isFull_iff.mp (h.below_hint b (by omega))
    refine Bitmap.isFull_iff.mpr fun i hi => (h.contains_extend hlt i).mpr (.inl ⟨?_, hfull i hi⟩)
    simp only [bucketOf, Bitmap.width] at *
    omega

end Extend

theorem Exact.grow (h : s.Exact) (capacity : Nat) : (s.grow capacity).Exact := by
  unfold FreeSlots.grow
  split
  · exact h
  · exact h.extend (by omega)

/-! ### The free slots are counted -/

/-- The allocator is as its operations leave it, as long as no slot past the capacity is freed. -/
structure Valid (s : FreeSlots) : Prop extends Exact s where
  padding : ∀ i, s.capacity ≤ i → i < s.occupied.capacity → s.occupied.contains i = true
  free_eq : s.free = s.vacancies.card

theorem Valid.free_le (h : s.Valid) : s.free ≤ s.capacity := by
  rw [h.free_eq]
  exact (Finset.card_filter_le _ _).trans_eq (Finset.card_range _)

theorem Valid.next?_lt (h : s.Valid) {id : Nat} (hid : s.next? = some id) : id < s.capacity := by
  have hclear := contains_next? hid
  by_contra hle
  rw [h.padding id (by omega) (next?_lt_capacity hid)] at hclear
  cases hclear

/-- The slot that is offered is the lowest free one. -/
theorem Valid.isUsed_of_lt_next? (h : s.Valid) {id j : Nat} (hid : s.next? = some id) (hj : j < id) :
    s.isUsed j = true := by
  rw [isUsed_eq (Nat.lt_trans hj (h.next?_lt hid))]
  exact h.contains_of_lt_next? hid hj

/-- If none is offered, all slots are in use. -/
theorem Valid.isUsed_of_next?_eq_none (h : s.Valid) (hnone : s.next? = none) {j : Nat}
    (hj : j < s.capacity) : s.isUsed j = true := by
  by_contra hused
  have hmem : j ∈ s.vacancies := mem_vacancies.mpr ⟨hj, Bool.eq_false_iff.mpr hused⟩
  have hfree : s.free ≠ 0 := by
    rw [h.free_eq]
    exact Finset.card_ne_zero_of_mem hmem
  rw [isUsed_eq hj] at hused
  exact hused (h.contains_of_next?_eq_none hnone hfree (Nat.lt_of_lt_of_le hj h.capacity_le))

/-- As long as the count of free slots is positive, a slot is offered. -/
theorem Valid.next?_isSome (h : s.Valid) (hpos : 0 < s.free) : ∃ id, s.next? = some id := by
  rw [h.free_eq, Finset.card_pos] at hpos
  obtain ⟨i, hi⟩ := hpos
  obtain ⟨hlt, hclear⟩ := mem_vacancies.mp hi
  rcases hnext : s.next? with _ | id
  · rw [h.isUsed_of_next?_eq_none hnext hlt] at hclear
    cases hclear
  · exact ⟨id, rfl⟩

theorem vacancies_take (hs : s.capacity ≤ s.occupied.capacity) {id : Nat} (hid : id < s.capacity) :
    (s.take id).vacancies = s.vacancies.erase id := by
  ext i
  rw [Finset.mem_erase, mem_vacancies, mem_vacancies, isUsed_take hs hid, capacity_take]
  simp only [Bool.or_eq_false_iff, beq_eq_false_iff_ne, ne_eq]
  tauto

/-- A free slot comes into use. -/
theorem Valid.occupy (h : s.Valid) {id hint : Nat} (hid : id < s.capacity)
    (hclear : s.occupied.contains id = false) (hexact : Exact { s.occupy id with hint }) :
    Valid { s.occupy id with hint } where
  toExact := hexact
  padding i hi hi' := by
    change i < (s.occupied.set id).capacity at hi'
    rw [Bitmap.capacity_set] at hi'
    show (s.occupied.set id).contains i = true
    rw [Bitmap.contains_set (Nat.lt_of_lt_of_le hid h.capacity_le), h.padding i hi hi', Bool.or_true]
  free_eq := by
    have hmem : id ∈ s.vacancies := mem_vacancies.mpr ⟨hid, by rw [isUsed_eq hid, hclear]⟩
    show s.free - 1 = (s.take id).vacancies.card
    rw [vacancies_take h.capacity_le hid, Finset.card_erase_of_mem hmem, ← h.free_eq]

theorem Valid.take (h : s.Valid) {id : Nat} (hid : s.next? = some id) : (s.take id).Valid :=
  h.occupy (h.next?_lt hid) (contains_next? hid) (h.toExact.take hid)

/-- A slot that is claimed is in use afterwards, whether it was free or not. -/
theorem Valid.claim? (h : s.Valid) {id : Nat} {fresh : Bool} {s' : FreeSlots}
    (hs : s.claim? id = some (fresh, s')) :
    s'.Valid ∧ s'.capacity = s.capacity ∧ ∀ j, s'.isUsed j = (j == id || s.isUsed j) := by
  unfold FreeSlots.claim? at hs
  split at hs
  · rename_i hid
    split at hs
    · rename_i hused
      obtain ⟨-, rfl⟩ := Prod.mk.inj (Option.some.inj hs)
      refine ⟨h, rfl, fun j => ?_⟩
      by_cases hj : j = id
      · rw [hj, isUsed_eq hid, hused, Bool.or_true]
      · rw [beq_eq_false_iff_ne.mpr hj, Bool.false_or]
    · rename_i hused
      obtain ⟨-, rfl⟩ := Prod.mk.inj (Option.some.inj hs)
      exact ⟨h.occupy hid (Bool.eq_false_iff.mpr hused) (h.toExact.claim hid), rfl,
        isUsed_take h.capacity_le hid⟩
  · cases hs

theorem free_take (s : FreeSlots) (id : Nat) : (s.take id).free = s.free - 1 := rfl

theorem vacancies_release {id : Nat} (hid : id < s.capacity) :
    (s.release id).vacancies = insert id s.vacancies := by
  ext i
  rw [Finset.mem_insert, mem_vacancies, mem_vacancies, isUsed_release, capacity_release]
  by_cases hi : i = id
  · simp [hi, hid]
  · simp [hi]

theorem Valid.release (h : s.Valid) {id : Nat} (hid : id < s.capacity) : (s.release id).Valid := by
  by_cases hused : s.occupied.contains id = true
  · have hne : id ∉ s.vacancies := by
      rw [mem_vacancies, isUsed_eq hid, hused]
      simp
    refine ⟨h.toExact.release id, fun i hi hi' => ?_, ?_⟩
    · rw [capacity_release] at hi
      rw [(h.toExact.release id).capacity_eq, capacity_release, ← h.capacity_eq] at hi'
      rw [contains_release, h.padding i hi hi', Bool.and_true, bne_iff_ne]
      omega
    · rw [vacancies_release hid, Finset.card_insert_of_notMem hne, ← h.free_eq, FreeSlots.release,
        if_pos hused]
      rfl
  · rw [FreeSlots.release, if_neg hused]
    exact h

/-- Growing keeps what is in use and adds free slots only. -/
theorem Valid.isUsed_grow (h : s.Valid) (capacity i : Nat) :
    (s.grow capacity).isUsed i = s.isUsed i := by
  unfold grow
  split
  · rfl
  · rename_i hlt
    rw [Bool.eq_iff_iff]
    simp only [isUsed, Bool.and_eq_true, decide_eq_true_eq,
      h.contains_extend (Nat.lt_of_not_le hlt)]
    constructor
    · rintro ⟨hi, hold | hpad⟩
      · exact hold
      · rw [capacity_extend] at hi
        omega
    · intro hold
      rw [capacity_extend]
      exact ⟨by omega, .inl hold⟩

theorem Valid.vacancies_grow (h : s.Valid) {capacity : Nat} (hle : s.capacity ≤ capacity) :
    (s.grow capacity).vacancies = s.vacancies ∪ Finset.Ico s.capacity capacity := by
  ext i
  rw [Finset.mem_union, mem_vacancies, mem_vacancies, h.isUsed_grow, capacity_grow hle,
    Finset.mem_Ico]
  by_cases hi : i < s.capacity
  · have hlt : i < capacity := by omega
    simp [hi, hlt]
  · have hnot : s.isUsed i = false := by simp [isUsed, hi]
    simp only [hnot, hi, and_true, false_or]
    omega

theorem Valid.grow (h : s.Valid) (capacity : Nat) : (s.grow capacity).Valid := by
  by_cases hle : capacity ≤ s.capacity
  · rw [FreeSlots.grow, if_pos hle]
    exact h
  · have hlt : s.capacity < capacity := by omega
    refine ⟨h.toExact.grow capacity, fun i hi hi' => ?_, ?_⟩
    · rw [(h.toExact.grow capacity).capacity_eq, capacity_grow (Nat.le_of_lt hlt)] at hi'
      rw [capacity_grow (Nat.le_of_lt hlt)] at hi
      rw [FreeSlots.grow, if_neg hle, h.contains_extend hlt]
      exact .inr ⟨hi, hi'⟩
    · have hdisj : Disjoint s.vacancies (Finset.Ico s.capacity capacity) := by
        rw [Finset.disjoint_left]
        intro i hi hi'
        rw [mem_vacancies] at hi
        rw [Finset.mem_Ico] at hi'
        omega
      rw [free_grow (Nat.le_of_lt hlt), h.vacancies_grow (Nat.le_of_lt hlt),
        Finset.card_union_of_disjoint hdisj, ← h.free_eq, Nat.card_Ico]

/-- In the beginning all slots are free. -/
theorem valid_ofCapacity (capacity : Nat) :
    (ofCapacity capacity).Valid ∧ (ofCapacity capacity).capacity = capacity ∧
      ∀ i, (ofCapacity capacity).isUsed i = false := by
  have hflags : Flags BitSet.empty Bitmap.empty := by
    intro b
    rw [BitSet.contains_empty, Bitmap.isFull_iff]
    constructor
    · intro h
      cases h
    · intro h
      have := h (b * Bitmap.width) (Nat.mul_div_cancel _ (by decide))
      simp at this
  have hempty : Valid ⟨Bitmap.empty, BitSet.empty, 0, 0, 0⟩ :=
    ⟨⟨rfl, hflags, fun _ hb => absurd hb (Nat.not_lt_zero _)⟩,
      fun _ _ hi => absurd hi (Nat.not_lt_zero _), rfl⟩
  refine ⟨hempty.grow capacity, capacity_grow (Nat.zero_le _), fun i => ?_⟩
  exact (hempty.isUsed_grow capacity i).trans rfl

end FreeSlots

end DecisionDiagram
