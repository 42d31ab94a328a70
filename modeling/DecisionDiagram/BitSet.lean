/-
Finite sets of naturals: a record of bits that counts its members and grows by itself.

The storage grows by whole words, and only as far as an insertion or a reservation needs it.
Everything past the last word is absent from the set.

* **`contains`** — membership, the one view through which the other operations are described
  (`contains_insert`, `contains_remove`, `contains_union`);
* **`tryInsert`**, **`tryRemove`** — the updates at one index, which tell whether they changed anything;
* **`firstClearFrom`** — the least index of a range that is not a member, found word by word;
* **`next?`** — one step of a walk through the members in increasing order, of which `toList` is the
  whole.
-/
import DecisionDiagram.Bitmap

namespace DecisionDiagram

/-- A set of naturals together with its number of members. Two sets are equal as values only if
they also have equally long storage. -/
structure BitSet where
  bits : Bitmap
  /-- Number of members. -/
  size : Nat
deriving DecidableEq

namespace BitSet

open Bitmap (width mask)

/-- The empty set with room for the indices below `n`. -/
def ofCapacity (n : Nat) : BitSet := ⟨Bitmap.ofCapacity n, 0⟩

/-- The empty set with no storage. -/
def empty : BitSet := ⟨Bitmap.empty, 0⟩

instance : Inhabited BitSet := ⟨empty⟩

/-- Number of stored bits. -/
def capacity (s : BitSet) : Nat := s.bits.capacity

def isEmpty (s : BitSet) : Bool := s.size == 0

/-- Whether `i` is a member. It is not unfolded in proofs, which would only meet the arithmetic of words
there. -/
@[irreducible] def contains (s : BitSet) (i : Nat) : Bool := s.bits.word (i / width) &&& mask i != 0

theorem contains_eq (s : BitSet) (i : Nat) : s.contains i = s.bits.contains i := by
  rw [contains]
  exact Bitmap.and_mask_bne_zero _ _

@[simp] theorem contains_empty (i : Nat) : empty.contains i = false := by
  rw [contains_eq]
  exact Bitmap.contains_empty i

@[simp] theorem contains_ofCapacity (n i : Nat) : (ofCapacity n).contains i = false := by
  rw [contains_eq]
  exact Bitmap.contains_ofCapacity n i

/-- The members lie within the storage. -/
theorem lt_capacity_of_contains {s : BitSet} {i : Nat} (h : s.contains i = true) :
    i < s.capacity := by
  rw [contains_eq] at h
  exact Bitmap.lt_capacity_of_contains h

/-! ### Updates -/

/-- Extends the storage to hold the indices below `n`. -/
def reserve (s : BitSet) (n : Nat) : BitSet :=
  let ⟨bits, size⟩ := s
  ⟨bits.extend (Bitmap.wordsFor n), size⟩

@[simp] theorem contains_reserve (s : BitSet) (n i : Nat) :
    (s.reserve n).contains i = s.contains i := by
  rw [contains_eq, contains_eq]
  exact Bitmap.contains_extend _ _ _

/-- Adds `i`, extending the storage if it has to, and tells whether it was absent. -/
def tryInsert (s : BitSet) (i : Nat) : Bool × BitSet :=
  let ⟨bits, size⟩ := s
  let bits := bits.extend (i / width + 1)
  if bits.word (i / width) &&& mask i == 0 then (true, ⟨bits.set i, size + 1⟩)
  else (false, ⟨bits, size⟩)

/-- Adds `i`. -/
def insert (s : BitSet) (i : Nat) : BitSet := (s.tryInsert i).2

/-- The set after `i` was added: either its bit was set already, or it is set and counted. -/
theorem tryInsert_eq (s : BitSet) (i : Nat) :
    s.tryInsert i = (!s.contains i, if s.contains i then ⟨s.bits.extend (i / width + 1), s.size⟩
      else ⟨(s.bits.extend (i / width + 1)).set i, s.size + 1⟩) := by
  have hbit : ((s.bits.extend (i / width + 1)).word (i / width) &&& mask i == 0) = !s.contains i := by
    rw [← Bool.not_not (_ == 0), ← bne, Bitmap.and_mask_bne_zero, contains_eq]
    exact congrArg (!·) (Bitmap.contains_extend s.bits _ i)
  unfold tryInsert
  dsimp only
  rw [hbit]
  cases s.contains i <;> rfl

@[simp] theorem contains_insert (s : BitSet) (i j : Nat) :
    (s.insert i).contains j = (j == i || s.contains j) := by
  rw [insert, tryInsert_eq, contains_eq, contains_eq s j]
  dsimp only
  split
  · rename_i h
    rw [contains_eq] at h
    by_cases hj : j = i
    · simp [hj, h]
    · simp [hj]
  · have hroom : i < (s.bits.extend (i / width + 1)).capacity := by
      rw [Bitmap.capacity, Bitmap.size_extend]
      simp only [width]
      omega
    rw [Bitmap.contains_set hroom, Bitmap.contains_extend]

/-- Removes `i`, and tells whether it was a member. -/
def tryRemove (s : BitSet) (i : Nat) : Bool × BitSet :=
  let ⟨bits, size⟩ := s
  if bits.word (i / width) &&& mask i != 0 then (true, ⟨bits.clear i, size - 1⟩)
  else (false, ⟨bits, size⟩)

/-- Removes `i`. -/
def remove (s : BitSet) (i : Nat) : BitSet := (s.tryRemove i).2

theorem tryRemove_eq (s : BitSet) (i : Nat) :
    s.tryRemove i = (s.contains i, if s.contains i then ⟨s.bits.clear i, s.size - 1⟩ else s) := by
  rw [contains]
  unfold tryRemove
  dsimp only
  cases s.bits.word (i / width) &&& mask i != 0 <;> rfl

@[simp] theorem contains_remove (s : BitSet) (i j : Nat) :
    (s.remove i).contains j = (j != i && s.contains j) := by
  rw [remove, tryRemove_eq]
  dsimp only
  split
  · rw [contains_eq, contains_eq, Bitmap.contains_clear]
  · rename_i h
    by_cases hj : j = i
    · simp [hj, h]
    · simp [hj]

/-- Adds every member of `t`, and counts the members anew. -/
def union (s t : BitSet) : BitSet :=
  let ⟨bits, _⟩ := s
  let bits := bits.union t.bits
  ⟨bits, bits.count⟩

@[simp] theorem contains_union (s t : BitSet) (i : Nat) :
    (s.union t).contains i = (s.contains i || t.contains i) := by
  rw [contains_eq, contains_eq, contains_eq]
  exact Bitmap.contains_union _ _ _

/-- Removes every member and keeps the storage. -/
def clear (s : BitSet) : BitSet := ⟨s.bits.reset, 0⟩

@[simp] theorem contains_clear (s : BitSet) (i : Nat) : s.clear.contains i = false := by
  rw [contains_eq]
  exact Bitmap.contains_reset _ _

/-- Adds every index of a list. -/
def insertMany (s : BitSet) (is : List Nat) : BitSet := is.foldl insert s

theorem contains_insertMany (s : BitSet) (is : List Nat) (i : Nat) :
    (s.insertMany is).contains i = (s.contains i || decide (i ∈ is)) := by
  induction is generalizing s with
  | nil => simp [insertMany]
  | cons j is ih =>
    have := ih (s.insert j)
    simp only [insertMany, List.foldl_cons] at this ⊢
    rw [this]
    rw [Bool.eq_iff_iff]
    simp [or_assoc, or_left_comm]

/-! ### Enumeration -/

/-- A place in the walk through the members. -/
structure Cursor where
  /-- The position of a word. -/
  word : Nat
  /-- The bits of that word that are still ahead. -/
  rest : UInt64

/-- Before the first member. -/
def start (s : BitSet) : Cursor := ⟨0, s.bits.word 0⟩

/-- The next member, and the place after it. -/
def next? (s : BitSet) (c : Cursor) : Option (Nat × Cursor) :=
  (Bitmap.firstWord? s.bits.word (s.bits.words.size - 1 - c.word) c.word c.rest).map fun (b, w) =>
    (b * width + Bitmap.trailingZeros w, ⟨b, w &&& (w - 1)⟩)

/-- The members ahead of a place, up to `n` of them. -/
def listFrom (s : BitSet) : Nat → Cursor → List Nat
  | 0, _ => []
  | n + 1, c =>
    match s.next? c with
    | none => []
    | some (i, c) => i :: s.listFrom n c

/-- The members in increasing order. -/
def toList (s : BitSet) : List Nat := s.listFrom s.capacity s.start

/-- Whether `i` is ahead of a place. -/
def ahead (s : BitSet) (c : Cursor) (i : Nat) : Bool := Bitmap.bitFrom s.bits.word c.word c.rest i

/-- All members are ahead at the start. -/
theorem ahead_start (s : BitSet) (i : Nat) : s.ahead s.start i = s.contains i := by
  rw [contains_eq, ahead, start, Bitmap.bitFrom, Bitmap.contains]
  by_cases hi : i / width = 0
  · rw [if_pos hi, hi]
  · rw [if_neg hi, decide_eq_true (Nat.pos_of_ne_zero hi), Bool.true_and]

/-- A step goes to the first index that is ahead, and leaves the others ahead. -/
theorem leads_of_next? {s : BitSet} {c c' : Cursor} {i : Nat} (h : s.next? c = some (i, c')) :
    Bitmap.Leads i (s.ahead c) (s.ahead c') := by
  obtain ⟨⟨b, w⟩, hfirst, heq⟩ := Option.map_eq_some_iff.mp h
  obtain ⟨rfl, rfl⟩ := Prod.mk.inj heq
  exact Bitmap.leads_of_firstWord? hfirst

/-- A walk ends where no index is ahead. -/
theorem ahead_of_next?_eq_none {s : BitSet} {c : Cursor} {i : Nat} (h : s.next? c = none) :
    s.ahead c i = false := by
  rw [next?, Option.map_eq_none_iff] at h
  by_cases hi : i / width ≤ c.word + (s.bits.words.size - 1 - c.word)
  · exact Bitmap.bitFrom_of_firstWord?_eq_none h hi
  · -- There is no word at that position.
    have hword : s.bits.word (i / width) = 0 := by
      rw [Bitmap.word, Array.getD_eq_getD_getElem?, Array.getElem?_eq_none (by omega)]
      rfl
    have hne : i / width ≠ c.word := by omega
    rw [ahead, Bitmap.bitFrom, if_neg hne, hword, UInt64.toNat_zero, Nat.zero_testBit, Bool.and_false]

/-- The walk lists what is ahead, in increasing order, as long as that fits into `n` places. -/
theorem listFrom_spec {s : BitSet} {n lo : Nat} {c : Cursor}
    (h : ∀ i, s.ahead c i = true → lo ≤ i ∧ i < lo + n) :
    (∀ i, i ∈ s.listFrom n c ↔ s.ahead c i = true) ∧ (s.listFrom n c).Pairwise (· < ·) := by
  induction n generalizing lo c with
  | zero =>
    refine ⟨fun i => ⟨fun hi => absurd hi List.not_mem_nil, fun hi => ?_⟩, List.Pairwise.nil⟩
    have := h i hi
    omega
  | succ n ih =>
    rw [listFrom]
    rcases hnext : s.next? c with _ | ⟨i, c'⟩
    · refine ⟨fun i => ?_, List.Pairwise.nil⟩
      rw [ahead_of_next?_eq_none hnext]
      simp
    · obtain ⟨hset, hbelow, hrest⟩ := leads_of_next? hnext
      -- What is left to list starts after `i`, so the induction goes on with the bound `i + 1`.
      have hlater : ∀ j, s.ahead c' j = true → i + 1 ≤ j ∧ j < i + 1 + n := by
        intro j hj
        rw [hrest, Bool.and_eq_true, bne_iff_ne] at hj
        have hge : ¬ j < i := fun hlt => by
          have := hbelow j hlt
          rw [hj.1] at this
          cases this
        have := h j hj.1
        have := h i hset
        omega
      obtain ⟨hmem, hsorted⟩ := ih hlater
      refine ⟨fun j => ?_, List.pairwise_cons.mpr ⟨fun j hj => ?_, hsorted⟩⟩
      · rw [List.mem_cons, hmem, hrest, Bool.and_eq_true, bne_iff_ne]
        by_cases hj : j = i
        · simp [hj, hset]
        · simp [hj]
      · exact Nat.lt_of_succ_le (hlater j ((hmem j).mp hj)).1

theorem toList_spec (s : BitSet) :
    (∀ i, i ∈ s.toList ↔ s.contains i = true) ∧ s.toList.Pairwise (· < ·) := by
  have hall : ∀ i, s.ahead s.start i = true → 0 ≤ i ∧ i < 0 + s.capacity := by
    intro i hi
    rw [ahead_start] at hi
    rw [Nat.zero_add]
    exact ⟨Nat.zero_le i, lt_capacity_of_contains hi⟩
  obtain ⟨hmem, hsorted⟩ := listFrom_spec hall
  exact ⟨fun i => by rw [toList, hmem, ahead_start], hsorted⟩

@[simp] theorem mem_toList {s : BitSet} {i : Nat} : i ∈ s.toList ↔ s.contains i = true :=
  s.toList_spec.1 i

theorem toList_pairwise (s : BitSet) : s.toList.Pairwise (· < ·) := s.toList_spec.2

/-! ### Search -/

/-- The bits of the word `b` for the indices that are not members, but those below `start`. -/
def clearBits (s : BitSet) (start : Nat) : UInt64 :=
  ~~~ s.bits.word (start / width) &&& Bitmap.ones <<< (start % width).toUInt64

/-- The least index of `start ..< limit` that is not a member. Whole words of members are passed over
at once. -/
def firstClearFrom (s : BitSet) (start limit : Nat) : Option Nat :=
  let b := start / width
  if limit ≤ start then none
  else if s.bits.words.size ≤ b then some start
  else
    match Bitmap.firstWord? (fun b => ~~~ s.bits.word b) (Bitmap.wordsFor limit - 1 - b) b
      (s.clearBits start) with
    | none => none
    | some (b, w) =>
      let i := b * width + Bitmap.trailingZeros w
      if i < limit then some i else none

/-- The row of words that is searched has the bits of what is not a member. -/
theorem bitFrom_clearBits (s : BitSet) (start i : Nat) :
    Bitmap.bitFrom (fun b => ~~~ s.bits.word b) (start / width) (s.clearBits start) i =
      (decide (start ≤ i) && !s.contains i) := by
  have hi : i % width < width := Nat.mod_lt _ (by decide)
  have hstart : start % width < width := Nat.mod_lt _ (by decide)
  rw [contains_eq, Bitmap.contains, Bitmap.bitFrom]
  by_cases hb : i / width = start / width
  · have hiff : start % width ≤ i % width ↔ start ≤ i := by
      simp only [width] at *
      omega
    rw [if_pos hb, clearBits, UInt64.toNat_and, Nat.testBit_and, Bitmap.testBit_not _ hi,
      Bitmap.testBit_ones_shiftLeft hstart hi, hb, decide_eq_decide.mpr hiff, Bool.and_comm]
  · have hiff : start / width < i / width ↔ start ≤ i := by
      simp only [width] at *
      omega
    rw [if_neg hb, Bitmap.testBit_not _ hi, decide_eq_decide.mpr hiff]

theorem firstClearFrom_spec (s : BitSet) (start limit : Nat) :
    match s.firstClearFrom start limit with
    | some i => start ≤ i ∧ i < limit ∧ s.contains i = false ∧
        ∀ j, start ≤ j → j < i → s.contains j = true
    | none => ∀ j, start ≤ j → j < limit → s.contains j = true := by
  unfold firstClearFrom
  dsimp only
  by_cases hlimit : limit ≤ start
  · rw [if_pos hlimit]
    intro j hj hj'
    omega
  rw [if_neg hlimit]
  by_cases hsize : s.bits.words.size ≤ start / width
  · -- Past the storage there are no members.
    rw [if_pos hsize]
    refine ⟨Nat.le_refl _, by omega, ?_, fun j hj hj' => by omega⟩
    rw [← Bool.not_eq_true]
    intro hmem
    have := Bitmap.div_lt (lt_capacity_of_contains hmem)
    omega
  rw [if_neg hsize]
  rcases hfirst : Bitmap.firstWord? (fun b => ~~~ s.bits.word b)
    (Bitmap.wordsFor limit - 1 - start / width) (start / width) (s.clearBits start) with _ | ⟨b, w⟩
  · intro j hj hlt
    have hdiv : j / width ≤ start / width + (Bitmap.wordsFor limit - 1 - start / width) := by
      simp only [Bitmap.wordsFor, width]
      omega
    have := Bitmap.bitFrom_of_firstWord?_eq_none hfirst hdiv
    rw [bitFrom_clearBits, decide_eq_true hj] at this
    simpa using this
  · obtain ⟨hset, hbelow, -⟩ := Bitmap.leads_of_firstWord? hfirst
    dsimp only
    generalize b * width + Bitmap.trailingZeros w = i at *
    rw [bitFrom_clearBits] at hset
    have hmembers : ∀ j, start ≤ j → j < i → s.contains j = true := by
      intro j hj hlt
      have := hbelow j hlt
      rw [bitFrom_clearBits, decide_eq_true hj] at this
      simpa using this
    obtain ⟨hge, hclear⟩ : start ≤ i ∧ s.contains i = false := by simpa using hset
    by_cases hi : i < limit
    · rw [if_pos hi]
      exact ⟨hge, hi, hclear, hmembers⟩
    · rw [if_neg hi]
      exact fun j hj hlt => hmembers j hj (by omega)

theorem firstClearFrom_eq_some {s : BitSet} {start limit i : Nat}
    (h : s.firstClearFrom start limit = some i) :
    start ≤ i ∧ i < limit ∧ s.contains i = false ∧
      ∀ j, start ≤ j → j < i → s.contains j = true := by
  have := s.firstClearFrom_spec start limit
  rwa [h] at this

theorem contains_of_firstClearFrom_eq_none {s : BitSet} {start limit : Nat}
    (h : s.firstClearFrom start limit = none) {j : Nat} (hj : start ≤ j) (hlt : j < limit) :
    s.contains j = true := by
  have := s.firstClearFrom_spec start limit
  rw [h] at this
  exact this j hj hlt

end BitSet

end DecisionDiagram
