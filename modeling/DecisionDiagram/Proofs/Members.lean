/-
A set of bits is a finite set of naturals.

A script says how a set is built by calls, one after the other; the second operand of a union is built
by calls of its own.  It stands for a finite set of naturals, and the set that it builds answers every
question about that one.

* `Bitmap.count_eq` — the bits that are set are as many as the members;
* `BitSet.Represents.insert`, `.remove`, `.union` — what one call preserves;
* `BitSet.Script.represents` — what a script preserves;
* `BitSet.refines_finset` — the answers of a set that was built by a script.
-/
import Mathlib.Data.Finset.Sort
import Mathlib.Data.Nat.Count
import DecisionDiagram.BitSet

namespace DecisionDiagram

namespace Bitmap

/-! ### The number of members -/

theorem countP_range (p : Nat → Bool) (n : Nat) :
    (List.range n).countP p = Nat.count (fun i => p i = true) n := by
  induction n with
  | zero => rfl
  | succ n ih =>
    rw [List.range_succ, List.countP_append, List.countP_singleton, Nat.count_succ, ih]

/-- The bits of a list of words are those of the first word and then those of the others. -/
theorem foldl_popCount (ws : List UInt64) (total : Nat) :
    ws.foldl (fun total w => total + popCount w) total =
      total + Nat.count (fun i => (ws.getD (i / width) 0).toNat.testBit (i % width) = true)
        (ws.length * width) := by
  induction ws generalizing total with
  | nil => simp
  | cons w ws ih =>
    have hfirst : Nat.count (fun i => ((w :: ws).getD (i / width) 0).toNat.testBit (i % width) = true)
        width = popCount w := by
      rw [popCount, countP_range, Nat.count_eq_card_filter_range, Nat.count_eq_card_filter_range]
      refine congrArg Finset.card (Finset.filter_congr fun i hi => ?_)
      rw [Finset.mem_range] at hi
      rw [Nat.div_eq_of_lt hi, Nat.mod_eq_of_lt hi, List.getD_cons_zero]
    have hrest : ∀ i, ((w :: ws).getD ((width + i) / width) 0).toNat.testBit ((width + i) % width) =
        (ws.getD (i / width) 0).toNat.testBit (i % width) := by
      intro i
      rw [Nat.add_div_left i (by decide), Nat.add_mod_left, List.getD_cons_succ]
    rw [List.foldl_cons, ih, List.length_cons, Nat.succ_mul, Nat.add_comm (ws.length * width),
      Nat.count_add, hfirst, Nat.add_assoc]
    simp only [hrest]

/-- The bits that are set are as many as the members. -/
theorem count_eq (m : Bitmap) :
    m.count = ((Finset.range m.capacity).filter fun i => m.contains i = true).card := by
  have hbit : ∀ i, m.contains i =
      (m.words.toList.getD (i / width) 0).toNat.testBit (i % width) := by
    intro i
    rw [contains, word, Array.getD_eq_getD_getElem?, List.getD_eq_getElem?_getD, Array.getElem?_toList]
  simp only [hbit]
  rw [count, ← Array.foldl_toList, foldl_popCount, Nat.zero_add, Array.length_toList,
    ← Nat.count_eq_card_filter_range]
  rfl

end Bitmap

namespace BitSet

/-- A set holds the members of a finite set of naturals, and has counted them. -/
structure Represents (s : BitSet) (S : Finset Nat) : Prop where
  contains_iff : ∀ i, s.contains i = true ↔ i ∈ S
  size : s.size = S.card

variable {s t : BitSet} {S T : Finset Nat}

theorem Represents.contains_eq (h : Represents s S) (i : Nat) : s.contains i = decide (i ∈ S) := by
  rw [Bool.eq_iff_iff, decide_eq_true_eq, h.contains_iff]

theorem represents_ofCapacity (n : Nat) : Represents (ofCapacity n) ∅ :=
  ⟨fun i => by simp, rfl⟩

theorem Represents.insert (h : Represents s S) (i : Nat) : Represents (s.insert i) (Insert.insert i S) := by
  refine ⟨fun j => by simp [h.contains_iff], ?_⟩
  rw [BitSet.insert, tryInsert_eq]
  dsimp only
  split
  · rename_i hi
    rw [Finset.insert_eq_of_mem ((h.contains_iff i).mp hi), ← h.size]
  · rename_i hi
    rw [h.contains_iff] at hi
    rw [Finset.card_insert_of_notMem hi, ← h.size]

theorem Represents.remove (h : Represents s S) (i : Nat) : Represents (s.remove i) (S.erase i) := by
  refine ⟨fun j => by simp [h.contains_iff], ?_⟩
  rw [BitSet.remove, tryRemove_eq]
  dsimp only
  split
  · rename_i hi
    rw [Finset.card_erase_of_mem ((h.contains_iff i).mp hi), ← h.size]
  · rename_i hi
    rw [h.contains_iff] at hi
    rw [Finset.erase_eq_of_notMem hi, ← h.size]

theorem Represents.union (h : Represents s S) (h' : Represents t T) :
    Represents (s.union t) (S ∪ T) := by
  have hmem : ∀ i, (s.union t).contains i = true ↔ i ∈ S ∪ T := fun i => by
    rw [contains_union, Bool.or_eq_true, h.contains_iff, h'.contains_iff, Finset.mem_union]
  refine ⟨hmem, ?_⟩
  -- The members are those of the words, which are counted anew.
  have hcount : (s.union t).size = (s.union t).bits.count := rfl
  rw [hcount, Bitmap.count_eq]
  congr 1
  ext i
  rw [Finset.mem_filter, Finset.mem_range, ← BitSet.contains_eq, hmem]
  exact ⟨fun hi => hi.2, fun hi => ⟨lt_capacity_of_contains ((hmem i).mpr hi), hi⟩⟩

theorem Represents.reserve (h : Represents s S) (n : Nat) : Represents (s.reserve n) S :=
  ⟨fun i => by rw [contains_reserve, h.contains_iff], h.size⟩

theorem Represents.clear (s : BitSet) : Represents s.clear ∅ :=
  ⟨fun i => by simp, rfl⟩

theorem Represents.insertMany (h : Represents s S) (is : List Nat) :
    Represents (s.insertMany is) (S ∪ is.toFinset) := by
  induction is generalizing s S with
  | nil => simpa [BitSet.insertMany] using h
  | cons i is ih =>
    have hrest := ih (h.insert i)
    rwa [Finset.insert_union, ← Finset.union_insert, ← List.toFinset_cons] at hrest

/-! ### Answers -/

/-- The members in increasing order are in one list only. -/
theorem Represents.eq_sort (h : Represents s S) {l : List Nat}
    (hmem : ∀ i, i ∈ l ↔ s.contains i = true) (hsorted : l.Pairwise (· < ·)) : l = S.sort := by
  have hset : l.toFinset = S := by
    ext i
    rw [List.mem_toFinset, hmem, h.contains_iff]
  rw [← hset]
  refine ((List.toFinset_sort _ (hsorted.imp Nat.ne_of_lt)).mpr ?_).symm
  exact hsorted.imp Nat.le_of_lt

theorem Represents.toList_eq (h : Represents s S) : s.toList = S.sort :=
  h.eq_sort (fun _ => mem_toList) (toList_pairwise s)

/-- A walk of `n` steps is the beginning of a longer one. -/
theorem take_listFrom (s : BitSet) (n k : Nat) (c : Cursor) :
    (s.listFrom (n + k) c).take n = s.listFrom n c := by
  induction n generalizing c with
  | zero => rw [List.take_zero, listFrom]
  | succ n ih =>
    rw [Nat.succ_add, listFrom, listFrom]
    rcases s.next? c with _ | ⟨i, c'⟩
    · rfl
    · rw [List.take_succ_cons, ih]

/-- The walk goes through the members in increasing order, and ends after the last of them. -/
theorem Represents.listFrom_eq (h : Represents s S) (n : Nat) :
    s.listFrom n s.start = S.sort.take n := by
  have hall : ∀ i, s.ahead s.start i = true → 0 ≤ i ∧ i < 0 + (n + s.capacity) := by
    intro i hi
    rw [ahead_start] at hi
    have := lt_capacity_of_contains hi
    omega
  obtain ⟨hmem, hsorted⟩ := listFrom_spec hall
  rw [← take_listFrom s n s.capacity,
    h.eq_sort (fun i => by rw [hmem, ahead_start]) hsorted]

theorem Represents.isLeast_of_firstClearFrom (h : Represents s S) {start limit i : Nat}
    (hi : s.firstClearFrom start limit = some i) :
    IsLeast {j | start ≤ j ∧ j < limit ∧ j ∉ S} i := by
  obtain ⟨hge, hlt, hclear, hbelow⟩ := firstClearFrom_eq_some hi
  refine ⟨⟨hge, hlt, fun hmem => ?_⟩, ?_⟩
  · rw [(h.contains_iff i).mpr hmem] at hclear
    cases hclear
  · rintro j ⟨hj, -, hnot⟩
    exact Nat.le_of_not_lt fun hlow => hnot ((h.contains_iff j).mp (hbelow j hj hlow))

theorem Represents.firstClearFrom_eq_none_iff (h : Represents s S) {start limit : Nat} :
    s.firstClearFrom start limit = none ↔ ∀ j, start ≤ j → j < limit → j ∈ S := by
  constructor
  · intro hnone j hj hlt
    exact (h.contains_iff j).mp (contains_of_firstClearFrom_eq_none hnone hj hlt)
  · intro hall
    rcases hfind : s.firstClearFrom start limit with _ | i
    · rfl
    · obtain ⟨hge, hlt, hnot⟩ := (h.isLeast_of_firstClearFrom hfind).1
      exact absurd (hall i hge hlt) hnot

theorem Represents.firstClearFrom_eq_some_iff (h : Represents s S) {start limit i : Nat} :
    s.firstClearFrom start limit = some i ↔ IsLeast {j | start ≤ j ∧ j < limit ∧ j ∉ S} i := by
  refine ⟨h.isLeast_of_firstClearFrom, fun hleast => ?_⟩
  obtain ⟨hge, hlt, hnot⟩ := hleast.1
  rcases hfind : s.firstClearFrom start limit with _ | j
  · exact absurd (h.firstClearFrom_eq_none_iff.mp hfind i hge hlt) hnot
  · rw [(h.isLeast_of_firstClearFrom hfind).unique hleast]

/-! ### Scripts -/

/-- How a set is built, the last call outermost. -/
inductive Script
  | new (capacity : Nat)
  | insert (before : Script) (i : Nat)
  | remove (before : Script) (i : Nat)
  | union (before other : Script)
  | reserve (before : Script) (n : Nat)
  | insertMany (before : Script) (is : List Nat)
  | clear (before : Script)
deriving Repr

namespace Script

/-- Makes the calls. -/
def build : Script → BitSet
  | new capacity => ofCapacity capacity
  | insert before i => before.build.insert i
  | remove before i => before.build.remove i
  | union before other => before.build.union other.build
  | reserve before n => before.build.reserve n
  | insertMany before is => before.build.insertMany is
  | clear before => before.build.clear

/-- The finite set that the calls stand for. -/
def members : Script → Finset Nat
  | new _ => ∅
  | insert before i => Insert.insert i before.members
  | remove before i => before.members.erase i
  | union before other => before.members ∪ other.members
  | reserve before _ => before.members
  | insertMany before is => before.members ∪ is.toFinset
  | clear _ => ∅

theorem represents (script : Script) : Represents script.build script.members := by
  induction script with
  | new capacity => exact represents_ofCapacity capacity
  | insert before i ih => exact ih.insert i
  | remove before i ih => exact ih.remove i
  | union before other ih ih' => exact ih.union ih'
  | reserve before n ih => exact ih.reserve n
  | insertMany before is ih => exact ih.insertMany is
  | clear before _ => exact .clear before.build

end Script

/-- Whatever calls a set was built by, it answers as the finite set does that they stand for: on
membership, on whether an insertion or a removal would change it, on the number of its members, on
these in increasing order, step by step, and on the least index of a range that is none of them. -/
theorem refines_finset (script : Script) :
    (∀ i, script.build.contains i = decide (i ∈ script.members)) ∧
      (∀ i, (script.build.tryInsert i).1 = decide (i ∉ script.members)) ∧
      (∀ i, (script.build.tryRemove i).1 = decide (i ∈ script.members)) ∧
      script.build.size = script.members.card ∧
      script.build.isEmpty = decide (script.members = ∅) ∧
      (∀ n, script.build.listFrom n script.build.start = script.members.sort.take n) ∧
      script.build.toList = script.members.sort ∧
      ∀ start limit,
        (∀ i, script.build.firstClearFrom start limit = some i ↔
          IsLeast {j | start ≤ j ∧ j < limit ∧ j ∉ script.members} i) ∧
        (script.build.firstClearFrom start limit = none ↔
          ∀ j, start ≤ j → j < limit → j ∈ script.members) := by
  have h := script.represents
  refine ⟨h.contains_eq, fun i => ?_, fun i => ?_, h.size, ?_, h.listFrom_eq, h.toList_eq,
    fun start limit => ⟨fun i => h.firstClearFrom_eq_some_iff, h.firstClearFrom_eq_none_iff⟩⟩
  · rw [tryInsert_eq, h.contains_eq, decide_not]
  · rw [tryRemove_eq, h.contains_eq]
  · rw [isEmpty, h.size, Bool.eq_iff_iff, beq_iff_eq, decide_eq_true_eq, Finset.card_eq_zero]

/-- Both ends of the second word, and the search past the storage. -/
example : (BitSet.Script.build (.union (.insertMany (.new 10) [1, 63, 64])
      (.insertMany (.new 200) [64, 127, 150]))).toList = [1, 63, 64, 127, 150] ∧
    (BitSet.Script.build (.insertMany (.new 64) (List.range 64))).firstClearFrom 0 300 = some 64 := by
  decide +kernel

end BitSet

end DecisionDiagram
