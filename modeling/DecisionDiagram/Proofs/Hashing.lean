/-
The pairing of ids is perfect.

The key of two ids is hashed to a word by the elegant pairing.  The words of 64 bits are exactly as
many as the pairs of words of 32 bits, and the pairing uses up all of them: below 2 ^ 32 it is the
pairing of naturals, so it takes every value once, and not even the last value of all wraps.

* `pair_lt_sq_iff` — the pairs that are numbered below a square are those of numbers below its root;
* `Hash.checkedPair_spec` — where that of two naturals is a word, the words are paired like naturals;
* `Hash.bijOn_pair`, `Hash.bijOn_word_two` — each word is the hash of one pair of ids;
* `Hash.pair_perfect` — the pairing of ids does not wrap, and takes every value once.
-/
import Mathlib.Algebra.Group.Nat.Defs
import Mathlib.Data.Nat.Pairing
import Mathlib.Data.Set.Prod
import DecisionDiagram.ComputedTable

namespace DecisionDiagram

/-- The pairs that are numbered below `n ^ 2` are those of numbers below `n`. -/
theorem pair_lt_sq_iff {a b n : Nat} : Nat.pair a b < n ^ 2 ↔ a < n ∧ b < n := by
  rw [← Nat.max_lt]
  constructor
  · intro h
    have hle : max a b ^ 2 ≤ Nat.pair a b :=
      (Nat.le_add_right _ _).trans (Nat.max_sq_add_min_le_pair a b)
    exact (Nat.pow_lt_pow_iff_left (by decide)).mp (Nat.lt_of_le_of_lt hle h)
  · intro h
    exact Nat.lt_of_lt_of_le (Nat.pair_lt_max_add_one_sq a b) (Nat.pow_le_pow_left h 2)

namespace Hash

variable {a b : UInt64}

/-! ### Arithmetic that does not wrap -/

/-- The sum of two words, if it is a word. -/
def checkedAdd (a b : UInt64) : Option UInt64 :=
  if a.toBitVec.uaddOverflow b.toBitVec then none else some (a + b)

/-- The product of two words, if it is a word. -/
def checkedMul (a b : UInt64) : Option UInt64 :=
  if a.toBitVec.umulOverflow b.toBitVec then none else some (a * b)

/-- The pairing of two words, if no sum and no product on the way to it wraps. -/
def checkedPair (a b : UInt64) : Option UInt64 :=
  if a < b then (checkedMul b b).bind fun square => checkedAdd square a
  else ((checkedMul a a).bind fun square => checkedAdd square a).bind fun sum => checkedAdd sum b

theorem checkedAdd_spec (h : a.toNat + b.toNat < 2 ^ 64) :
    checkedAdd a b = some (a + b) ∧ (a + b).toNat = a.toNat + b.toNat := by
  rw [checkedAdd, if_neg (by simpa [BitVec.uaddOverflow] using h), UInt64.toNat_add]
  exact ⟨rfl, Nat.mod_eq_of_lt h⟩

theorem checkedMul_spec (h : a.toNat * b.toNat < 2 ^ 64) :
    checkedMul a b = some (a * b) ∧ (a * b).toNat = a.toNat * b.toNat := by
  rw [checkedMul, if_neg (by simpa [BitVec.umulOverflow] using h), UInt64.toNat_mul]
  exact ⟨rfl, Nat.mod_eq_of_lt h⟩

/-- Nothing wraps on the way to a pairing that is a word. -/
theorem checkedPair_spec (h : Nat.pair a.toNat b.toNat < 2 ^ 64) :
    checkedPair a b = some (pair a b) ∧ (pair a b).toNat = Nat.pair a.toNat b.toNat := by
  rw [checkedPair, pair]
  by_cases hlt : a < b
  · rw [Nat.pair, if_pos (UInt64.lt_iff_toNat_lt.mp hlt)] at *
    obtain ⟨hmul, hsquare⟩ := checkedMul_spec (a := b) (b := b) (by omega)
    rw [← hsquare] at h ⊢
    obtain ⟨hadd, hsum⟩ := checkedAdd_spec h
    rw [if_pos hlt, if_pos hlt, hmul, Option.bind_some]
    exact ⟨hadd, hsum⟩
  · rw [Nat.pair, if_neg (mt UInt64.lt_iff_toNat_lt.mpr hlt)] at *
    obtain ⟨hmul, hsquare⟩ := checkedMul_spec (a := a) (b := a) (by omega)
    rw [← hsquare] at h ⊢
    obtain ⟨hfirst, hpart⟩ := checkedAdd_spec (a := a * a) (b := a) (by omega)
    rw [← hpart] at h ⊢
    obtain ⟨hsecond, hsum⟩ := checkedAdd_spec h
    rw [if_neg hlt, if_neg hlt, hmul, Option.bind_some, hfirst, Option.bind_some]
    exact ⟨hsecond, hsum⟩

/-! ### Ids -/

/-- The words that are ids: those of 32 bits. -/
def ids : Set UInt64 := {a | a.toNat < 2 ^ 32}

theorem toNat_toUInt64_of_id {n : Nat} (h : n < 2 ^ 32) : n.toUInt64.toNat = n :=
  UInt64.toNat_ofNat_of_lt' (Nat.lt_trans h (by decide))

theorem bijOn_toUInt64 : Set.BijOn Nat.toUInt64 (Set.Iio (2 ^ 32)) ids := by
  have hinv : Set.InvOn UInt64.toNat Nat.toUInt64 (Set.Iio (2 ^ 32)) ids :=
    ⟨fun n hn => toNat_toUInt64_of_id hn, fun a _ => UInt64.ofNat_toNat⟩
  exact hinv.bijOn (fun n hn => (toNat_toUInt64_of_id hn).trans_lt hn) fun a ha => ha

theorem pair_lt (ha : a ∈ ids) (hb : b ∈ ids) : Nat.pair a.toNat b.toNat < 2 ^ 64 :=
  pair_lt_sq_iff (n := 2 ^ 32).mpr ⟨ha, hb⟩

/-- Different pairs of ids have different words. -/
theorem injOn_pair : Set.InjOn (fun p : UInt64 × UInt64 => pair p.1 p.2) (ids ×ˢ ids) := by
  rintro ⟨a, b⟩ ⟨ha, hb⟩ ⟨c, d⟩ ⟨hc, hd⟩ heq
  have hnat := congrArg UInt64.toNat heq
  rw [(checkedPair_spec (pair_lt ha hb)).2, (checkedPair_spec (pair_lt hc hd)).2,
    Nat.pair_eq_pair, UInt64.toNat_inj, UInt64.toNat_inj] at hnat
  exact Prod.ext hnat.1 hnat.2

/-- Each word is the pairing of two ids: of the two naturals that its number is the pairing of. -/
theorem surjOn_pair :
    Set.SurjOn (fun p : UInt64 × UInt64 => pair p.1 p.2) (ids ×ˢ ids) Set.univ := by
  intro w _
  have hlt : Nat.pair w.toNat.unpair.1 w.toNat.unpair.2 < (2 ^ 32) ^ 2 := by
    rw [Nat.pair_unpair]
    exact w.toNat_lt
  obtain ⟨hfirst, hsecond⟩ := pair_lt_sq_iff.mp hlt
  have ha := bijOn_toUInt64.mapsTo hfirst
  have hb := bijOn_toUInt64.mapsTo hsecond
  refine ⟨(_, _), ⟨ha, hb⟩, UInt64.toNat_inj.mp ?_⟩
  show (pair w.toNat.unpair.1.toUInt64 w.toNat.unpair.2.toUInt64).toNat = w.toNat
  rw [(checkedPair_spec (pair_lt ha hb)).2, toNat_toUInt64_of_id hfirst, toNat_toUInt64_of_id hsecond,
    Nat.pair_unpair]

theorem bijOn_pair : Set.BijOn (fun p : UInt64 × UInt64 => pair p.1 p.2) (ids ×ˢ ids) Set.univ :=
  ⟨Set.mapsTo_univ _ _, injOn_pair, surjOn_pair⟩

theorem bijOn_word_two : Set.BijOn (fun p : Nat × Nat => CacheKey.word (Key.two p.1 p.2))
    (Set.Iio (2 ^ 32) ×ˢ Set.Iio (2 ^ 32)) Set.univ :=
  bijOn_pair.comp (bijOn_toUInt64.prodMap bijOn_toUInt64)

/-- **The pairing is a perfect hash of two ids.**  Nothing wraps when two ids are paired, and each word
is the hash of one pair.  So each word is the hash of one key of two ids, and of one conjunction and of
one disjunction of two nodes. -/
theorem pair_perfect :
    (∀ a ∈ ids, ∀ b ∈ ids, checkedPair a b = some (pair a b)) ∧
      Set.BijOn (fun p : UInt64 × UInt64 => pair p.1 p.2) (ids ×ˢ ids) Set.univ ∧
      Set.BijOn (fun p : Nat × Nat => CacheKey.word (Key.two p.1 p.2))
        (Set.Iio (2 ^ 32) ×ˢ Set.Iio (2 ^ 32)) Set.univ ∧
      ∀ op ∈ [Connective.and, .or],
        Set.BijOn (fun p : NodeId × NodeId => CacheKey.word (Query.apply op p.1 p.2).key)
          (Set.Iio (2 ^ 32) ×ˢ Set.Iio (2 ^ 32)) Set.univ := by
  refine ⟨fun _ ha _ hb => (checkedPair_spec (pair_lt ha hb)).1, bijOn_pair, bijOn_word_two, ?_⟩
  intro op hop
  obtain rfl | rfl : op = .and ∨ op = .or := by simpa using hop
  · exact bijOn_word_two
  · exact bijOn_word_two

/-- The last pair has the last word. -/
example : checkedPair 4294967295 4294967295 = some 18446744073709551615 := by decide

end Hash

end DecisionDiagram
