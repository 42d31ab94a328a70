/-
How far a growth step goes, and when there is none.

The sums are taken on words.  A sum that wraps is smaller than the size that it adds to, so it would
shrink the store and makes no step.  Besides the two ceilings it is this, and a fraction of the size
that comes to less than one slot, that keeps a store from growing.

* `nextCapacity_eq_some` — a step enlarges the store, and respects every cap;
* `nextCapacity_eq_none_iff` — the cases in which there is no step.
-/
import Mathlib.Data.UInt
import DecisionDiagram.Growth

namespace DecisionDiagram

/-! ### Words -/

section Words

variable {a b c cap : UInt64}

/-- A sum of words is larger than its first term if it adds something and does not wrap. -/
theorem word_lt_add_iff : a < a + b ↔ b ≠ 0 ∧ a.toNat + b.toNat < 2 ^ 64 := by
  have ha := a.toNat_lt
  have hb := b.toNat_lt
  rw [UInt64.lt_iff_toNat_lt, UInt64.toNat_add, Ne, ← UInt64.toNat_inj, UInt64.toNat_zero]
  omega

theorem word_lt_min_iff : a < min b c ↔ a < b ∧ a < c := by
  rw [UInt64.lt_iff_toNat_lt, UInt64.toNat_min, Nat.lt_min, ← UInt64.lt_iff_toNat_lt,
    ← UInt64.lt_iff_toNat_lt]

/-- A cap of zero is no cap. -/
theorem word_lt_capped_iff :
    (a < if cap > 0 then min b c else b) ↔ a < b ∧ (0 < cap → a < c) := by
  split
  · rename_i h
    rw [word_lt_min_iff]
    exact and_congr_right fun _ => ⟨fun hc _ => hc, fun hc => hc h⟩
  · rename_i h
    exact ⟨fun hb => ⟨hb, fun hcap => absurd hcap h⟩, fun hb => hb.1⟩

theorem capped_le (b c cap : UInt64) : (if cap > 0 then min b c else b) ≤ b := by
  split
  · exact Std.min_le_left
  · exact UInt64.le_refl b

theorem capped_le_cap (b : UInt64) (h : 0 < cap) : (if cap > 0 then min b c else b) ≤ c := by
  rw [if_pos h]
  exact Std.min_le_right

end Words

/-! ### Growth steps -/

section Steps

variable {current maxIncrease maxNodes n : UInt64} {factor : Float}

/-- What a step adds to the size before any cap holds it back: a fraction of the size, or as much
again. -/
def share (current : UInt64) (factor : Float) : UInt64 :=
  if factor > 0.0 then (current.toFloat * factor).toUInt64 else current

theorem wanted_eq (current : UInt64) (factor : Float) :
    (if factor > 0.0 then current + (current.toFloat * factor).toUInt64 else current * 2) =
      current + share current factor := by
  rw [share]
  split
  · rfl
  · rw [UInt64.mul_two]

/-- A growth step leads to more slots, and to no more than ids can name or a cap admits. -/
theorem nextCapacity_eq_some (h : nextCapacity current factor maxIncrease maxNodes = some n) :
    current < n ∧ n ≤ maxCapacity ∧ (0 < maxNodes → n ≤ maxNodes) ∧
      (0 < maxIncrease → n.toNat ≤ current.toNat + maxIncrease.toNat) := by
  unfold nextCapacity at h
  extract_lets wanted stepped capped next at h
  split at h
  · rename_i hgt
    obtain rfl := Option.some.inj h
    have hcapped : next ≤ capped := Std.min_le_left
    refine ⟨hgt, Std.min_le_right, fun hcap => ?_, fun hcap => ?_⟩
    · exact UInt64.le_trans hcapped (capped_le_cap stepped hcap)
    · have hstep : next ≤ current + maxIncrease :=
        UInt64.le_trans hcapped (UInt64.le_trans (capped_le _ _ _) (capped_le_cap wanted hcap))
      refine Nat.le_trans (UInt64.le_iff_toNat_le.mp hstep) ?_
      rw [UInt64.toNat_add]
      exact Nat.mod_le _ _
  · cases h

/-- There is a growth step if the size is below all that the next one is the least of. -/
theorem nextCapacity_ne_none_iff :
    nextCapacity current factor maxIncrease maxNodes ≠ none ↔
      ((current < current + share current factor ∧ (0 < maxIncrease → current < current + maxIncrease)) ∧
        (0 < maxNodes → current < maxNodes)) ∧ current < maxCapacity := by
  -- Every cap takes a minimum, and the size is below that if it is below both.
  rw [nextCapacity, wanted_eq, ← word_lt_capped_iff, ← word_lt_capped_iff, ← word_lt_min_iff]
  exact Option.isSome_iff_ne_none.symm.trans Option.isSome_ite

/-- There is no growth step at a ceiling, and neither if the share of the size comes to nothing or one
of the two sums wraps. -/
theorem nextCapacity_eq_none_iff :
    nextCapacity current factor maxIncrease maxNodes = none ↔
      maxCapacity ≤ current ∨ (0 < maxNodes ∧ maxNodes ≤ current) ∨ share current factor = 0 ∨
        2 ^ 64 ≤ current.toNat + (share current factor).toNat ∨
        (0 < maxIncrease ∧ 2 ^ 64 ≤ current.toNat + maxIncrease.toNat) := by
  rw [← not_iff_not, ← Ne, nextCapacity_ne_none_iff, word_lt_add_iff, word_lt_add_iff]
  simp only [not_or, not_and, UInt64.not_le, Nat.not_le]
  constructor
  · rintro ⟨⟨⟨⟨hshare, hsum⟩, hincrease⟩, hnodes⟩, hcapacity⟩
    exact ⟨hcapacity, hnodes, hshare, hsum, fun hpos => (hincrease hpos).2⟩
  · rintro ⟨hcapacity, hnodes, hshare, hsum, hincrease⟩
    exact ⟨⟨⟨⟨hshare, hsum⟩, fun hpos => ⟨(UInt64.ne_of_lt hpos).symm, hincrease hpos⟩⟩, hnodes⟩,
      hcapacity⟩

/-- A tenth of four slots is not one slot, and a cap on the increase may make the sum wrap.  Such a
store stays as small as it is, though nothing holds it back. -/
example : nextCapacity 4 0.1 1 0 = none ∧ nextCapacity 8 0.0 18446744073709551615 0 = none := by decide

end Steps

end DecisionDiagram
