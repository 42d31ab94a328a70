/-
A direct-mapped cache: each key has one slot, and an insertion overwrites what the slot held.

A lost entry costs a recomputation and no more. Look-ups are counted as hits and misses; a miss on
a slot that holds another key is also a fault.

* **`find?`** — the value that the cache holds for a key, the view through which the updates are
  described (`find?_insert`, `find?_retain`, `find?_clear`);
* **`record`** — the counters after a look-up;
* **`insert`**, **`retain`**, **`clear`**, **`resize`** — the updates.
-/
import DecisionDiagram.Hash

namespace DecisionDiagram

/-- A type of keys with a hash. -/
class CacheKey (κ : Type) where
  /-- The hash of a key. -/
  word : κ → UInt64

/-- A tuple of one to four numbers. -/
inductive Key
  | one (a : Nat)
  | two (a b : Nat)
  | three (a b c : Nat)
  | four (a b c d : Nat)
deriving DecidableEq, Repr

/-- A single number is its own hash, longer tuples are paired. -/
def Key.word : Key → UInt64
  | one a => a.toUInt64
  | two a b => Hash.pair a.toUInt64 b.toUInt64
  | three a b c => Hash.pair3 a.toUInt64 b.toUInt64 c.toUInt64
  | four a b c d => Hash.pair4 a.toUInt64 b.toUInt64 c.toUInt64 d.toUInt64

instance : CacheKey Key := ⟨Key.word⟩

/-- A direct-mapped cache from `κ` to `ν`. -/
structure Cache (κ ν : Type) where
  entries : Array (Option (κ × ν))
  hits : Nat
  misses : Nat
  /-- Misses on a slot that held another key. -/
  faults : Nat

namespace Cache

variable {κ ν : Type}

instance : Inhabited (Cache κ ν) := ⟨⟨#[], 0, 0, 0⟩⟩

/-- An empty cache of `2 ^ bits` slots. -/
def ofBits (bits : Nat) : Cache κ ν := ⟨Array.replicate (1 <<< bits) none, 0, 0, 0⟩

/-- The largest number of bits that a cache admits. -/
def maxBits : Nat := 31

/-- An empty cache of `2 ^ bits` slots, if that is not too many. -/
def ofBits? (bits : Nat) : Option (Cache κ ν) := if bits ≤ maxBits then some (ofBits bits) else none

/-- Number of slots. -/
def capacity (c : Cache κ ν) : Nat := c.entries.size

/-- Drops every entry. -/
def clear (c : Cache κ ν) : Cache κ ν :=
  { c with entries := Array.replicate c.entries.size none }

/-- Drops the entries that `keep` does not hold for. -/
def retain (c : Cache κ ν) (keep : κ → ν → Bool) : Cache κ ν :=
  { c with entries := c.entries.map fun entry => entry.filter fun (k, v) => keep k v }

/-- Replaces the slots by `2 ^ bits` empty ones. -/
def resize (c : Cache κ ν) (bits : Nat) : Cache κ ν :=
  { c with entries := Array.replicate (1 <<< bits) none }

/-- Replaces the slots by `2 ^ bits` empty ones, if that is not too many. -/
def resize? (c : Cache κ ν) (bits : Nat) : Option (Cache κ ν) :=
  if bits ≤ maxBits then some (c.resize bits) else none

@[simp] theorem capacity_ofBits (bits : Nat) : (ofBits bits : Cache κ ν).capacity = 1 <<< bits := by
  simp [ofBits, capacity]

@[simp] theorem capacity_retain (c : Cache κ ν) (keep : κ → ν → Bool) :
    (c.retain keep).capacity = c.capacity := by
  simp [retain, capacity]

@[simp] theorem capacity_clear (c : Cache κ ν) : c.clear.capacity = c.capacity := by
  simp [clear, capacity]

@[simp] theorem capacity_resize (c : Cache κ ν) (bits : Nat) :
    (c.resize bits).capacity = 1 <<< bits := by
  simp [resize, capacity]

variable [CacheKey κ] [DecidableEq κ]

/-- The slot of a key. -/
def slot (c : Cache κ ν) (k : κ) : Nat := (CacheKey.word k % c.entries.size.toUInt64).toNat

/-- The value held for a key. -/
def find? (c : Cache κ ν) (k : κ) : Option ν :=
  match c.entries[c.slot k]? with
  | some (some (k', v)) => if k' = k then some v else none
  | _ => none

/-- Counts a look-up of `k`. -/
def record (c : Cache κ ν) (k : κ) : Cache κ ν :=
  match c.entries[c.slot k]? with
  | some (some (k', _)) =>
    if k' = k then { c with hits := c.hits + 1 }
    else { c with misses := c.misses + 1, faults := c.faults + 1 }
  | _ => { c with misses := c.misses + 1 }

/-- Looks a key up and counts the look-up. -/
def lookup (c : Cache κ ν) (k : κ) : Option ν × Cache κ ν := (c.find? k, c.record k)

/-- Enters a value for a key, in place of what the key's slot held. -/
def insert (c : Cache κ ν) (k : κ) (v : ν) : Cache κ ν :=
  let slot := c.slot k
  let ⟨entries, hits, misses, faults⟩ := c
  ⟨entries.setIfInBounds slot (some (k, v)), hits, misses, faults⟩

/-! ### Slots -/

@[simp] theorem capacity_record (c : Cache κ ν) (k : κ) : (c.record k).capacity = c.capacity := by
  unfold record
  repeat' split
  all_goals rfl

omit [DecidableEq κ] in
@[simp] theorem capacity_insert (c : Cache κ ν) (k : κ) (v : ν) :
    (c.insert k v).capacity = c.capacity := by
  simp [insert, capacity]

omit [DecidableEq κ] in
/-- The slot of a key is the remainder of its hash, if the number of slots is a word. -/
theorem slot_eq {c : Cache κ ν} (k : κ) (small : c.capacity < UInt64.size) :
    c.slot k = (CacheKey.word k).toNat % c.capacity := by
  have h : c.entries.size.toUInt64.toNat = c.capacity := by
    simpa [capacity, Nat.toUInt64, UInt64.toNat_ofNat] using Nat.mod_eq_of_lt small
  rw [slot, UInt64.toNat_mod, h]

omit [DecidableEq κ] in
theorem slot_lt {c : Cache κ ν} (k : κ) (pos : 0 < c.capacity) (small : c.capacity < UInt64.size) :
    c.slot k < c.capacity := by
  rw [slot_eq k small]
  exact Nat.mod_lt _ pos

omit [DecidableEq κ] in
@[simp] theorem slot_insert (c : Cache κ ν) (k j : κ) (v : ν) :
    (c.insert k v).slot j = c.slot j := by
  simp [insert, slot]

/-! ### Look-ups after an update -/

/-- An insertion is seen at its own key and forgets the other keys with the same slot. -/
theorem find?_insert {c : Cache κ ν} (k j : κ) (v : ν) (pos : 0 < c.capacity)
    (small : c.capacity < UInt64.size) :
    (c.insert k v).find? j =
      if k = j then some v else if c.slot j = c.slot k then none else c.find? j := by
  have hk := slot_lt k pos small
  simp only [capacity] at hk
  simp only [find?, slot_insert]
  simp only [insert, Array.getElem?_setIfInBounds]
  by_cases hs : c.slot j = c.slot k
  · by_cases hj : k = j <;> simp [hs, hk, hj]
  · have hj : k ≠ j := fun h => hs (h ▸ rfl)
    simp [hs, hj, Ne.symm hs]

@[simp] theorem find?_ofBits (bits : Nat) (k : κ) : (ofBits bits : Cache κ ν).find? k = none := by
  simp only [find?, ofBits, slot, Array.getElem?_replicate, Array.size_replicate]
  split <;> simp_all

@[simp] theorem find?_clear (c : Cache κ ν) (k : κ) : c.clear.find? k = none := by
  simp only [find?, clear, slot, Array.getElem?_replicate, Array.size_replicate]
  split <;> simp_all

@[simp] theorem find?_resize (c : Cache κ ν) (bits : Nat) (k : κ) :
    (c.resize bits).find? k = none := by
  simp only [find?, resize, slot, Array.getElem?_replicate, Array.size_replicate]
  split <;> simp_all

/-- An entry is held after a selection if it was held before and is selected. -/
theorem find?_retain (c : Cache κ ν) (keep : κ → ν → Bool) (k : κ) :
    (c.retain keep).find? k = (c.find? k).filter (keep k) := by
  simp only [find?, retain, slot, Array.getElem?_map, Array.size_map]
  rcases c.entries[(CacheKey.word k % c.entries.size.toUInt64).toNat]? with _ | _ | ⟨k', v⟩
  · rfl
  · rfl
  · by_cases hk : k' = k
    · subst hk
      by_cases hv : keep k' v = true <;> simp [Option.filter, hv]
    · by_cases hv : keep k' v = true <;> simp [Option.filter, hv, hk]

@[simp] theorem find?_record (c : Cache κ ν) (k j : κ) : (c.record k).find? j = c.find? j := by
  unfold record
  repeat' split
  all_goals rfl

/-! ### Counters after a look-up -/

/-- A look-up that finds a value is a hit. -/
theorem hits_record (c : Cache κ ν) (k : κ) :
    (c.record k).hits = c.hits + if (c.find? k).isSome then 1 else 0 := by
  rw [record, find?]
  rcases c.entries[c.slot k]? with _ | _ | ⟨j, v⟩
  · rfl
  · rfl
  · by_cases h : j = k <;> simp [h]

/-- A look-up that finds none is a miss. -/
theorem misses_record (c : Cache κ ν) (k : κ) :
    (c.record k).misses = c.misses + if (c.find? k).isNone then 1 else 0 := by
  rw [record, find?]
  rcases c.entries[c.slot k]? with _ | _ | ⟨j, v⟩
  · rfl
  · rfl
  · by_cases h : j = k <;> simp [h]

/-- A fault is a miss. -/
theorem faults_record_le (c : Cache κ ν) (k : κ) :
    (c.record k).faults ≤ c.faults + if (c.find? k).isNone then 1 else 0 := by
  rw [record, find?]
  rcases c.entries[c.slot k]? with _ | _ | ⟨j, v⟩
  · simp
  · simp
  · by_cases h : j = k <;> simp [h]

end Cache

end DecisionDiagram
