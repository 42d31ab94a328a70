/-
The allocator of node slots: which of the first `capacity` ids are in use.

The lowest free slot is always handed out first, which makes node ids a function of the history
of calls. Slots are grouped into buckets, one word of the record of used slots for each, and the
slots of the last bucket that lie past the capacity are recorded as used, so that they are not handed
out. A second set flags the buckets without a free slot, so that a search passes over them.

* **`next?`** — the slot that the next allocation takes;
* **`take`**, **`claim?`**, **`release?`**, **`grow`** — the updates. Claiming past the capacity and
  releasing past the storage have no answer.
-/
import DecisionDiagram.BitSet
import DecisionDiagram.Bitmap

namespace DecisionDiagram

/-- The slots in use among the first `capacity`. -/
structure FreeSlots where
  /-- The slots in use, and the padding of the last bucket. -/
  occupied : Bitmap
  /-- The buckets in which every slot is in use. -/
  full : BitSet
  capacity : Nat
  /-- Number of free slots. -/
  free : Nat
  /-- Every bucket below this one is full. -/
  hint : Nat
deriving DecidableEq, Inhabited

namespace FreeSlots

/-- Number of slots in use. -/
def usedCount (s : FreeSlots) : Nat := s.capacity - s.free

/-- Whether `id` is a slot in use. -/
def isUsed (s : FreeSlots) (id : Nat) : Bool := id < s.capacity && s.occupied.contains id

/-- The bucket of a slot. -/
def bucketOf (id : Nat) : Nat := id / Bitmap.width

/-- The indices from `lo` up to, but not including, `hi`. -/
def span (lo hi : Nat) : List Nat := List.range' lo (hi - lo)

/-- Flags a bucket, if every slot of it is in use. -/
def flag (occupied : Bitmap) (full : BitSet) (bucket : Nat) : BitSet :=
  if occupied.isFull bucket then full.insert bucket else full

/-- Records the slot `id` as used. -/
def occupy (s : FreeSlots) (id : Nat) : FreeSlots :=
  let ⟨occupied, full, capacity, free, hint⟩ := s
  let occupied := occupied.set id
  ⟨occupied, flag occupied full (bucketOf id), capacity, free - 1, hint⟩

/-- Records the slot `id` as not used. -/
def vacate (s : FreeSlots) (id : Nat) : FreeSlots :=
  let ⟨occupied, full, capacity, free, hint⟩ := s
  ⟨occupied.clear id, full.remove (bucketOf id), capacity, free, hint⟩

/-- Extends the record to `capacity` many slots. The padding so far is not used from then on, and the
last bucket is padded anew. -/
def extend (s : FreeSlots) (capacity : Nat) : FreeSlots :=
  let ⟨occupied, full, old, free, hint⟩ :=
    (span s.capacity (min s.occupied.capacity capacity)).foldl vacate s
  let buckets := Bitmap.wordsFor capacity
  let occupied := (span capacity (buckets * Bitmap.width)).foldl Bitmap.set (occupied.extend buckets)
  ⟨occupied, flag occupied (full.reserve buckets) (buckets - 1), capacity, free + (capacity - old),
    min hint (bucketOf old)⟩

/-- Extends the slots to `capacity` many; the new ones are free. A smaller capacity changes
nothing. -/
def grow (s : FreeSlots) (capacity : Nat) : FreeSlots :=
  if capacity ≤ s.capacity then s else s.extend capacity

/-- `capacity` free slots. -/
def ofCapacity (capacity : Nat) : FreeSlots := grow ⟨Bitmap.empty, BitSet.empty, 0, 0, 0⟩ capacity

/-- The lowest free slot: the first of the first bucket without a flag. -/
def next? (s : FreeSlots) : Option Nat :=
  if s.free = 0 then none
  else (s.full.firstClearFrom s.hint s.occupied.words.size).bind s.occupied.lowestClear?

/-- The slot that is offered is recorded as free. -/
theorem contains_next? {s : FreeSlots} {id : Nat} (h : s.next? = some id) :
    s.occupied.contains id = false := by
  unfold next? at h
  split at h
  · cases h
  · obtain ⟨b, -, hb⟩ := Option.bind_eq_some_iff.mp h
    exact (Bitmap.lowestClear?_eq_some hb).2.1

theorem isUsed_next? {s : FreeSlots} {id : Nat} (h : s.next? = some id) : s.isUsed id = false := by
  simp [isUsed, contains_next? h]

/-- Takes the slot that `next?` offers. -/
def take (s : FreeSlots) (id : Nat) : FreeSlots := { s.occupy id with hint := bucketOf id }

@[simp] theorem capacity_take (s : FreeSlots) (id : Nat) : (s.take id).capacity = s.capacity := rfl

/-- Taking a slot puts it in use and leaves the others as they are. -/
theorem isUsed_take {s : FreeSlots} (hs : s.capacity ≤ s.occupied.capacity) {id : Nat}
    (h : id < s.capacity) (j : Nat) : (s.take id).isUsed j = (j == id || s.isUsed j) := by
  show (decide (j < s.capacity) && (s.occupied.set id).contains j) = _
  rw [Bitmap.contains_set (Nat.lt_of_lt_of_le h hs)]
  by_cases hj : j = id
  · simp [hj, h]
  · simp [isUsed, beq_eq_false_iff_ne.2 hj]

/-- Takes the lowest free slot. -/
def alloc? (s : FreeSlots) : Option (Nat × FreeSlots) :=
  s.next?.map fun id => (id, s.take id)

/-- Takes the slot `id` unless it is in use already, and tells whether it was free. Has no answer
for an id past the capacity. -/
def claim? (s : FreeSlots) (id : Nat) : Option (Bool × FreeSlots) :=
  if id < s.capacity then
    if s.occupied.contains id then some (false, s) else some (true, s.occupy id)
  else none

/-- Frees the slot `id`; freeing a free slot changes nothing. -/
def release (s : FreeSlots) (id : Nat) : FreeSlots :=
  if s.occupied.contains id then
    let ⟨occupied, full, capacity, free, hint⟩ := s.vacate id
    ⟨occupied, full, capacity, free + 1, min hint (bucketOf id)⟩
  else s

@[simp] theorem capacity_release (s : FreeSlots) (id : Nat) :
    (s.release id).capacity = s.capacity := by
  unfold release; split <;> rfl

/-- Freeing a slot takes it off the record, and leaves the others as they are. -/
@[simp] theorem contains_release (s : FreeSlots) (id j : Nat) :
    (s.release id).occupied.contains j = (j != id && s.occupied.contains j) := by
  unfold release
  split
  · exact Bitmap.contains_clear _ _ _
  · rename_i h
    by_cases hj : j = id <;> simp [hj, h]

@[simp] theorem isUsed_release (s : FreeSlots) (id j : Nat) :
    (s.release id).isUsed j = (j != id && s.isUsed j) := by
  simp [isUsed, Bool.and_left_comm]

/-- Frees the slot `id`; has no answer for an id past the storage. -/
def release? (s : FreeSlots) (id : Nat) : Option FreeSlots :=
  if id < s.occupied.capacity then some (s.release id) else none

end FreeSlots

end DecisionDiagram
