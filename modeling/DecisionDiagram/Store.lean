/-
The node store: an arena of node records, the allocator of its slots and a set of marks.

* **`ofCapacity?`** — a store that holds the two terminals;
* **`put`**, **`free`**, **`grow`** — the updates of records, which keep arena and allocator in
  step;
* **`liveIds`** — the nodes in the store, terminals excepted, in increasing order.
-/
import DecisionDiagram.FreeSlots
import DecisionDiagram.Node

namespace DecisionDiagram

/-- An arena of node records. -/
structure Store where
  /-- The record of each slot. -/
  nodes : Array Node
  /-- Which slots hold a node. -/
  slots : FreeSlots
  /-- A set of ids for the use of a traversal. -/
  marks : BitSet
deriving Inhabited

namespace Store

/-- Number of slots. -/
def capacity (s : Store) : Nat := s.slots.capacity

def freeCount (s : Store) : Nat := s.slots.free

def usedCount (s : Store) : Nat := s.slots.usedCount

/-- Whether the slot `id` holds a node. -/
def isLive (s : Store) (id : NodeId) : Bool := s.slots.isUsed id

/-- The record in slot `id`; none past the arena. -/
def node? (s : Store) (id : NodeId) : Option Node := s.nodes[id]?

/-- Every node but the terminals, in increasing order. -/
def liveIds (s : Store) : List NodeId := (FreeSlots.span 2 s.nodes.size).filter s.isLive

theorem mem_liveIds {s : Store} {id : NodeId} :
    id ∈ s.liveIds ↔ 2 ≤ id ∧ id < s.nodes.size ∧ s.isLive id = true := by
  simp only [liveIds, FreeSlots.span, List.mem_filter, List.mem_range'_1]
  lia

theorem liveIds_pairwise (s : Store) : s.liveIds.Pairwise (· < ·) :=
  List.Pairwise.filter _ (List.pairwise_lt_range' _ (by decide))

/-- Writes a record into slot `id`. -/
def setNode (s : Store) (id : NodeId) (n : Node) : Store :=
  let ⟨nodes, slots, marks⟩ := s
  ⟨nodes.setIfInBounds id n, slots, marks⟩

@[simp] theorem isLive_setNode (s : Store) (id : NodeId) (n : Node) (j : NodeId) :
    (s.setNode id n).isLive j = s.isLive j := rfl

theorem node?_setNode {s : Store} {id : NodeId} (h : id < s.nodes.size) (n : Node) (j : NodeId) :
    (s.setNode id n).node? j = if j = id then some n else s.node? j := by
  simp only [node?, setNode, Array.getElem?_setIfInBounds]
  by_cases hj : j = id
  · simp [hj, h]
  · simp [hj, Ne.symm hj]

/-- Moves both terminals to `level`. -/
def setTerminalLevel (s : Store) (level : Level) : Store :=
  let ⟨nodes, slots, marks⟩ := s
  ⟨(nodes.modify NodeId.bot ({ · with level })).modify NodeId.top ({ · with level }), slots, marks⟩

/-- A store of `capacity` slots in which the terminals, at level `level`, are the only nodes. There
has to be room for them. -/
def ofCapacity? (capacity : Nat) (level : Level) : Option Store := do
  let (_, slots) ← (FreeSlots.ofCapacity capacity).claim? NodeId.bot
  let (_, slots) ← slots.claim? NodeId.top
  let nodes := (Array.replicate capacity Node.vacant).setIfInBounds NodeId.bot
    (Node.terminal level NodeId.bot)
  return {
    nodes := nodes.setIfInBounds NodeId.top (Node.terminal level NodeId.top)
    slots
    marks := BitSet.ofCapacity capacity }

/-- Writes a record into the free slot `id`, which is in use from then on. -/
def put (s : Store) (id : NodeId) (n : Node) : Store :=
  let ⟨nodes, slots, marks⟩ := s
  ⟨nodes.setIfInBounds id n, slots.take id, marks⟩

theorem node?_put {s : Store} {id : NodeId} (h : id < s.nodes.size) (n : Node) (j : NodeId) :
    (s.put id n).node? j = if j = id then some n else s.node? j := node?_setNode h n j

theorem isLive_put {s : Store} (hs : s.slots.capacity ≤ s.slots.occupied.capacity) {id : NodeId}
    (h : id < s.capacity) (n : Node) (j : NodeId) :
    (s.put id n).isLive j = (j == id || s.isLive j) := FreeSlots.isUsed_take hs h j

/-- Writes a record into the lowest free slot. -/
def alloc? (s : Store) (n : Node) : Option (NodeId × Store) :=
  s.slots.next?.map fun id => (id, s.put id n)

/-- Empties slot `id`. -/
def free (s : Store) (id : NodeId) : Store :=
  let ⟨nodes, slots, marks⟩ := s
  ⟨nodes.setIfInBounds id Node.vacant, slots.release id, marks⟩

theorem node?_free {s : Store} {id j : NodeId} (h : j ≠ id) : (s.free id).node? j = s.node? j := by
  simp [node?, free, Ne.symm h]

@[simp] theorem isLive_free (s : Store) (id j : NodeId) :
    (s.free id).isLive j = (j != id && s.isLive j) := s.slots.isUsed_release id j

/-- Empties slot `id`; has no answer past the arena. -/
def free? (s : Store) (id : NodeId) : Option Store :=
  if id < s.nodes.size then some (s.free id) else none

/-- Extends the arena to `capacity` slots. -/
def grow (s : Store) (capacity : Nat) : Store :=
  if s.nodes.size < capacity then
    let ⟨nodes, slots, marks⟩ := s
    ⟨nodes ++ Array.replicate (capacity - nodes.size) Node.vacant, slots.grow capacity,
      marks.reserve capacity⟩
  else s

theorem node?_grow {s : Store} {id : NodeId} (h : id < s.nodes.size) (capacity : Nat) :
    (s.grow capacity).node? id = s.node? id := by
  unfold grow
  split
  · simp [node?, Array.getElem?_append, h]
  · rfl

def mark (s : Store) (id : NodeId) : Store := { s with marks := s.marks.insert id }

def isMarked (s : Store) (id : NodeId) : Bool := s.marks.contains id

def clearMarks (s : Store) : Store := { s with marks := s.marks.clear }

end Store

end DecisionDiagram
