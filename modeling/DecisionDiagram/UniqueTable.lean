/-
The unique table: from the record of a node to the node.

* **`find`** — the search;
* **`insertAt`**, **`insert?`** — the node takes the vacancy that the search found. A record that is
  in the table already cannot be inserted again.
-/
import DecisionDiagram.Probe

namespace DecisionDiagram

/-- An index of nodes by their records. -/
structure UniqueTable where
  slots : Array Nat
  /-- Number of insertions since the table was emptied. -/
  size : Nat
deriving Inhabited

namespace UniqueTable

/-- An empty table with room for `capacity` nodes. -/
def ofCapacity (capacity : Nat) : UniqueTable := ⟨Array.replicate (slotsFor capacity) 0, 0⟩

/-- Drops every node. The slots stay in use if there are as many as `capacity` nodes need. -/
def reset (t : UniqueTable) (capacity : Nat) : UniqueTable :=
  if slotsFor capacity = t.slots.size then ⟨t.slots.map fun _ => 0, 0⟩ else ofCapacity capacity

theorem reset_eq (t : UniqueTable) (capacity : Nat) : t.reset capacity = ofCapacity capacity := by
  unfold reset
  split
  · rename_i hsize
    rw [ofCapacity, hsize, Array.map_const']
  · rfl

def isEmpty (t : UniqueTable) : Bool := t.size == 0

/-- Looks for a record. -/
def find (t : UniqueTable) (nodes : Array Node) (key : Node) : Option Probe :=
  probe t.slots nodes key 0 t.slots.size

/-- Puts a node into the vacancy `slot`. -/
def insertAt (t : UniqueTable) (slot : Nat) (id : NodeId) : UniqueTable :=
  let ⟨slots, size⟩ := t
  ⟨slots.setIfInBounds slot id, size + 1⟩

/-- The vacancy for node `id`, which must be in the arena and not in the table. -/
def vacancy? (t : UniqueTable) (nodes : Array Node) (id : NodeId) : Option Nat :=
  match nodes[id]? with
  | none => none
  | some node =>
    match t.find nodes node with
    | some (.vacant slot) => some slot
    | _ => none

/-- Inserts the node `id`, which must be in the arena and not in the table. -/
def insert? (t : UniqueTable) (nodes : Array Node) (id : NodeId) : Option UniqueTable :=
  (t.vacancy? nodes id).map fun slot => t.insertAt slot id

end UniqueTable

end DecisionDiagram
