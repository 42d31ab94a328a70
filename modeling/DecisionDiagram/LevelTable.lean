/-
A unique table that is divided by variable.

Each variable has a stretch of the slots of its own, its region, so that the nodes of one variable
can be enumerated and replaced without a look at the others. The first field of a node record
holds the variable while this table is in use.

* **`find`** — the search, in the region of the record's variable;
* **`insert?`** — insertion; a region that would be more than half full has the whole table laid out
  anew first (`relayout?`);
* **`take?`** — empties one region and answers its nodes, in the order of their slots.
-/
import DecisionDiagram.Probe

namespace DecisionDiagram

/-- The stretch of slots that belongs to one variable, and the number of nodes in it. -/
structure Region where
  start : Nat
  size : Nat
  count : Nat
deriving Inhabited

/-- An index of nodes by their records, one region per variable. -/
structure LevelTable where
  slots : Array Nat
  regions : Array Region
deriving Inhabited

namespace LevelTable

/-- Consecutive empty regions from `start` on, each with room for the given number of nodes. -/
def regionsFrom : Nat → List Nat → List Region
  | _, [] => []
  | start, count :: rest => ⟨start, slotsFor count, 0⟩ :: regionsFrom (start + slotsFor count) rest

/-- An empty table with room for `counts[v]` nodes of each variable `v`. -/
def ofCounts (counts : List Nat) : LevelTable :=
  { slots := Array.replicate ((counts.map slotsFor).foldr (· + ·) 0) 0
    regions := (regionsFrom 0 counts).toArray }

/-- Number of nodes of a variable. -/
def count? (t : LevelTable) (var : Var) : Option Nat := t.regions[var]?.map (·.count)

/-- Looks for a record in the region of its variable. -/
def find (t : LevelTable) (nodes : Array Node) (key : Node) : Option Probe :=
  match t.regions[key.level]? with
  | none => none
  | some region => probe t.slots nodes key region.start region.size

/-- Puts a node of the variable `var` into the vacancy `slot`. -/
def insertAt (t : LevelTable) (slot : Nat) (var : Var) (id : NodeId) : LevelTable :=
  let ⟨slots, regions⟩ := t
  ⟨slots.setIfInBounds slot id, regions.modify var fun r => { r with count := r.count + 1 }⟩

/-- The variable of node `id` and its vacancy. The node must be in the arena and not in the
table. -/
def vacancy? (t : LevelTable) (nodes : Array Node) (id : NodeId) : Option (Var × Nat) :=
  match nodes[id]? with
  | none => none
  | some node =>
    match t.find nodes node with
    | some (.vacant slot) => some (node.level, slot)
    | _ => none

/-- Inserts the node `id` into its region as it stands. -/
def place? (t : LevelTable) (nodes : Array Node) (id : NodeId) : Option LevelTable :=
  (t.vacancy? nodes id).map fun (var, slot) => t.insertAt slot var id

/-- The nodes of a region, in the order of their slots. -/
def members (t : LevelTable) (region : Region) : List NodeId :=
  ((t.slots.extract region.start (region.start + region.size)).toList).filter (· ≠ 0)

/-- Empties the region of `var`. -/
def clear (t : LevelTable) (var : Var) (region : Region) : LevelTable :=
  let ⟨slots, regions⟩ := t
  ⟨(List.range' region.start region.size).foldl (·.setIfInBounds · 0) slots,
    regions.modify var fun r => { r with count := 0 }⟩

/-- Empties the region of `var` and answers the nodes that it held, in the order of their slots. -/
def take? (t : LevelTable) (var : Var) : Option (List NodeId × LevelTable) :=
  t.regions[var]?.map fun region => (t.members region, t.clear var region)

/-- Lays the table out anew: each region has room for the nodes in it, the one of `var` for twice as
many and two more. The nodes are put back one by one, by `insert`. -/
def relayoutBy? (t : LevelTable) (insert : LevelTable → NodeId → Option LevelTable) (var : Var) :
    Option LevelTable :=
  let held := t.regions.toList.map t.members
  let counts := (held.map List.length).modify var fun n => (n + 1) * 2
  held.flatten.foldlM insert (ofCounts counts)

/-- Lays the table out anew, where each node is put back into its region as it stands. -/
def relayout? (t : LevelTable) (nodes : Array Node) (var : Var) : Option LevelTable :=
  t.relayoutBy? (fun t id => t.place? nodes id) var

/-- Whether the region of `var` is so full that one more node takes it past the half. -/
def isCrowded (t : LevelTable) (var : Var) : Bool :=
  match t.regions[var]? with
  | none => false
  | some region => region.size < (region.count + 1) * 2

/-- Makes room in the region of `var` for one more node. -/
def makeRoom? (t : LevelTable) (nodes : Array Node) (var : Var) : Option LevelTable :=
  if t.isCrowded var then t.relayout? nodes var else some t

/-- Inserts the node `id`, which must be in the arena and not in the table. -/
def insert? (t : LevelTable) (nodes : Array Node) (id : NodeId) : Option LevelTable := do
  let node ← nodes[id]?
  let t ← t.makeRoom? nodes node.level
  t.place? nodes id

/-- Inserts the node `id`, where a new layout puts the nodes back by such insertions again. Layouts may
come up within one another `depth` times. -/
def insertWithin? (nodes : Array Node) : Nat → LevelTable → NodeId → Option LevelTable
  | 0, t, id => do
    let node ← nodes[id]?
    if t.isCrowded node.level then none else t.place? nodes id
  | depth + 1, t, id => do
    let node ← nodes[id]?
    let t ← if t.isCrowded node.level then t.relayoutBy? (insertWithin? nodes depth) node.level
      else some t
    t.place? nodes id

end LevelTable

end DecisionDiagram
