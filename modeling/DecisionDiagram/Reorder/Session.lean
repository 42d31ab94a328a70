/-
Sessions: the state in which the variable order is changed.

For the length of a session the nodes carry their variable in place of their level, so that a change
of the order leaves untouched every node that it does not have to change. Nodes are indexed by
variable. What is live is told by counts of references, which stop at a largest value; a node whose
count got there is never reclaimed. A matrix records which variables may meet in one diagram: two
variables that do not can change places without a look at any node.

* **`Session.start`** — relabels the nodes, drops the unreachable ones, counts the references;
* **`Session.finish`** — labels the nodes by level again and rebuilds the unique table;
* **`Manager.session`** — does some work in a session, which is closed however the work ends.
-/
import DecisionDiagram.Collect
import DecisionDiagram.LevelTable

namespace DecisionDiagram

/-- A manager during a change of the variable order. -/
structure Session where
  /-- The manager, whose nodes are labelled by variable and whose unique table is out of date. -/
  manager : Manager
  table : LevelTable
  /-- The count of references to each slot. -/
  refs : Array Nat
  /-- Row `v` holds the variables that may occur in a diagram together with `v`. -/
  interactions : Array BitSet
  /-- Exchanges of levels so far. -/
  swaps : Nat
  /-- Live nodes at the start. -/
  initialSize : Nat

/-- Work in a session. -/
abbrev Reordering := EStateM Failure Session

/-- Changes the label of every live node, by a table from old to new labels. -/
def Store.relabel? (labels : Array Nat) : List NodeId → Store → Option Store
  | [], s => some s
  | id :: rest, s =>
    match s.node? id with
    | none => none
    | some n =>
      match labels[n.level]? with
      | none => none
      | some label => relabel? labels rest (s.setNode id { n with level := label })

namespace Session

/-- Where counts of references stop. -/
def maxRefs : Nat := 255

/-- One more reference to a node. -/
def addRef (refs : Array Nat) (id : NodeId) : Array Nat :=
  refs.modify id fun n => if n = maxRefs then n else n + 1

/-- One reference to a node less. -/
def dropRef (refs : Array Nat) (id : NodeId) : Array Nat :=
  refs.modify id fun n => if n = maxRefs then n else n - 1

/-- Sets the count of references to a node. -/
def setRef (refs : Array Nat) (id : NodeId) (count : Nat) : Array Nat :=
  refs.setIfInBounds id count

/-- Marks what is below a node and collects the variables there. Below a node that has a mark, the
variables are those that its row holds already. The first number bounds the depth. -/
def trace (nodes : Array Node) (rows : Array BitSet) :
    Nat → NodeId → BitSet → BitSet → Option (BitSet × BitSet)
  | 0, _, _, _ => none
  | n + 1, id, marks, vars =>
    if id.isTerminal then some (marks, vars)
    else
      match nodes[id]? with
      | none => none
      | some node =>
        let vars := vars.insert node.level
        if marks.contains id then some (marks, vars.union (rows.getD node.level BitSet.empty))
        else
          match trace nodes rows n node.low (marks.insert id) vars with
          | none => none
          | some (marks, vars) => trace nodes rows n node.high marks vars

/-- Adds a set to the row of each of its members. -/
def joinRows (rows : Array BitSet) (vars : BitSet) : Array BitSet :=
  vars.toList.foldl (fun rows v => rows.modify v (·.union vars)) rows

/-- Traces the roots in turn; the variables found from a root all interact. -/
def interact (nodes : Array Node) (depth varNum : Nat) :
    List NodeId → BitSet → Array BitSet → Option (BitSet × Array BitSet)
  | [], marks, rows => some (marks, rows)
  | root :: rest, marks, rows =>
    match trace nodes rows depth root marks (BitSet.ofCapacity varNum) with
    | none => none
    | some (marks, vars) => interact nodes depth varNum rest marks (joinRows rows vars)

/-- Goes through a list of nodes: the unmarked ones are freed, the references of the others and
their number by variable are counted. -/
def census (marks : BitSet) :
    List NodeId → Store → Array Nat → Array Nat → Option (Store × Array Nat × Array Nat)
  | [], store, refs, counts => some (store, refs, counts)
  | id :: rest, store, refs, counts =>
    if marks.contains id then
      match store.node? id with
      | none => none
      | some n =>
        census marks rest store (addRef (addRef refs n.low) n.high) (counts.modify n.level (· + 1))
    else census marks rest (store.free id) refs counts

/-- Roots and terminals are never reclaimed. -/
def pin (refs : Array Nat) (roots : List NodeId) : Array Nat :=
  (NodeId.bot :: NodeId.top :: roots).foldl (fun refs id => setRef refs id maxRefs) refs

/-- Indexes a list of nodes by variable. -/
def index? (nodes : Array Node) : List NodeId → LevelTable → Option LevelTable
  | [], table => some table
  | id :: rest, table =>
    match table.insert? nodes id with
    | none => none
    | some table => index? nodes rest table

/-- Opens a session that keeps what is below `roots`. -/
def start (m : Manager) (roots : List NodeId) : Option Session := do
  let ids := m.store.liveIds
  let store ← m.store.relabel? m.order.varAt ids
  let (marks, interactions) ← interact store.nodes m.extent m.varNum roots store.marks.clear
    (Array.replicate m.varNum (BitSet.ofCapacity m.varNum))
  let (store, refs, counts) ← census marks ids store (Array.replicate store.capacity 0)
    (Array.replicate m.varNum 0)
  let table ← index? store.nodes store.liveIds (LevelTable.ofCounts counts.toList)
  return {
    manager := { m with store := store.clearMarks }
    table
    refs := pin refs roots
    interactions
    swaps := 0
    initialSize := store.usedCount }

/-- Closes a session. -/
def finish (s : Session) : Option (ReorderStats × Manager) := do
  let m := s.manager
  let store ← m.store.relabel? m.order.levelOf m.store.liveIds
  let (_, m) ← { m with store }.collect
  let m := { m with
    computed := m.computed.clear
    counters := { m.counters with reorders := m.counters.reorders + 1 } }
  return (⟨s.swaps, s.initialSize, m.store.usedCount⟩, m)

/-- Number of live nodes, terminals included. -/
def size (s : Session) : Nat := s.manager.store.usedCount

end Session

/-- Does some work in a session. An error of the work is reported after the session is closed; if it
is one that stands, it stands from then on. -/
def Manager.session (body : Reordering Unit) : Action ReorderStats := fun m =>
  match Session.start m m.rootNodes with
  | none => .error .fault m
  | some s =>
    match body s with
    | .error .fault s => .error .fault s.manager
    | .ok _ s =>
      match s.finish with
      | none => .error .fault s.manager
      | some (stats, m) => .ok stats m
    | .error (.error e) s =>
      match s.finish with
      | none => .error .fault s.manager
      | some (_, m) => .error (.error e) (if e.isSticky then { m with error := some e } else m)

end DecisionDiagram
