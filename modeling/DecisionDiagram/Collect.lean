/-
Garbage collection and growth of the store.

A collection marks what can be reached from the roots, empties the other slots and indexes the
survivors anew. A growth step adds slots and indexes all live nodes anew.

* **`reach`** — adds everything below a node to a set of marks;
* **`sweep`** — frees the nodes that have no mark, and indexes the others;
* **`Manager.collect`**, **`Manager.grow`** — the two operations on a manager. They have no answer
  only if the graph is broken.
-/
import DecisionDiagram.Manager

namespace DecisionDiagram

/-- Adds `id` and every node below it to the marks; nodes that have a mark are not entered again.
The first number bounds the depth. -/
def reach (nodes : Array Node) : Nat → NodeId → BitSet → Option BitSet
  | 0, _, _ => none
  | n + 1, id, marks =>
    if id.isTerminal || marks.contains id then some marks
    else
      match nodes[id]? with
      | none => none
      | some node =>
        match reach nodes n node.low (marks.insert id) with
        | none => none
        | some marks => reach nodes n node.high marks

/-- Adds every node that can be reached from a list of nodes. -/
def reachAll (nodes : Array Node) (depth : Nat) : List NodeId → BitSet → Option BitSet
  | [], marks => some marks
  | id :: rest, marks =>
    match reach nodes depth id marks with
    | none => none
    | some marks => reachAll nodes depth rest marks

/-- Goes through a list of nodes: the marked ones are indexed, the others freed. -/
def sweep (marks : BitSet) : List NodeId → Store → UniqueTable → Option (Store × UniqueTable)
  | [], store, table => some (store, table)
  | id :: rest, store, table =>
    if marks.contains id then
      match table.vacancy? store.nodes id with
      | none => none
      | some slot => sweep marks rest store (table.insertAt slot id)
    else sweep marks rest (store.free id) table

/-- Indexes a list of nodes. -/
def UniqueTable.insertAll? (nodes : Array Node) : List NodeId → UniqueTable → Option UniqueTable
  | [], table => some table
  | id :: rest, table =>
    match table.vacancy? nodes id with
    | none => none
    | some slot => insertAll? nodes rest (table.insertAt slot id)

namespace Manager

/-- Adapts the computed tables to a collection, after which other nodes may take the ids of the
freed ones. -/
def refreshComputed (m : Manager) : Manager :=
  match m.config.cachePolicy with
  | .reset => { m with computed := m.computed.clear }
  | .clean => { m with computed := m.computed.clean m.store.isLive }

/-- Frees every node that cannot be reached from the roots, and answers how many there were. -/
def collect (m : Manager) : Option (Nat × Manager) :=
  match reachAll m.store.nodes m.extent m.rootNodes m.store.marks.clear with
  | none => none
  | some marks =>
    let before := m.store.freeCount
    match sweep marks m.store.liveIds m.store (UniqueTable.ofCapacity m.store.capacity) with
    | none => none
    | some (store, table) =>
      let m := { m with store := store.clearMarks, table }.refreshComputed
      some (m.store.freeCount - before,
        { m with counters := { m.counters with collections := m.counters.collections + 1 } })

/-- The capacity after the next growth step, if the store can grow. -/
def nextCapacity? (m : Manager) : Option Nat :=
  (nextCapacity m.store.capacity.toUInt64 m.config.increaseFactor m.config.maxIncrease.toUInt64
    m.config.maxNodes.toUInt64).map UInt64.toNat

/-- Indexes every live node anew. -/
def rehash (m : Manager) : Option Manager :=
  (UniqueTable.insertAll? m.store.nodes m.store.liveIds
    (UniqueTable.ofCapacity m.store.capacity)).map fun table => { m with table }

/-- Keeps up the ratio of slots to cache entries, if one is configured. -/
def fitComputed (m : Manager) : Manager :=
  if m.config.cacheRatio = 0 then m
  else
    let bits := min (max (m.store.capacity / m.config.cacheRatio) 1).log2 Config.maxCacheBits
    if bits = m.computed.bits then m else { m with computed := m.computed.resize bits }

/-- Grows the store by one step, if it can grow. -/
def grow (m : Manager) : Option Manager :=
  match m.nextCapacity? with
  | none => some m
  | some capacity =>
    let m := { m with
      store := m.store.grow capacity
      counters := { m.counters with growths := m.counters.growths + 1 } }
    m.rehash.map fitComputed

end Manager

end DecisionDiagram
