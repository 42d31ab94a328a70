/-
The nodes below a node.

* **`Manager.descendants`**, **`Manager.nodeCount`**, **`Manager.varProfile`** — the nodes, their
  number, and their number by variable.
-/
import DecisionDiagram.Collect

namespace DecisionDiagram

namespace Manager

/-- The set of nodes, other than terminals, that can be reached from a list of nodes. -/
def reachable (m : Manager) (roots : List NodeId) : Except Failure BitSet :=
  match reachAll m.store.nodes m.extent roots (BitSet.ofCapacity m.store.capacity) with
  | none => .error .fault
  | some marks => .ok marks

/-- The nodes, other than terminals, that can be reached from a list of nodes, in increasing
order. -/
def descendants (m : Manager) (roots : List NodeId) : Except Failure (List NodeId) :=
  return (← m.reachable roots).toList

/-- The levels of the nodes below a node. -/
def levelsBelow (m : Manager) (f : NodeId) : Except Failure (List Level) := do
  (← m.descendants [f]).mapM fun id => return (← m.node id).level

/-- Number of nodes of `f`. -/
def nodeCount (m : Manager) (f : NodeId) : Except Failure Nat := do
  m.checkNode f
  return (← m.reachable [f]).size

/-- Number of nodes that a list of diagrams has together. -/
def nodeCountMany (m : Manager) (roots : List NodeId) : Except Failure Nat := do
  m.checkNodes roots
  return (← m.reachable roots).size

/-- Number of nodes of `f` for each variable. -/
def varProfile (m : Manager) (f : NodeId) : Except Failure (Array Nat) := do
  m.checkNode f
  (← m.descendants [f]).foldlM
    (fun profile id => do
      let node ← m.node id
      let v ← m.varAt node.level
      return profile.modify v (· + 1))
    (Array.replicate m.varNum 0)

end Manager

end DecisionDiagram
