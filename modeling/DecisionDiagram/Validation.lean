/-
Checks of the shared graph.

A node is sound if it decides a variable, has two different children that are live and strictly
below it, and is what the unique table finds for its record. The first check that a node fails is
reported. Two live nodes with the same record need no check of their own: the table can find only
one of them.

* **`Manager.validate`** — the nodes below a node;
* **`Manager.validateAll`** — all live nodes, and that the two tables of the order are inverse.
-/
import DecisionDiagram.Descendants

namespace DecisionDiagram.Manager

/-- The report of a broken graph. -/
def corrupted (details : String) : Except Failure Unit := .error (.error (.corrupted details))

/-- A child has to be live and below the level of its parent. -/
def validateChild (m : Manager) (id : NodeId) (level : Level) (child : NodeId) :
    Except Failure Unit := do
  if !m.store.isLive child then
    corrupted (id.text ++ " points to dead node " ++ child.text)
  else if (← m.node child).level ≤ level then
    corrupted (id.text ++ " is not above its child " ++ child.text)
  else .ok ()

/-- The unique table has to find a node for its record. -/
def validateIndex (m : Manager) (id : NodeId) (node : Node) : Except Failure Unit :=
  match m.table.find m.store.nodes node with
  | none => .error .fault
  | some (.found other) =>
    if other = id then .ok () else corrupted (id.text ++ " is missing from the unique table")
  | some (.vacant _) => corrupted (id.text ++ " is missing from the unique table")

/-- Checks one node. -/
def validateNode (m : Manager) (id : NodeId) : Except Failure Unit := do
  let node ← m.node id
  if m.varNum ≤ node.level then
    corrupted (id.text ++ " has level " ++ toString node.level ++ " past the last variable")
  else if node.low = node.high then corrupted (id.text ++ " is redundant")
  else
    m.validateChild id node.level node.low
    m.validateChild id node.level node.high
    m.validateIndex id node

/-- Checks the nodes of a list in turn. -/
def validateNodes (m : Manager) : List NodeId → Except Failure Unit
  | [] => .ok ()
  | id :: rest => do
    m.validateNode id
    m.validateNodes rest

/-- Checks every node below `f`. -/
def validate (m : Manager) (f : NodeId) : Except Failure Unit := do
  m.checkNode f
  m.validateNodes (← m.descendants [f])

/-- Every variable has to stand at its level. -/
def validateOrder (m : Manager) : List (Level × Var) → Except Failure Unit
  | [] => .ok ()
  | (level, v) :: rest =>
    if m.order.varAt[level]? = some v then m.validateOrder rest
    else corrupted (Var.text v ++ " is not at level " ++ toString level)

/-- Checks every live node, and the order. -/
def validateAll (m : Manager) : Except Failure Unit := do
  m.validateNodes m.store.liveIds
  m.validateOrder m.order.levelOf.toList.zipIdx

end DecisionDiagram.Manager
