/-
Variables, access to nodes, and protection.

* **`Manager.setVarNum`**, **`Manager.extVarNum`** — new variables below all others, each with its
  two literals. If the store runs full on the way, the variables that are complete stay;
* **`Manager.protect`**, **`Manager.release`** — what is kept by a collection.
-/
import DecisionDiagram.Build

namespace DecisionDiagram

namespace Build

/-- Adds one variable below all others. The positive literal is pending while the negative one is
made. -/
def addVariable : Build Unit := do
  let level := (← get).varNum
  let pos ← mk level NodeId.bot NodeId.top
  push pos
  let neg ← mk level NodeId.top NodeId.bot
  pop
  modify fun m => { m with literals := m.literals.push (pos, neg), order := m.order.append }

/-- Adds a number of variables. -/
def addVariables : Nat → Build Unit
  | 0 => return
  | n + 1 => do
    addVariable
    addVariables n

end Build

namespace Manager

/-! ### Number of variables -/

/-- Adapts everything that depends on the number of variables. -/
def settle (m : Manager) : Manager :=
  let m := { m with
    pending := []
    store := m.store.setTerminalLevel m.varNum
    computed := m.computed.clearCounts }
  { m with pairings := m.pairings.extend m.identity }

/-- Adds variables and adapts the rest, also if it ends early. -/
def addVariables (count : Nat) : Action Unit := fun m =>
  match Build.addVariables count { m with pending := [], auto := m.auto.disable } with
  | .ok _ m => .ok () { m with auto := m.auto.enable }.settle
  | .error (.failure e) m => .error e { m with auto := m.auto.enable }.settle
  | .error .reorder m => .error .fault m

/-- Raises the number of variables to `num`. -/
def setVarNum (num : Nat) : Action Unit := do
  let current := (← get).varNum
  if num < 1 || maxVars < num then Action.fail (.tooManyVariables num)
  else if num < current then Action.fail (.decreasingVarCount current num)
  else if num = current then return
  else addVariables (num - current)

/-- The largest number of variables that can be asked for. -/
def maxRequest : Nat := 4294967295

/-- Adds `extra` variables and answers the first of them. -/
def extVarNum (extra : Nat) : Action Var := do
  let first := (← get).varNum
  if maxRequest < first + extra then Action.fail (.tooManyVariables maxRequest)
  else
    setVarNum (first + extra)
    return first

/-! ### Literals and the order -/

/-- The two literals of a variable. -/
def literalsOf (m : Manager) (v : Var) : Except Failure (NodeId × NodeId) := do
  m.checkVar v
  match m.literals[v]? with
  | some pair => return pair
  | none => throw .fault

/-- The diagram of a variable. -/
def ithVar (m : Manager) (v : Var) : Except Failure NodeId := return (← m.literalsOf v).1

/-- The diagram of the negation of a variable. -/
def nithVar (m : Manager) (v : Var) : Except Failure NodeId := return (← m.literalsOf v).2

/-- The level of a variable. -/
def varToLevel (m : Manager) (v : Var) : Except Failure Level := do
  m.checkVar v
  m.levelOf v

/-- The variable at a level. -/
def levelToVar (m : Manager) (level : Level) : Except Failure Var :=
  if level < m.varNum then m.varAt level else .error (.error (.unknownVariable level))

/-- The variables from the top level down. -/
def currentOrder (m : Manager) : List Var := m.order.toList

/-! ### Nodes -/

/-- The level of a node; terminals are below all variables. -/
def levelOfNode (m : Manager) (f : NodeId) : Except Failure Level := do
  m.checkNode f
  return (← m.node f).level

/-- The variable that a node decides. -/
def varOf (m : Manager) (f : NodeId) : Except Failure Var := do
  m.checkInner f
  m.varAt (← m.node f).level

/-- The diagram for the case that the variable of the node is false. -/
def low (m : Manager) (f : NodeId) : Except Failure NodeId := do
  m.checkInner f
  return (← m.node f).low

/-- The diagram for the case that the variable of the node is true. -/
def high (m : Manager) (f : NodeId) : Except Failure NodeId := do
  m.checkInner f
  return (← m.node f).high

/-! ### Protection -/

/-- Keeps a node until it is released. -/
def protect (f : NodeId) : Action NodeId := do
  Action.read (·.checkNode f)
  modify fun m => { m with roots := m.roots.protect f }
  return f

/-- Drops one protection of a node, and tells whether there was one. -/
def release (f : NodeId) : Action Bool :=
  Action.previous (·.roots.contains f) fun m => { m with roots := m.roots.release f }

/-- How often a node is protected. -/
def protectCount (m : Manager) (f : NodeId) : Nat := m.roots.count f

/-- Collects garbage and answers how many nodes were freed. -/
def gc : Action Nat := fun m =>
  match m.collect with
  | none => .error .fault m
  | some (freed, m) => .ok freed m

end Manager

end DecisionDiagram
