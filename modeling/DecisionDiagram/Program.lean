/-
Operators as programs.

A `Program` puts steps one after the other, and each may depend on what the ones before it answered.
A step reads the manager or changes it (`Step.exec`).

Every operator has the same shape. Simple cases are answered at once; otherwise the computed tables
are asked (`memo`), the two branches are computed one after the other (`branch`), and their results
are joined, mostly by making a node (`mk`). Making a node may need a collection. Therefore the
result of a branch is pending until both are joined: what is pending is a root.

* **`Program.run`** — runs a program, until its end or the first step that does not succeed;
* **`Program.memo`**, **`Program.hold`**, **`Program.branch`** — the common shape of the operators.
-/
import DecisionDiagram.Build

namespace DecisionDiagram

/-- What an operator can do in one step. -/
inductive Step
  /-- Ends on a broken invariant. -/
  | fault
  /-- Ends with an error. -/
  | fail (e : Error)
  /-- Asks for a bound on the depth of a recursion. -/
  | depth
  /-- Asks for the number of variables. -/
  | varNum
  /-- Tests that a node is live. -/
  | check (f : NodeId)
  /-- Asks for the level of a variable. -/
  | levelOf (v : Var)
  /-- Asks for the levels of the nodes below a node. -/
  | levelsBelow (f : NodeId)
  /-- Asks for a pairing. -/
  | pairing (number : Nat)
  /-- Asks for the record of a node. -/
  | node (f : NodeId)
  /-- Asks the computed tables. -/
  | lookup (q : Query)
  /-- Enters a result into the computed tables. -/
  | remember (q : Query) (res : NodeId)
  /-- Asks the computed tables for a count. -/
  | lookupCount (q : CountQuery)
  /-- Enters a count into the computed tables. -/
  | rememberCount (q : CountQuery) (count : Float)
  /-- Keeps a node as long as it is pending. -/
  | push (f : NodeId)
  /-- The latest pending node is pending no more. -/
  | pop
  /-- The node becomes the only pending one. -/
  | keepOnly (f : NodeId)
  /-- Finds or creates the node with a record. -/
  | mk (level : Level) (low high : NodeId)

namespace Step

/-- What a step answers. -/
def Answer : Step → Type
  | fault => Empty
  | fail _ => Empty
  | depth => Nat
  | varNum => Nat
  | check _ => Unit
  | levelOf _ => Level
  | levelsBelow _ => List Level
  | pairing _ => Pairing
  | node _ => Node
  | lookup _ => Option NodeId
  | remember _ _ => Unit
  | lookupCount _ => Option Float
  | rememberCount _ _ => Unit
  | push _ => Unit
  | pop => Unit
  | keepOnly _ => Unit
  | mk _ _ _ => NodeId

/-- What a step does to the manager. -/
def exec : (s : Step) → Build s.Answer
  | fault => Build.fault
  | fail e => Build.fail e
  | depth => Build.read fun m => .ok m.depth
  | varNum => Build.read fun m => .ok m.varNum
  | check f => Build.read (·.checkNode f)
  | levelOf v => Build.read (·.levelOf v)
  | levelsBelow f => Build.read (·.levelsBelow f)
  | pairing number => Build.read (·.pairing number)
  | node f => Build.read (·.node f)
  | lookup q => Build.lookup q
  | remember q res => Build.remember q res
  | lookupCount q => Build.lookupCount q
  | rememberCount q count => Build.rememberCount q count
  | push f => Build.push f
  | pop => Build.pop
  | keepOnly f => Build.keepOnly f
  | mk level low high => Build.mk level low high

end Step

/-- A program with a result. -/
inductive Program : Type → Type 1
  /-- Nothing is left to do. -/
  | done {α : Type} (a : α) : Program α
  /-- A single step. -/
  | one (s : Step) : Program s.Answer
  /-- One program after another. -/
  | bind {α β : Type} (p : Program α) (next : α → Program β) : Program β

namespace Program

variable {α : Type}

instance : Monad Program where
  pure := done
  bind := bind

/-- Runs a program. -/
def run : {α : Type} → Program α → Build α
  | _, done a => pure a
  | _, one s => s.exec
  | _, bind p next => fun m =>
    match p.run m with
    | .ok a m => (next a).run m
    | .error i m => .error i m

/-! ### Steps as programs -/

/-- Ends on a broken invariant. -/
def fault : Program α := bind (one .fault) nofun

/-- Ends with an error. -/
def fail (e : Error) : Program α := bind (one (.fail e)) nofun

/-- A bound on the depth of a recursion. -/
def depth : Program Nat := one .depth

/-- The number of variables. -/
def varNum : Program Nat := one .varNum

/-- Tests that a node is live. -/
def check (f : NodeId) : Program Unit := one (.check f)

/-- The level of a variable. -/
def levelOf (v : Var) : Program Level := one (.levelOf v)

/-- The levels of the nodes below a node. -/
def levelsBelow (f : NodeId) : Program (List Level) := one (.levelsBelow f)

/-- The pairing with a number. -/
def pairing (number : Nat) : Program Pairing := one (.pairing number)

/-- The record of a node. -/
def node (f : NodeId) : Program Node := one (.node f)

/-- Asks the computed tables. -/
def lookup (q : Query) : Program (Option NodeId) := one (.lookup q)

/-- Enters a result into the computed tables. -/
def remember (q : Query) (res : NodeId) : Program Unit := one (.remember q res)

/-- Keeps a node as long as it is pending. -/
def push (f : NodeId) : Program Unit := one (.push f)

/-- The latest pending node is pending no more. -/
def pop : Program Unit := one .pop

/-- The node becomes the only pending one. -/
def keepOnly (f : NodeId) : Program Unit := one (.keepOnly f)

/-- Finds or creates the node with a record. -/
def mk (level : Level) (low high : NodeId) : Program NodeId := one (.mk level low high)

/-! ### The shape of an operator -/

/-- Answers a query from the computed tables, or computes the answer and enters it. -/
def memo (q : Query) (compute : Program NodeId) : Program NodeId := do
  match ← lookup q with
  | some res => return res
  | none =>
    let res ← compute
    remember q res
    return res

/-- Answers a count from the computed tables, or computes it and enters it. -/
def memoCount (q : CountQuery) (compute : Program Float) : Program Float := do
  match ← one (.lookupCount q) with
  | some count => return count
  | none =>
    let count ← compute
    one (.rememberCount q count)
    return count

/-- Runs a program while a node is pending. -/
def hold (f : NodeId) (p : Program NodeId) : Program NodeId := do
  push f
  let res ← p
  pop
  return res

/-- Computes two results and joins them; both are pending until then. -/
def branch (low high : Program NodeId) (join : NodeId → NodeId → Program NodeId) :
    Program NodeId := do
  let l ← low
  hold l do
    let h ← high
    hold h (join l h)

/-- The conjunction of the variables at the given levels, which must decrease. -/
def cubeOfLevels : List Level → NodeId → Program NodeId
  | [], res => return res
  | level :: rest, res => do
    let res ← mk level NodeId.bot res
    keepOnly res
    cubeOfLevels rest res

end Program

end DecisionDiagram
