/-
Counts of satisfying assignments and of paths.

* **`Manager.satCountExact`** — satisfying assignments to all variables, as a natural number;
* **`Program.satCount`**, **`Program.satCountSet`**, **`Program.pathCount`** — floating-point
  counts, which are kept in the computed tables.
-/
import Std.Data.HashMap
import DecisionDiagram.Program

namespace DecisionDiagram

/-- A power of two as a floating-point number. -/
def powerOfTwo (exponent : Int) : Float := Float.scaleB 1.0 exponent

/-- The weight of a branch from `level` to `childLevel`: each level in between is free. -/
def branchWeight (level childLevel : Level) : Float := powerOfTwo ((childLevel : Int) - level - 1)

/-- The count of a terminal. -/
def terminalCount (id : NodeId) : Float := if id.isTop then 1.0 else 0.0

/-! ### Floating-point counts -/

namespace Program

/-- Satisfying assignments to the variables from the level of `f` down. -/
def satCountFrom (f : NodeId) : Nat → Program Float
  | 0 => fault
  | n + 1 =>
    if f.isTerminal then return terminalCount f
    else memoCount (.sat f) do
      let nf ← node f
      let nl ← node nf.low
      let nh ← node nf.high
      let low ← satCountFrom nf.low n
      let high ← satCountFrom nf.high n
      return branchWeight nf.level nl.level * low + branchWeight nf.level nh.level * high

/-- Satisfying assignments to all variables. -/
def satCount (f : NodeId) : Program Float := do
  check f
  let nf ← node f
  let count ← satCountFrom f (← depth)
  return powerOfTwo nf.level * count

/-- Number of nodes along the high children of a cube. -/
def cubeLength : Nat → NodeId → Program Nat
  | 0, _ => fault
  | n + 1, id =>
    if id.isTerminal then return 0
    else do
      let nd ← node id
      return (← cubeLength n nd.high) + 1

/-- Satisfying assignments to the variables of a cube only; the others are taken not to occur in
`f`. The count is at least 1, but 0 if `f` is false or the cube has no variables. -/
def satCountSet (f cube : NodeId) : Program Float := do
  check cube
  if cube.isTerminal || f.isBot then
    check f
    return 0.0
  else
    let length ← cubeLength (← depth) cube
    let varNum ← varNum
    let count := (← satCount f) / powerOfTwo ((varNum : Int) - length)
    return if count > 1.0 then count else 1.0

/-- Paths from a node to the terminal for true. -/
def pathCountFrom (f : NodeId) : Nat → Program Float
  | 0 => fault
  | n + 1 =>
    if f.isTerminal then return terminalCount f
    else memoCount (.path f) do
      let nf ← node f
      let low ← pathCountFrom nf.low n
      let high ← pathCountFrom nf.high n
      return low + high

/-- Paths from `f` to the terminal for true. -/
def pathCount (f : NodeId) : Program Float := do
  check f
  pathCountFrom f (← depth)

end Program

namespace Manager

/-- Runs a program that makes no node. -/
def count (p : Program Float) : Action Float := fun m =>
  match p.run m with
  | .ok x m => .ok x m
  | .error (.failure e) m => .error e m
  | .error .reorder m => .error .fault m

/-! ### Exact counts -/

/-- The number of levels between a node and its child, which stands below it. -/
def gap (level childLevel : Level) : Except Failure Nat :=
  if level < childLevel then .ok (childLevel - level - 1) else .error .fault

/-- Satisfying assignments to the variables from the level of a node down, with a memory of the
counts so far. -/
def exactCountFrom (m : Manager) :
    Nat → NodeId → Std.HashMap NodeId Nat → Except Failure (Nat × Std.HashMap NodeId Nat)
  | 0, _, _ => .error .fault
  | n + 1, id, known =>
    if id.isBot then .ok (0, known)
    else if id.isTop then .ok (1, known)
    else
      match known[id]? with
      | some count => .ok (count, known)
      | none => do
        let node ← m.node id
        let (low, known) ← m.exactCountFrom n node.low known
        let lowGap ← gap node.level (← m.node node.low).level
        let (high, known) ← m.exactCountFrom n node.high known
        let highGap ← gap node.level (← m.node node.high).level
        let count := low <<< lowGap + high <<< highGap
        return (count, known.insert id count)

/-- Satisfying assignments to all variables. -/
def satCountExact (m : Manager) (f : NodeId) : Except Failure Nat := do
  m.checkNode f
  let nf ← m.node f
  let (count, _) ← m.exactCountFrom m.depth f ∅
  return count <<< nf.level

end Manager

end DecisionDiagram
