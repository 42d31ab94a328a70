/-
Cofactors: restriction to a cube, and the two generalised cofactors.

* **`Program.restrict`** — fixes the variables of a cube of literals;
* **`Program.constrain`** — maps every assignment outside the care set to one within, along the order;
* **`Program.simplify`** — the same where the operand decides a variable; the care set is weakened
  where it does not, so that no new variable comes in.
-/
import DecisionDiagram.Operator.Connective

namespace DecisionDiagram

/-- The variables that a cube of literals fixes, by level, and to what. -/
structure Valuation where
  cube : NodeId
  levels : BitSet
  /-- The levels that are fixed to true. -/
  positive : BitSet
  /-- The lowest of the levels. -/
  last : Option Level

/-- Whether all levels of the valuation are above `level`. -/
def Valuation.isAbove (v : Valuation) (level : Level) : Bool :=
  match v.last with
  | none => true
  | some last => last < level

namespace Program

/-- Reads the literals below a node. A node whose low child is false fixes its variable to true and
goes on with its high child; any other fixes it to false and goes on with its low child. -/
def collectLiterals : Nat → NodeId → Valuation → Program Valuation
  | 0, _, _ => fault
  | n + 1, id, v =>
    if id.isTerminal then return v
    else do
      let node ← node id
      if node.low.isBot then
        collectLiterals n node.high
          { v with
            levels := v.levels.insert node.level
            positive := v.positive.insert node.level
            last := some node.level }
      else
        collectLiterals n node.low
          { v with levels := v.levels.insert node.level, last := some node.level }

/-- The valuation that a cube of literals stands for. -/
def valuation (cube : NodeId) : Program Valuation := do
  check cube
  let varNum ← varNum
  collectLiterals (← depth) cube
    ⟨cube, BitSet.ofCapacity varNum, BitSet.ofCapacity varNum, none⟩

/-- Fixes the variables of a valuation. -/
def restrict (v : Valuation) (f : NodeId) : Nat → Program NodeId
  | 0 => fault
  | n + 1 => do
    let nf ← node f
    if f.isTerminal || v.isAbove nf.level then return f
    else memo (.restrict f v.cube) do
      if v.levels.contains nf.level then
        restrict v (if v.positive.contains nf.level then nf.high else nf.low) n
      else branch (restrict v nf.low n) (restrict v nf.high n) (mk nf.level)

/-- Fixes the variables of a cube of literals. -/
def restrictCube (f cube : NodeId) (n : Nat) : Program NodeId := do
  restrict (← valuation cube) f n

/-- The generalised cofactor of `f` for the care set `c`. -/
def constrain (f c : NodeId) : Nat → Program NodeId
  | 0 => fault
  | n + 1 =>
    if c.isTop || f.isTerminal then return f
    else if c = f then return NodeId.top
    else if c.isBot then return NodeId.bot
    else memo (.constrain f c) do
      let nf ← node f
      let nc ← node c
      if nf.level < nc.level then
        branch (constrain nf.low c n) (constrain nf.high c n) (mk nf.level)
      else
        let (f0, f1) := nf.cofactors f nc.level
        if nc.low.isBot then constrain f1 nc.high n
        else if nc.high.isBot then constrain f0 nc.low n
        else branch (constrain f0 nc.low n) (constrain f1 nc.high n) (mk nc.level)

/-- A diagram that agrees with `f` on the care set `d` and has no variable that `f` has not. -/
def simplify (f d : NodeId) : Nat → Program NodeId
  | 0 => fault
  | n + 1 =>
    if d.isTop || f.isTerminal then return f
    else if d = f then return NodeId.top
    else if d.isBot then return NodeId.bot
    else memo (.simplify f d) do
      let nf ← node f
      let nd ← node d
      if nf.level = nd.level then
        if nd.low.isBot then simplify nf.high nd.high n
        else if nd.high.isBot then simplify nf.low nd.low n
        else branch (simplify nf.low nd.low n) (simplify nf.high nd.high n) (mk nf.level)
      else if nf.level < nd.level then
        branch (simplify nf.low d n) (simplify nf.high d n) (mk nf.level)
      else do
        let care ← apply .or nd.low nd.high (← depth)
        hold care (simplify f care n)

end Program

end DecisionDiagram
