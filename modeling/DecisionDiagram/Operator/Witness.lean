/-
Witnesses: cubes of literals that imply a diagram.

A witness follows one path to the terminal for true and prefers low children.

* **`Program.satOne`** — the literals along the path;
* **`Program.satOneSet`** — with a literal for each variable of a given set;
* **`Program.fullSatOne`** — with a literal for every variable.
-/
import DecisionDiagram.Program

namespace DecisionDiagram.Program

/-- The literal at `level` and the cube `rest` below it, which stays pending. -/
def literal (level : Level) (positive : Bool) (rest : NodeId) : Program NodeId := do
  let id ← if positive then mk level NodeId.bot rest else mk level rest NodeId.bot
  push id
  return id

/-- The cube of the literals along the preferred path of `f`. -/
def satOne (f : NodeId) : Nat → Program NodeId
  | 0 => fault
  | n + 1 =>
    if f.isTerminal then return f
    else do
      let nf ← node f
      if nf.low.isBot then literal nf.level true (← satOne nf.high n)
      else literal nf.level false (← satOne nf.low n)

/-- The same, with a literal for each variable of the cube `set`; one that the path leaves open gets
the value `polarity`. -/
def satOneSet (polarity : Bool) (f set : NodeId) : Nat → Program NodeId
  | 0 => fault
  | n + 1 =>
    if f.isTerminal && set.isTerminal then return f
    else do
      let nf ← node f
      let ns ← node set
      if ns.level < nf.level then
        literal ns.level polarity (← satOneSet polarity f ns.high n)
      else
        let next := if ns.level = nf.level then ns.high else set
        if nf.low.isBot then literal nf.level true (← satOneSet polarity nf.high next n)
        else literal nf.level false (← satOneSet polarity nf.low next n)

/-- Negative literals at the given levels, each above the one before. -/
def negativeLiterals : List Level → NodeId → Program NodeId
  | [], res => return res
  | level :: rest, res => do negativeLiterals rest (← literal level false res)

/-- The levels from `bottom - 1` up to `top`. -/
def levelsUp (top bottom : Level) : List Level := (List.range' top (bottom - top)).reverse

/-- The cube of the literals along the preferred path of `f`, and of negative literals for the
variables below its first level that the path leaves open. -/
def fullSatOne (f : NodeId) : Nat → Program NodeId
  | 0 => fault
  | n + 1 =>
    if f.isTerminal then return f
    else do
      let nf ← node f
      let positive := nf.low.isBot
      let child := if positive then nf.high else nf.low
      let rest ← fullSatOne child n
      let nc ← node child
      literal nf.level positive (← negativeLiterals (levelsUp (nf.level + 1) nc.level) rest)

/-- The same with negative literals for the variables above the first level of `f`, too. -/
def fullSatOneFromTop (f : NodeId) (n : Nat) : Program NodeId := do
  let res ← fullSatOne f n
  negativeLiterals (levelsUp 0 (← node f).level) res

end DecisionDiagram.Program
