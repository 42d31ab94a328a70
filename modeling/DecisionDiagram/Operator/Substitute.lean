/-
Substitution: one variable by a diagram, all variables at once, and renaming.

* **`Program.compose`** — substitutes at one level; both operands are split until the level is met;
* **`Program.vecCompose`** — substitutes by a pairing, simultaneously;
* **`Program.rename`** — substitutes by a pairing of variables. A renamed variable is sunk through the
  diagrams below it (`sink`); it fails where they have that variable already.
-/
import DecisionDiagram.Operator.Connective

namespace DecisionDiagram.Program

/-- Substitutes `g` for the variable at `level` in `f`. -/
def compose (level : Level) (f g : NodeId) : Nat → Program NodeId
  | 0 => fault
  | n + 1 => do
    let nf ← node f
    if level < nf.level then return f
    else memo (.compose level f g) do
      if nf.level < level then
        let ng ← node g
        let top := min nf.level ng.level
        let (f0, f1) := nf.cofactors f top
        let (g0, g1) := ng.cofactors g top
        branch (compose level f0 g0 n) (compose level f1 g1 n) (mk top)
      else ite g nf.high nf.low (← depth)

/-- The substitute of a level. -/
def substitute (p : Pairing) (level : Level) : Program NodeId :=
  match p.result[level]? with
  | some id => return id
  | none => fault

/-- Substitutes every variable of `f` by its entry in a pairing. No entry below `last` differs from
its own literal. -/
def vecCompose (p : Pairing) (last : Level) (f : NodeId) : Nat → Program NodeId
  | 0 => fault
  | n + 1 => do
    let nf ← node f
    if last < nf.level then return f
    else memo (.vecCompose p.stamp f) do
      branch (vecCompose p last nf.low n) (vecCompose p last nf.high n) fun low high => do
        ite (← substitute p nf.level) high low (← depth)

/-- The diagram that is `h` where the variable at `level` holds and `l` elsewhere. Both may have
variables above `level`, but none at it. -/
def sink (level : Level) (l h : NodeId) : Nat → Program NodeId
  | 0 => fault
  | n + 1 => do
    let nl ← node l
    let nh ← node h
    if level < nl.level && level < nh.level then mk level l h
    else if level = nl.level || level = nh.level then fail .replaceConflict
    else
      let top := min nl.level nh.level
      let (l0, l1) := nl.cofactors l top
      let (h0, h1) := nh.cofactors h top
      branch (sink level l0 h0 n) (sink level l1 h1 n) (mk top)

/-- Renames the variables of `f` by a pairing. No entry below `last` differs from its own literal.
-/
def rename (p : Pairing) (last : Level) (f : NodeId) : Nat → Program NodeId
  | 0 => fault
  | n + 1 =>
    if f.isTerminal then return f
    else do
      let nf ← node f
      if last < nf.level then return f
      else memo (.rename p.stamp f) do
        branch (rename p last nf.low n) (rename p last nf.high n) fun low high => do
          let target ← node (← substitute p nf.level)
          sink target.level low high (← depth)

/-- Substitutes by the pairing with a number; one without changes leaves `f` as it is. -/
def vecComposeBy (f : NodeId) (number n : Nat) : Program NodeId := do
  let p ← pairing number
  match p.last with
  | none => return f
  | some last => vecCompose p last f n

/-- Renames by the pairing with a number; one without changes leaves `f` as it is. -/
def renameBy (f : NodeId) (number n : Nat) : Program NodeId := do
  let p ← pairing number
  match p.last with
  | none => return f
  | some last => rename p last f n

end DecisionDiagram.Program
