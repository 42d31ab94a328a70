/-
Quantification, on its own and fused with a connective.

A set of variables is given by a cube, whose high children are followed. Existential and universal
quantification know the quantified levels as a set; unique quantification follows the cube alongside
the operands, because a quantified variable on which nothing depends makes the result false.

* **`Program.quantify`**, **`Program.unique`** — the recursions on one operand;
* **`Program.applyQuantify`**, **`Program.applyUnique`** — the recursions on the operands of a
  connective, whose result is never built in full.
-/
import DecisionDiagram.Operator.Connective

namespace DecisionDiagram

/-- The levels of the variables of a cube. -/
structure LevelSet where
  cube : NodeId
  levels : BitSet
  /-- The lowest of the levels. -/
  last : Option Level

namespace LevelSet

def contains (s : LevelSet) (level : Level) : Bool := s.levels.contains level

/-- Whether all levels of the set are above `level`. -/
def isAbove (s : LevelSet) (level : Level) : Bool :=
  match s.last with
  | none => true
  | some last => last < level

end LevelSet

namespace Program

/-- Adds the levels along the high children of a node. -/
def collectLevels : Nat → NodeId → LevelSet → Program LevelSet
  | 0, _, _ => fault
  | n + 1, id, s =>
    if id.isTerminal then return s
    else do
      let node ← node id
      collectLevels n node.high
        { s with levels := s.levels.insert node.level, last := some node.level }

/-- The levels of the variables of a cube. -/
def levelSet (cube : NodeId) : Program LevelSet := do
  check cube
  let varNum ← varNum
  collectLevels (← depth) cube ⟨cube, BitSet.ofCapacity varNum, none⟩

/-- Quantifies the variables of a set; `q` joins the cofactors. -/
def quantify (q : Quantifier) (set : LevelSet) (f : NodeId) : Nat → Program NodeId
  | 0 => fault
  | n + 1 => do
    let nf ← node f
    if f.isTerminal || set.isAbove nf.level then return f
    else memo (.quantify q f set.cube) do
      branch (quantify q set nf.low n) (quantify q set nf.high n) fun low high => do
        if set.contains nf.level then apply q.connective low high (← depth)
        else mk nf.level low high

/-- Unique quantification of the variables of a cube. -/
def unique (f cube : NodeId) : Nat → Program NodeId
  | 0 => fault
  | n + 1 => do
    let nf ← node f
    let nc ← node cube
    if nc.level < nf.level then return NodeId.bot
    else if f.isTerminal || cube.isTerminal then return f
    else memo (.quantify .unique f cube) do
      if nf.level = nc.level then
        branch (unique nf.low nc.high n) (unique nf.high nc.high n) fun low high => do
          apply .xor low high (← depth)
      else branch (unique nf.low cube n) (unique nf.high cube n) (mk nf.level)

/-- Quantifies the variables of a cube that is not constant. -/
def quantifyCube (q : Quantifier) (f cube : NodeId) (n : Nat) : Program NodeId := do
  let set ← levelSet cube
  match q with
  | .unique => unique f cube n
  | _ => quantify q set f n

/-- Quantifies the variables of a set in the result of a connective. -/
def applyQuantify (q : Quantifier) (op : Connective) (set : LevelSet) (l r : NodeId) :
    Nat → Program NodeId
  | 0 => fault
  | n + 1 =>
    match op.shortcut l r with
    | some res => do quantify q set res (← depth)
    | none => do
      let nl ← node l
      let nr ← node r
      if set.isAbove nl.level && set.isAbove nr.level then apply op l r (← depth)
      else memo (.applyQuantify q op l r set.cube) do
        let level := min nl.level nr.level
        let (l0, l1) := nl.cofactors l level
        let (r0, r1) := nr.cofactors r level
        branch (applyQuantify q op set l0 r0 n) (applyQuantify q op set l1 r1 n)
          fun low high => do
            if set.contains level then apply q.connective low high (← depth)
            else mk level low high

/-- Unique quantification of the variables of a cube in the result of a connective. -/
def applyUnique (op : Connective) (l r cube : NodeId) : Nat → Program NodeId
  | 0 => fault
  | n + 1 => do
    let nl ← node l
    let nr ← node r
    let nc ← node cube
    if nc.level < nl.level && nc.level < nr.level then return NodeId.bot
    else if l.isTerminal && r.isTerminal then return NodeId.ofBool (op.eval l.isTop r.isTop)
    else if cube.isTerminal then apply op l r (← depth)
    else memo (.applyQuantify .unique op l r cube) do
      let level := min nl.level nr.level
      let (l0, l1) := nl.cofactors l level
      let (r0, r1) := nr.cofactors r level
      if level = nc.level then
        branch (applyUnique op l0 r0 nc.high n) (applyUnique op l1 r1 nc.high n)
          fun low high => do apply .xor low high (← depth)
      else branch (applyUnique op l0 r0 cube n) (applyUnique op l1 r1 cube n) (mk level)

/-- Quantifies the variables of a cube that is not constant in the result of a connective. -/
def applyQuantifyCube (q : Quantifier) (op : Connective) (l r cube : NodeId) (n : Nat) :
    Program NodeId := do
  let set ← levelSet cube
  match q with
  | .unique => applyUnique op l r cube n
  | _ => applyQuantify q op set l r n

end Program

end DecisionDiagram
