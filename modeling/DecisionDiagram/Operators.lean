/-
The operators as calls.

Each call checks its arguments and asks for the operator's program to be run. Operators that are
given a constant in place of a set of variables answer at once.

* connectives: **`not`**, **`apply`**, **`andMany`**, **`orMany`**, **`ite`**;
* sets of variables and quantification: **`makeSet`**, **`quantify`**, **`appQuantify`**;
* cofactors: **`restrict`**, **`constrain`**, **`simplify`**;
* substitution: **`compose`**, **`vecCompose`**, **`replace`**, and the pairings for it;
* witnesses and support: **`satOne`**, **`satOneSet`**, **`fullSatOne`**, **`support`**.
-/
import DecisionDiagram.Call
import DecisionDiagram.Operator.Cofactor
import DecisionDiagram.Operator.Quantify
import DecisionDiagram.Operator.Substitute
import DecisionDiagram.Operator.Witness

namespace DecisionDiagram

namespace Program

/-- The conjunction of the variables at the given levels. -/
def cube (levels : List Level) : Program NodeId :=
  cubeOfLevels (BitSet.empty.insertMany levels).toList.reverse NodeId.top

/-- The levels of a list of variables. -/
def levelsOf : List Var → Program (List Level)
  | [] => return []
  | v :: rest => do
    let level ← levelOf v
    return level :: (← levelsOf rest)

end Program

namespace Manager

/-- Every variable of a list has to be known. -/
def checkVars (m : Manager) : List Var → Except Failure Unit
  | [] => .ok ()
  | v :: rest =>
    match m.checkVar v with
    | .error e => .error e
    | .ok _ => m.checkVars rest

/-- A child has to be live and below `level`. -/
def checkChild (m : Manager) (level : Level) (child : NodeId) : Except Failure Unit := do
  m.checkNode child
  if (← m.node child).level ≤ level then throw (.error (.illegalNode child))

end Manager

namespace Request

/-- A call whose operands need no check but that they are live. -/
def plain (operands : List NodeId) (p : Program NodeId) : Request where
  check _ := .ok ()
  task := .perform operands p false

/-- The same for a recursion, which is given a bound on its depth. -/
def bounded (operands : List NodeId) (p : Nat → Program NodeId) : Request :=
  plain operands do p (← Program.depth)

/-- Checks `f` and answers it. -/
def checked (f : NodeId) : Request where
  check m := m.checkNode f
  task := .answer f

/-! ### Nodes -/

/-- The node with the given record, which has to respect the order. -/
def makeNode (level : Level) (low high : NodeId) : Request where
  check m := do
    if m.varNum ≤ level then throw (.error (.unknownVariable level))
    m.checkChild level low
    m.checkChild level high
  task := .perform [low, high] (Program.mk level low high) true

/-! ### Connectives -/

/-- The negation. -/
def not (f : NodeId) : Request := bounded [f] (Program.not f)

/-- A binary connective. -/
def apply (op : Connective) (l r : NodeId) : Request := bounded [l, r] (Program.apply op l r)

/-- The conjunction of a list. -/
def andMany (fs : List NodeId) : Request := plain fs (Program.applyMany .and fs NodeId.top)

/-- The disjunction of a list. -/
def orMany (fs : List NodeId) : Request := plain fs (Program.applyMany .or fs NodeId.bot)

/-- The diagram `g` where `f` holds, and `h` elsewhere. -/
def ite (f g h : NodeId) : Request := bounded [f, g, h] (Program.ite f g h)

/-! ### Sets of variables and quantification -/

/-- The cube of the variables in a list, which stands for their set. -/
def makeSet (vars : List Var) : Request where
  check m := m.checkVars vars
  task := .perform [] (do Program.cube (← Program.levelsOf vars)) false

/-- Quantifies the variables of a cube; one that is constant has none. -/
def quantify (q : Quantifier) (f cube : NodeId) : Request :=
  if cube.isTerminal then checked f else bounded [f, cube] (Program.quantifyCube q f cube)

/-- Quantifies the variables of a cube in the result of a connective, which is not built in full. -/
def appQuantify (q : Quantifier) (op : Connective) (l r cube : NodeId) : Request :=
  if cube.isTerminal then apply op l r
  else bounded [l, r, cube] (Program.applyQuantifyCube q op l r cube)

/-! ### Cofactors -/

/-- Fixes the variables of a cube of literals; a constant cube fixes none. -/
def restrict (f cube : NodeId) : Request :=
  if cube.isTerminal then checked f else bounded [f, cube] (Program.restrictCube f cube)

/-- The generalised cofactor for a care set. -/
def constrain (f care : NodeId) : Request := bounded [f, care] (Program.constrain f care)

/-- A small diagram that agrees with `f` on the care set. -/
def simplify (f care : NodeId) : Request := bounded [f, care] (Program.simplify f care)

/-! ### Substitution -/

/-- Substitutes `g` for a variable. -/
def compose (f g : NodeId) (v : Var) : Request :=
  { bounded [f, g] fun n => do Program.compose (← Program.levelOf v) f g n with
    check := (·.checkVar v) }

/-- Substitutes by a pairing, which has to exist. -/
def withPairing (f : NodeId) (number : Nat) (p : Nat → Program NodeId) : Request :=
  { bounded [f] p with
    check m := do
      m.checkNode f
      let _ ← m.pairing number }

/-- Substitutes all variables by a pairing, at once. -/
def vecCompose (f : NodeId) (number : Nat) : Request :=
  withPairing f number (Program.vecComposeBy f number)

/-- Renames the variables by a pairing. -/
def replace (f : NodeId) (number : Nat) : Request :=
  withPairing f number (Program.renameBy f number)

/-! ### Witnesses and support -/

/-- A call that no automatic reordering interrupts. -/
def exclusive (check : Manager → Except Failure Unit) (operands : List NodeId)
    (p : Nat → Program NodeId) : Request where
  check
  task := .perform operands (do p (← Program.depth)) true

/-- One satisfying cube, along low branches where possible; false if there is none. -/
def satOne (f : NodeId) : Request :=
  if f.isTerminal then ⟨fun _ => .ok (), .answer f⟩
  else exclusive (fun _ => .ok ()) [f] (Program.satOne f)

/-- One satisfying cube with a literal for each variable of `cube`; those that `f` does not decide
get the value `polarity`. -/
def satOneSet (f cube : NodeId) (polarity : Bool) : Request :=
  let check (m : Manager) : Except Failure Unit := do
    m.checkNode cube
    if cube.isBot then throw (.error (.illegalVarSet cube))
  if f.isBot then ⟨check, .answer f⟩
  else exclusive check [f, cube] (Program.satOneSet polarity f cube)

/-- One satisfying cube with a literal for every variable, false where it is free to choose. -/
def fullSatOne (f : NodeId) : Request :=
  if f.isBot then checked f
  else exclusive (fun _ => .ok ()) [f] (Program.fullSatOneFromTop f)

/-- The cube of the variables that `f` depends on. -/
def support (f : NodeId) : Request := plain [f] do Program.cube (← Program.levelsBelow f)

end Request

namespace Manager

/-! ### Pairings -/

/-- A new pairing, in which every variable stands for itself; answers its number. -/
def newPairing : Action Nat :=
  Action.previous (·.pairings.tables.size) fun m =>
    { m with pairings := m.pairings.create m.identity }

/-- Replaces the pairings, if the update has an answer. -/
def updatePairings (f : Manager → Option Pairings) : Action Unit := fun m =>
  match f m with
  | none => .error .fault m
  | some pairings => .ok () { m with pairings }

/-- Enters the literal of `new` for the variable `old`. -/
def setPair (number : Nat) (old new : Var) : Action Unit := do
  Action.read (·.checkVar old)
  Action.read (·.checkVar new)
  let level ← Action.read (·.levelOf old)
  updatePairings fun m => do m.pairings.set? number level (← m.literals[new]?).1

/-- Enters a diagram for the variable `old`. -/
def setPairNode (number : Nat) (old : Var) (g : NodeId) : Action Unit := do
  Action.read (·.checkVar old)
  Action.read (·.checkNode g)
  let level ← Action.read (·.levelOf old)
  updatePairings fun m => m.pairings.set? number level g

/-- Lets every variable stand for itself again. -/
def resetPairing (number : Nat) : Action Unit :=
  updatePairings fun m => m.pairings.reset? number m.identity

end Manager

end DecisionDiagram
