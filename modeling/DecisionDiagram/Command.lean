/-
The public calls as data.

A `Command` is a call with its arguments, an `Answer` what it answers. A run performs commands one
after the other: a failing call leaves the next one the manager in the state in which it failed.

* **`Command.perform`** — the call that a command stands for; `Command.request?` and `Command.count?`
  are the parts of it that run a program;
* **`Command.run`** — what a command answers, and the manager after it;
* **`Manager.Reachable`** — a manager that calls can lead to, from a valid configuration;
* **`Manager.Settled`** — the same, as long as every request for more variables found room.
-/
import DecisionDiagram.Counting
import DecisionDiagram.Evaluation
import DecisionDiagram.Operators
import DecisionDiagram.Ordering
import DecisionDiagram.Settings
import DecisionDiagram.Validation
import DecisionDiagram.Variables

namespace DecisionDiagram

/-- A public call. -/
inductive Command
  -- Variables and nodes
  | setVarNum (num : Nat)
  | extVarNum (extra : Nat)
  | ithVar (v : Var)
  | nithVar (v : Var)
  | varToLevel (v : Var)
  | levelToVar (level : Level)
  | levelOf (f : NodeId)
  | varOf (f : NodeId)
  | low (f : NodeId)
  | high (f : NodeId)
  | makeNode (level : Level) (low high : NodeId)
  | protect (f : NodeId)
  | release (f : NodeId)
  | gc
  -- Operators
  | not (f : NodeId)
  | apply (op : Connective) (l r : NodeId)
  | andMany (fs : List NodeId)
  | orMany (fs : List NodeId)
  | ite (f g h : NodeId)
  | makeSet (vars : List Var)
  | quantify (q : Quantifier) (f cube : NodeId)
  | appQuantify (q : Quantifier) (op : Connective) (l r cube : NodeId)
  | restrict (f cube : NodeId)
  | constrain (f care : NodeId)
  | simplify (f care : NodeId)
  | compose (f g : NodeId) (v : Var)
  | vecCompose (f : NodeId) (number : Nat)
  | replace (f : NodeId) (number : Nat)
  | newPairing
  | setPair (number : Nat) (old new : Var)
  | setPairNode (number : Nat) (old : Var) (g : NodeId)
  | resetPairing (number : Nat)
  | satOne (f : NodeId)
  | satOneSet (f cube : NodeId) (polarity : Bool)
  | fullSatOne (f : NodeId)
  | support (f : NodeId)
  -- Values and counts
  | eval (f : NodeId) (assignment : Array Bool)
  | allSat (f : NodeId) (limit : Nat)
  | satCount (f : NodeId)
  | satCountSet (f cube : NodeId)
  | satCountExact (f : NodeId)
  | pathCount (f : NodeId)
  | nodeCount (f : NodeId)
  | nodeCountMany (fs : List NodeId)
  | varProfile (f : NodeId)
  | descendants (fs : List NodeId)
  | validate (f : NodeId)
  | validateAll
  -- The order
  | reorder (method : ReorderMethod)
  | setAutoReorder (method : ReorderMethod) (times : Option Nat)
  | disableReorder
  | enableReorder
  | swapVar (v w : Var)
  | setVarOrder (vars : List Var)
  | addVarBlock (first last : Var) (fixed : Bool)
  | clearVarBlocks
  -- Settings
  | clearError
  | setMaxNodes (limit : Nat)
  | setMaxIncrease (increase : Nat)
  | setIncreaseFactor (factor : Float)
  | setMinFreePercent (percent : Nat)
  | setCacheRatio (ratio : Nat)
  | setCachePolicy (policy : CachePolicy)
  | setCacheBits (bits : Nat)

/-- What a call answers. -/
inductive Answer
  | done
  | node (id : NodeId)
  | nodes (ids : List NodeId)
  | truth (b : Bool)
  | number (n : Nat)
  | numbers (ns : Array Nat)
  | float (x : Float)
  | paths (ps : List Manager.PartialAssignment)
  | stats (s : ReorderStats)
  | method (method : ReorderMethod)
  | policy (policy : CachePolicy)

namespace Command

/-- What an operator asks for, for the commands that are operators. -/
def request? : Command → Option Request
  | makeNode level l h => some (Request.makeNode level l h)
  | not f => some (Request.not f)
  | apply op l r => some (Request.apply op l r)
  | andMany fs => some (Request.andMany fs)
  | orMany fs => some (Request.orMany fs)
  | ite f g h => some (Request.ite f g h)
  | makeSet vars => some (Request.makeSet vars)
  | quantify q f cube => some (Request.quantify q f cube)
  | appQuantify q op l r cube => some (Request.appQuantify q op l r cube)
  | restrict f cube => some (Request.restrict f cube)
  | constrain f care => some (Request.constrain f care)
  | simplify f care => some (Request.simplify f care)
  | compose f g v => some (Request.compose f g v)
  | vecCompose f number => some (Request.vecCompose f number)
  | replace f number => some (Request.replace f number)
  | satOne f => some (Request.satOne f)
  | satOneSet f cube polarity => some (Request.satOneSet f cube polarity)
  | fullSatOne f => some (Request.fullSatOne f)
  | support f => some (Request.support f)
  | _ => none

/-- What a count runs, for the commands that are counts. -/
def count? : Command → Option (Program Float)
  | satCount f => some (.satCount f)
  | satCountSet f cube => some (.satCountSet f cube)
  | pathCount f => some (.pathCount f)
  | _ => none

/-- The call that a command stands for. -/
def perform : Command → Action Answer
  | setVarNum num => do
    Manager.setVarNum num
    return .done
  | extVarNum extra => return .number (← Manager.extVarNum extra)
  | ithVar v => return .node (← Action.read (·.ithVar v))
  | nithVar v => return .node (← Action.read (·.nithVar v))
  | varToLevel v => return .number (← Action.read (·.varToLevel v))
  | levelToVar level => return .number (← Action.read (·.levelToVar level))
  | levelOf f => return .number (← Action.read (·.levelOfNode f))
  | varOf f => return .number (← Action.read (·.varOf f))
  | low f => return .node (← Action.read (·.low f))
  | high f => return .node (← Action.read (·.high f))
  | makeNode level l h => return .node (← Manager.call (Request.makeNode level l h))
  | protect f => return .node (← Manager.protect f)
  | release f => return .truth (← Manager.release f)
  | gc => return .number (← Manager.gc)
  | not f => return .node (← Manager.call (Request.not f))
  | apply op l r => return .node (← Manager.call (Request.apply op l r))
  | andMany fs => return .node (← Manager.call (Request.andMany fs))
  | orMany fs => return .node (← Manager.call (Request.orMany fs))
  | ite f g h => return .node (← Manager.call (Request.ite f g h))
  | makeSet vars => return .node (← Manager.call (Request.makeSet vars))
  | quantify q f cube => return .node (← Manager.call (Request.quantify q f cube))
  | appQuantify q op l r cube => return .node (← Manager.call (Request.appQuantify q op l r cube))
  | restrict f cube => return .node (← Manager.call (Request.restrict f cube))
  | constrain f care => return .node (← Manager.call (Request.constrain f care))
  | simplify f care => return .node (← Manager.call (Request.simplify f care))
  | compose f g v => return .node (← Manager.call (Request.compose f g v))
  | vecCompose f number => return .node (← Manager.call (Request.vecCompose f number))
  | replace f number => return .node (← Manager.call (Request.replace f number))
  | newPairing => return .number (← Manager.newPairing)
  | setPair number old new => do
    Manager.setPair number old new
    return .done
  | setPairNode number old g => do
    Manager.setPairNode number old g
    return .done
  | resetPairing number => do
    Manager.resetPairing number
    return .done
  | satOne f => return .node (← Manager.call (Request.satOne f))
  | satOneSet f cube polarity => return .node (← Manager.call (Request.satOneSet f cube polarity))
  | fullSatOne f => return .node (← Manager.call (Request.fullSatOne f))
  | support f => return .node (← Manager.call (Request.support f))
  | eval f assignment => return .truth (← Action.read (·.eval f assignment))
  | allSat f limit => return .paths (← Action.read (·.allSat f limit))
  | satCount f => return .float (← Manager.count (.satCount f))
  | satCountSet f cube => return .float (← Manager.count (.satCountSet f cube))
  | satCountExact f => return .number (← Action.read (·.satCountExact f))
  | pathCount f => return .float (← Manager.count (.pathCount f))
  | nodeCount f => return .number (← Action.read (·.nodeCount f))
  | nodeCountMany fs => return .number (← Action.read (·.nodeCountMany fs))
  | varProfile f => return .numbers (← Action.read (·.varProfile f))
  | descendants fs => return .nodes (← Action.read (·.descendants fs))
  | validate f => do
    Action.read (·.validate f)
    return .done
  | validateAll => do
    Action.read (·.validateAll)
    return .done
  | reorder method => return .stats (← Manager.reorder method)
  | setAutoReorder method times => return .method (← Manager.setAutoReorder method times)
  | disableReorder => do
    Manager.disableReorder
    return .done
  | enableReorder => do
    Manager.enableReorder
    return .done
  | swapVar v w => do
    Manager.swapVar v w
    return .done
  | setVarOrder vars => do
    Manager.setVarOrder vars
    return .done
  | addVarBlock first last fixed => do
    Manager.addVarBlock first last fixed
    return .done
  | clearVarBlocks => do
    Manager.clearVarBlocks
    return .done
  | clearError => do
    Manager.clearError
    return .done
  | setMaxNodes limit => return .number (← Manager.setMaxNodes limit)
  | setMaxIncrease increase => return .number (← Manager.setMaxIncrease increase)
  | setIncreaseFactor factor => return .float (← Manager.setIncreaseFactor factor)
  | setMinFreePercent percent => return .number (← Manager.setMinFreePercent percent)
  | setCacheRatio ratio => return .number (← Manager.setCacheRatio ratio)
  | setCachePolicy policy => return .policy (← Manager.setCachePolicy policy)
  | setCacheBits bits => return .number (← Manager.setCacheBits bits)

/-- What a command answers, and the manager after it. -/
def run (c : Command) (m : Manager) : Except Failure Answer × Manager :=
  match c.perform m with
  | .ok answer m => (.ok answer, m)
  | .error e m => (.error e, m)

end Command

/-- Whether a command asks for more variables. -/
def Command.isExtension : Command → Bool
  | setVarNum _ => true
  | extVarNum _ => true
  | _ => false

namespace Manager

/-- A manager that a sequence of calls can lead to. The calls may fail, but a call without an answer
ends the sequence. -/
inductive Reachable : Manager → Prop
  | create {config : Config} {m : Manager} (h : Manager.create config = .ok m) : Reachable m
  | call {m : Manager} (c : Command) (hm : Reachable m) (h : (c.run m).1 ≠ .error .fault) :
    Reachable (c.run m).2

/-- A manager that a sequence of calls can lead to, among them none that asked for more variables
than the store had room for. Such a call may stop between the two literals of a variable. -/
inductive Settled : Manager → Prop
  | create {config : Config} {m : Manager} (h : Manager.create config = .ok m) : Settled m
  | call {m : Manager} (c : Command) (hm : Settled m) (h : (c.run m).1 ≠ .error .fault)
    (complete : c.isExtension = true → (c.run m).1 ≠ .error (.error .nodeLimit)) :
    Settled (c.run m).2

theorem Settled.reachable {m : Manager} (h : Settled m) : Reachable m := by
  induction h with
  | create h => exact .create h
  | call c _ h _ ih => exact .call c ih h

end Manager

end DecisionDiagram
