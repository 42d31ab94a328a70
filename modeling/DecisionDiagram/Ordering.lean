/-
Changes of the variable order as calls.

* **`Manager.reorder`** — a search for a better order;
* **`Manager.swapVar`**, **`Manager.setVarOrder`** — an order that the caller chooses, which is
  refused while blocks are configured;
* **`Manager.addVarBlock`** — variables that stay together in later searches.
-/
import DecisionDiagram.Reorder.Search
import DecisionDiagram.Variables

namespace DecisionDiagram.Manager

/-- Searches for a better order. Without a method, or with less than two variables, nothing is
done. -/
def reorder (method : ReorderMethod) : Action ReorderStats := fun m =>
  let m := { m with pending := [] }
  if method = .off || m.varNum < 2 then .ok ⟨0, m.store.usedCount, m.store.usedCount⟩ m
  else session (Reordering.reorderAll method) m

/-- Sets up the automatic reordering and answers the method before. Without a number of times it may
run any number of them. -/
def setAutoReorder (method : ReorderMethod) (times : Option Nat) : Action ReorderMethod :=
  Action.previous (·.auto.method) fun m => { m with auto := { m.auto with method, times } }

/-- Switches the automatic reordering off until it is switched on as often. -/
def disableReorder : Action Unit := modify fun m => { m with auto := m.auto.disable }

def enableReorder : Action Unit := modify fun m => { m with auto := m.auto.enable }

/-- Does some work in a session that has no answer. -/
def rearrange (body : Reordering Unit) : Action Unit := do
  modify fun m => { m with pending := [] }
  let _ ← session body

/-- Lets the variable `upper` go down to the level `bottom`, and `lower` up to the level `top`. -/
def exchangeAcross (upper lower : Var) (top bottom : Level) : Reordering Unit := do
  let steps := (← get).manager.depth
  Reordering.lowerTo upper bottom steps
  Reordering.raiseTo lower top steps

/-- Two variables exchange their levels. -/
def swapVar (v w : Var) : Action Unit := do
  if !(← get).forest.isEmpty then Action.fail .blocksConfigured
  else
    Action.read (·.checkVar v)
    Action.read (·.checkVar w)
    if v = w then return
    else
      let levelV ← Action.read (·.levelOf v)
      let levelW ← Action.read (·.levelOf w)
      if levelV < levelW then rearrange (exchangeAcross v w levelV levelW)
      else rearrange (exchangeAcross w v levelW levelV)

/-- Moves each variable of a list up to the next level, starting from `level`. -/
def imposeFrom (level : Level) : List Var → Reordering Unit
  | [] => return
  | v :: rest => do
    Reordering.raiseTo v level (← get).manager.depth
    imposeFrom (level + 1) rest

/-- Whether the variables of a list are all below `n`, and each comes up for the first time. -/
def comesUpOnce (n : Nat) (seen : BitSet) : List Var → Bool
  | [] => true
  | v :: rest => v < n && !seen.contains v && comesUpOnce n (seen.insert v) rest

/-- Whether a list holds every variable below `n` exactly once. -/
def isPermutation (n : Nat) (vars : List Var) : Bool :=
  vars.length == n && comesUpOnce n (.ofCapacity n) vars

/-- Imposes an order, which lists every variable once from the top level down. -/
def setVarOrder (vars : List Var) : Action Unit := do
  let m ← get
  if !m.forest.isEmpty then Action.fail .blocksConfigured
  else if !isPermutation m.varNum vars then Action.fail .invalidOrder
  else rearrange (imposeFrom 0 vars)

/-- Makes the variables from `first` to `last`, which must stand at consecutive levels, a block. -/
def addVarBlock (first last : Var) (fixed : Bool) : Action Unit := do
  Action.read (·.checkVar first)
  Action.read (·.checkVar last)
  let m ← get
  let (top, bottom) := m.order.extent first last
  if last < first || bottom - top != last - first then Action.fail (.illegalVarBlock first last)
  else
    match VarForest.add m.forest first last fixed with
    | .error e => Action.fail e
    | .ok forest => modify fun m => { m with forest }

/-- Forgets all blocks. -/
def clearVarBlocks : Action Unit := modify fun m => { m with forest := [] }

end DecisionDiagram.Manager
