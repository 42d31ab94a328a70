/-
The manager: a store of shared nodes with everything that names or indexes them.

A call is an `Action`: it reads and changes the manager, and ends with an answer or a failure. A
failed call leaves the manager as it was when the failure arose, which is part of its meaning.
Inside a call, operators are of type `Build` and can be interrupted for a reordering.

* **`Manager.create`** — a manager without variables, from a valid configuration;
* **`checkNode`**, **`checkVar`** — the tests that calls make of their arguments;
* **`rootNodes`** — what a collection has to keep.
-/
import DecisionDiagram.ComputedTable
import DecisionDiagram.Config
import DecisionDiagram.Growth
import DecisionDiagram.Reorder.Method
import DecisionDiagram.Roots
import DecisionDiagram.Store
import DecisionDiagram.Substitution
import DecisionDiagram.UniqueTable
import DecisionDiagram.VarBlock
import DecisionDiagram.VarOrder

namespace DecisionDiagram

/-- What has happened since a manager was created. -/
structure Counters where
  /-- Nodes created, but not the ones that were there already. -/
  produced : Nat
  /-- Collections. -/
  collections : Nat
  /-- Growth steps of the store. -/
  growths : Nat
  /-- Reordering sessions. -/
  reorders : Nat
deriving DecidableEq, Inhabited, Repr

/-- A family of decision diagrams with shared nodes. -/
structure Manager where
  store : Store
  /-- The index of the live nodes by their records. -/
  table : UniqueTable
  /-- The results of earlier operator calls. -/
  computed : ComputedTable
  config : Config
  order : VarOrder
  /-- The positive and the negative literal of each variable. -/
  literals : Array (NodeId × NodeId)
  /-- Intermediate results of the running operator, the latest first. -/
  pending : List NodeId
  /-- The operands of the running call. -/
  operands : List NodeId
  /-- The nodes protected from outside. -/
  roots : Roots
  pairings : Pairings
  forest : VarForest
  auto : AutoReorder
  /-- The error that stands until it is cleared. -/
  error : Option Error
  counters : Counters

/-- A public call. -/
abbrev Action := EStateM Failure Manager

/-- The work of an operator within a call. -/
abbrev Build := EStateM Interrupt Manager

namespace Manager

/-- The largest number of variables. -/
def maxVars : Nat := 0x1FFFFF

/-- A manager without variables. -/
def create (config : Config) : Except Failure Manager :=
  match config.validate with
  | .error e => .error (.error e)
  | .ok _ =>
    match Store.ofCapacity? config.nodeCapacity 0 with
    | none => .error .fault
    | some store =>
      .ok {
        store
        table := UniqueTable.ofCapacity config.nodeCapacity
        computed := ComputedTable.ofBits config.cacheBits
        config
        order := VarOrder.empty
        literals := #[]
        pending := []
        operands := []
        roots := Roots.empty
        pairings := Pairings.empty
        forest := []
        auto := AutoReorder.initial config.nodeCapacity
        error := none
        counters := ⟨0, 0, 0, 0⟩ }

/-- Number of variables. -/
def varNum (m : Manager) : Nat := m.order.size

/-- A bound on the depth of a recursion that goes down in the order with every step. -/
def depth (m : Manager) : Nat := m.varNum + 2

/-- A bound on the depth of a traversal that marks a new node with every step. -/
def extent (m : Manager) : Nat := m.store.nodes.size + 1

/-- A variable has to be below the number of variables. -/
def checkVar (m : Manager) (v : Var) : Except Failure Unit :=
  if v < m.varNum then .ok () else .error (.error (.unknownVariable v))

/-- A node has to be live. -/
def checkNode (m : Manager) (id : NodeId) : Except Failure Unit :=
  if m.store.isLive id then .ok () else .error (.error (.illegalNode id))

/-- Every node of a list has to be live. -/
def checkNodes (m : Manager) : List NodeId → Except Failure Unit
  | [] => .ok ()
  | id :: rest =>
    match m.checkNode id with
    | .error e => .error e
    | .ok _ => m.checkNodes rest

/-- A node has to be live and no terminal. -/
def checkInner (m : Manager) (id : NodeId) : Except Failure Unit := do
  m.checkNode id
  if id.isTerminal then throw (.error (.illegalNode id))

/-- The record of a node. -/
def node (m : Manager) (id : NodeId) : Except Failure Node :=
  match m.store.node? id with
  | some n => .ok n
  | none => .error .fault

/-- The variable at a level. -/
def varAt (m : Manager) (level : Level) : Except Failure Var :=
  match m.order.varAt[level]? with
  | some v => .ok v
  | none => .error .fault

/-- The level of a variable. -/
def levelOf (m : Manager) (v : Var) : Except Failure Level :=
  match m.order.levelOf[v]? with
  | some level => .ok level
  | none => .error .fault

/-- The pairing with a number. -/
def pairing (m : Manager) (number : Nat) : Except Failure Pairing :=
  match m.pairings.tables[number]? with
  | some p => .ok p
  | none => .error .fault

/-- The positive literals from the top level down. -/
def identity (m : Manager) : Array NodeId := m.order.varAt.map fun v => (m.literals.getD v (0, 0)).1

/-- The nodes that a collection keeps, together with all below them. Terminals are kept anyway. -/
def rootNodes (m : Manager) : List NodeId :=
  (m.pending ++ m.operands ++ m.roots.nodes
    ++ m.literals.toList.flatMap (fun (pos, neg) => [pos, neg]) ++ m.pairings.nodes).filter
    fun id => !id.isTerminal

/-- Whether an automatic reordering may start now. -/
def reorderReady (m : Manager) : Bool := m.auto.isArmed && 1 < m.varNum

end Manager

namespace Action

variable {α : Type}

/-- A call that changes nothing. -/
def read (f : Manager → Except Failure α) : Action α := fun m =>
  match f m with
  | .ok a => .ok a m
  | .error e => .error e m

/-- A call that reports an error. -/
def fail (e : Error) : Action α := throw (.error e)

/-- Does `act` while the automatic reordering is off. -/
def withoutReorder (act : Action α) : Action α := fun m =>
  match act { m with auto := m.auto.disable } with
  | .ok a m => .ok a { m with auto := m.auto.enable }
  | .error e m => .error e { m with auto := m.auto.enable }

/-- Does `act` and answers with `f` of the manager before it. -/
def previous (f : Manager → α) (update : Manager → Manager) : Action α := fun m =>
  .ok (f m) (update m)

end Action

end DecisionDiagram
