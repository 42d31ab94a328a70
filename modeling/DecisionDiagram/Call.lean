/-
Operator calls.

A call checks its arguments first (`Request`). Then most have a program to run, which keeps the
operands alive. If a program is interrupted because a reordering is due, the reordering takes place
and the program starts over, this time without interruption.

* **`Manager.autoReorder`** — the automatic reordering, after which the next one is further off;
* **`Manager.perform`** — runs the program of a call;
* **`Manager.call`** — an operator call.
-/
import DecisionDiagram.Program
import DecisionDiagram.Reorder.Search

namespace DecisionDiagram

/-- What is left of an operator call when its arguments have been looked at. -/
inductive Task
  /-- The answer is known. -/
  | answer (f : NodeId)
  /-- A program has to be run, while the operands are kept; maybe one that no automatic reordering may
  interrupt. -/
  | perform (operands : List NodeId) (program : Program NodeId) (exclusive : Bool)

/-- An operator call. -/
structure Request where
  /-- The check of the arguments. -/
  check : Manager → Except Failure Unit
  task : Task

namespace Manager

/-- Runs the reordering that is set up, if one may start now, while `operands` are kept. An error in
it ends the reordering and not the call. -/
def autoReorder (operands : List NodeId) : Action Unit := fun m =>
  if m.reorderReady then
    let close (gain : Nat) (m : Manager) : Manager :=
      { m with operands := [], auto := m.auto.spend.rearm m.store.usedCount gain }
    match session (Reordering.reorderAll m.auto.method) { m with pending := [], operands } with
    | .ok stats m => .ok () (close stats.gain m)
    | .error .fault m => .error .fault m
    | .error (.error _) m => .ok () (close 0 m)
  else .ok () { m with auto := m.auto.rearm m.store.usedCount 0 }

/-- The manager in which a program is attempted: the operands are kept, and nothing else is. -/
def equip (operands : List NodeId) (m : Manager) : Manager := { m with pending := [], operands }

/-- Nothing is kept for a program any more. -/
def unequip (m : Manager) : Manager := { m with pending := [], operands := [] }

/-- Runs a program while `operands` are kept. -/
def attempt (operands : List NodeId) (p : Program NodeId) : Build NodeId := fun m =>
  match p.run (m.equip operands) with
  | .ok res m => .ok res m.unequip
  | .error e m => .error e m.unequip

/-- Runs a program that is not to be interrupted. -/
def attemptOnce (operands : List NodeId) (p : Program NodeId) : Action NodeId := fun m =>
  match attempt operands p m with
  | .ok res m => .ok res m
  | .error (.failure e) m => .error e m
  | .error .reorder m => .error .fault m

/-- Performs a program: checks the operands, and starts over once if a reordering is due. -/
def perform (operands : List NodeId) (p : Program NodeId) : Action NodeId := do
  Action.read (·.checkNodes operands)
  fun m =>
    match attempt operands p m with
    | .ok res m => .ok res m
    | .error (.failure e) m => .error e m
    | .error .reorder m =>
      (do
        autoReorder operands
        Action.withoutReorder (attemptOnce operands p)) m

/-- Calls an operator. -/
def call (request : Request) : Action NodeId := do
  Action.read request.check
  match request.task with
  | .answer f => return f
  | .perform operands p exclusive =>
    if exclusive then Action.withoutReorder (perform operands p) else perform operands p

end Manager

end DecisionDiagram
