/-
What can go wrong in a call, and how it is reported.

An `Error` is an answer that a caller can meet. A `Failure` adds the case of a broken invariant, in
which there is no answer at all: an id, level or variable that points past its table, a table
without a vacancy, a node recorded twice. An `Interrupt` adds the request for a reordering, which
only exists inside an operator.
-/
import DecisionDiagram.Node

namespace DecisionDiagram

/-- What is wrong with a configuration value. -/
inductive ConfigIssue
  | capacityTooSmall
  | capacityTooLarge
  | cacheBits
  | limitBelowCapacity
  | limitNotAboveCapacity
  | increaseFactor
  | freePercent
deriving DecidableEq, Repr

def ConfigIssue.message : ConfigIssue → String
  | capacityTooSmall => "node capacity must be at least 4"
  | capacityTooLarge => "node capacity does not fit node ids"
  | cacheBits => "cache bits must be in range 0..=31"
  | limitBelowCapacity => "node limit is below the initial capacity"
  | limitNotAboveCapacity => "node limit must exceed the current capacity"
  | increaseFactor => "increase factor must be finite and non-negative"
  | freePercent => "minimum free percentage must be in range 0..=100"

/-- An error that a call reports. -/
inductive Error
  /-- The variable or level is not below the number of variables. -/
  | unknownVariable (var : Var)
  /-- The id does not name a live node, or not one that the call admits. -/
  | illegalNode (id : NodeId)
  /-- The node is no set of variables. -/
  | illegalVarSet (id : NodeId)
  /-- The number of variables never shrinks. -/
  | decreasingVarCount (current requested : Nat)
  /-- The number of variables is zero or above the supported maximum. -/
  | tooManyVariables (requested : Nat)
  /-- A configuration value is out of its range. -/
  | invalidConfig (issue : ConfigIssue)
  /-- A block of variables overlaps another one in part. -/
  | illegalVarBlock (first last : Var)
  /-- A renaming brings a variable onto a level that its subgraph uses. -/
  | replaceConflict
  /-- A list of variables is not a permutation of all of them. -/
  | invalidOrder
  /-- The order is not changed by hand while blocks are configured. -/
  | blocksConfigured
  /-- The node store cannot grow any further. -/
  | nodeLimit
  /-- The shared graph is not as it has to be. -/
  | corrupted (details : String)
deriving DecidableEq, Repr

namespace Error

/-- The text of an error. -/
def message : Error → String
  | unknownVariable v => "unknown variable " ++ Var.text v
  | illegalNode id => "illegal node reference " ++ id.text
  | illegalVarSet id => "node " ++ id.text ++ " is not a variable set"
  | decreasingVarCount current requested =>
    "cannot decrease variable count from " ++ toString current ++ " to " ++ toString requested
  | tooManyVariables n => "variable count " ++ toString n ++ " exceeds the supported maximum"
  | invalidConfig issue => "invalid configuration: " ++ issue.message
  | illegalVarBlock first last =>
    "variable block " ++ Var.text first ++ "..=" ++ Var.text last
      ++ " partially overlaps another block"
  | replaceConflict => "replacement would break the variable order"
  | invalidOrder => "variable order is not a permutation of all variables"
  | blocksConfigured => "variable blocks are configured"
  | nodeLimit => "node limit reached"
  | corrupted details => "corrupted node graph: " ++ details

/-- Whether the error stands until it is cleared. Only the exhaustion of the store does. -/
def isSticky : Error → Bool
  | nodeLimit => true
  | _ => false

end Error

/-- Why a call ends without a result. -/
inductive Failure
  /-- The call reports an error. -/
  | error (e : Error)
  /-- An invariant is broken and there is no answer. -/
  | fault
deriving DecidableEq, Repr

/-- Why an operator stops before its end. -/
inductive Interrupt
  /-- A reordering is due; the call starts over after it. -/
  | reorder
  /-- The call fails. -/
  | failure (f : Failure)
deriving DecidableEq, Repr

/-- The interrupt of a call that reports an error. -/
def Interrupt.error (e : Error) : Interrupt := .failure (.error e)

/-- The interrupt of a broken invariant. -/
def Interrupt.fault : Interrupt := .failure .fault

end DecisionDiagram
