/-
The choice of a reordering and the account of what it did.

* **`ReorderStats.gain`** — the whole percentage of nodes removed, by which the automatic reordering
  judges itself;
* **`AutoReorder`** — when the next automatic reordering may start.
-/

namespace DecisionDiagram

/-- How a reordering searches for a better order. -/
inductive ReorderMethod
  /-- Not at all. -/
  | off
  /-- Both orders of every two adjacent blocks. -/
  | win2
  /-- The same, until the size stays. -/
  | win2ite
  /-- All orders of every three adjacent blocks. -/
  | win3
  /-- The same, until the size stays. -/
  | win3ite
  /-- Every block at every position. -/
  | sift
  /-- The same, until the size stays. -/
  | siftite
deriving DecidableEq, Repr, Inhabited

namespace ReorderMethod

def name : ReorderMethod → String
  | off => "none"
  | win2 => "win2"
  | win2ite => "win2ite"
  | win3 => "win3"
  | win3ite => "win3ite"
  | sift => "sift"
  | siftite => "siftite"

/-- Without a choice there is no reordering. -/
def default : ReorderMethod := off

end ReorderMethod

/-- What a reordering did. Sizes are numbers of live nodes, terminals included. -/
structure ReorderStats where
  /-- Exchanges of two adjacent levels. -/
  swaps : Nat
  /-- Size after the unreachable nodes were dropped. -/
  initialSize : Nat
  /-- Size at the end. -/
  finalSize : Nat
deriving DecidableEq, Repr

namespace ReorderStats

/-- The part of the nodes that was removed; negative if the diagrams grew. -/
def ratio (s : ReorderStats) : Float :=
  if s.initialSize = 0 then 0.0
  else 1.0 - s.finalSize.toUInt64.toFloat / s.initialSize.toUInt64.toFloat

/-- The removed part as a percentage. -/
def percent (s : ReorderStats) : Float := s.ratio * 100.0

/-- The whole percentage of nodes removed; zero if the diagrams grew. -/
def gain (s : ReorderStats) : Nat :=
  if s.initialSize = 0 then 0 else 100 * (s.initialSize - s.finalSize) / s.initialSize

end ReorderStats

/-- The state of the automatic reordering. -/
structure AutoReorder where
  method : ReorderMethod
  /-- How many more times it may run; without a number there is no bound. -/
  times : Option Nat
  /-- How often it was switched off and not on again. -/
  disabled : Nat
  /-- It waits until this many nodes are in use. -/
  threshold : Nat
deriving DecidableEq, Inhabited, Repr

namespace AutoReorder

/-- Nothing runs by itself until a method is set. -/
def initial (capacity : Nat) : AutoReorder := ⟨.off, some 0, 0, capacity⟩

def disable (a : AutoReorder) : AutoReorder := { a with disabled := a.disabled + 1 }

def enable (a : AutoReorder) : AutoReorder := { a with disabled := a.disabled - 1 }

@[simp] theorem enable_disable (a : AutoReorder) : a.disable.enable = a := rfl

/-- Whether it is set up to run. -/
def isArmed (a : AutoReorder) : Bool := a.method != .off && a.times != some 0 && a.disabled == 0

/-- Takes one run off the number that is left. -/
def spend (a : AutoReorder) : AutoReorder := { a with times := a.times.map (· - 1) }

/-- Waits until twice as many nodes as now are in use, and longer the less a run gained below twenty
percent. -/
def rearm (a : AutoReorder) (used gain : Nat) : AutoReorder :=
  { a with threshold := 2 * used + (if gain < 20 then 2 * used * (20 - gain) / 20 else 0) }

end AutoReorder

end DecisionDiagram
