/-
Pairings: what is substituted for each variable.

A pairing is a table by level; a level that nothing was set for holds the literal of its own
variable. When two adjacent levels change places, so do their entries. Every modification gives the
pairing a new stamp, by which cached results are told apart.

* **`create`**, **`set?`**, **`reset?`**, **`extend`** — the updates by calls;
* **`swapDown`** — the update by a change of the variable order.
-/
import DecisionDiagram.Node

namespace DecisionDiagram

/-- One table of substitutes. -/
structure Pairing where
  /-- The substitute of each level. -/
  result : Array NodeId
  /-- No level below this one has an entry other than its own literal. -/
  last : Option Level
  /-- The number of the last modification. -/
  stamp : UInt32
deriving DecidableEq, Inhabited, Repr

/-- All pairings of a manager, numbered in the order of creation. -/
structure Pairings where
  tables : Array Pairing
  /-- The number of modifications so far. -/
  updates : Nat
deriving DecidableEq, Inhabited, Repr

namespace Pairings

def empty : Pairings := ⟨#[], 0⟩

/-- The stamp of the next modification. Stamps have 32 bits. -/
def nextStamp (p : Pairings) : UInt32 := UInt32.ofNat (p.updates + 1)

/-- Adds a pairing whose entries are `identity`; its number is the old number of pairings. -/
def create (p : Pairings) (identity : Array NodeId) : Pairings :=
  { tables := p.tables.push ⟨identity, none, p.nextStamp⟩, updates := p.updates + 1 }

/-- Updates a pairing under a new stamp. There has to be one with that number. -/
def update? (p : Pairings) (number : Nat) (f : Pairing → Pairing) : Option Pairings :=
  if number < p.tables.size then
    some {
      tables := p.tables.modify number fun t => { f t with stamp := p.nextStamp }
      updates := p.updates + 1 }
  else none

/-- Substitutes `id` at `level`. -/
def set? (p : Pairings) (number : Nat) (level : Level) (id : NodeId) : Option Pairings :=
  p.update? number fun t =>
    { t with
      result := t.result.setIfInBounds level id
      last := some (match t.last with | none => level | some last => max last level) }

/-- Sets every entry back to the literal of its level. -/
def reset? (p : Pairings) (number : Nat) (identity : Array NodeId) : Option Pairings :=
  p.update? number fun t => { t with result := identity, last := none }

/-- Appends the literals of new levels to every pairing; `identity` lists the literals of all
levels. -/
def extend (p : Pairings) (identity : Array NodeId) : Pairings :=
  { p with
    tables := p.tables.map fun t =>
      { t with result := t.result ++ identity.extract t.result.size identity.size } }

/-- Follows the exchange of `level` with the level below. -/
def swapDown (p : Pairings) (level : Level) : Pairings :=
  { p with
    tables := p.tables.map fun t =>
      { t with
        result := t.result.swapIfInBounds level (level + 1)
        last := if t.last = some level then some (level + 1) else t.last } }

@[simp] theorem size_swapDown (p : Pairings) (level : Level) :
    (p.swapDown level).tables.size = p.tables.size := by simp [swapDown]

/-- The substitutes of the two levels change places, and no other does. -/
theorem result_swapDown (p : Pairings) (level : Level) (number : Nat) :
    ((p.swapDown level).tables[number]?).map Pairing.result =
      (p.tables[number]?).map fun t => t.result.swapIfInBounds level (level + 1) := by
  simp only [swapDown, Array.getElem?_map, Option.map_map]
  rfl

/-- Every substitute. -/
def nodes (p : Pairings) : List NodeId := p.tables.toList.flatMap fun t => t.result.toList

end Pairings

end DecisionDiagram
