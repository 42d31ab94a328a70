/-
Blocks of variables that a reordering moves as a unit.

A block is a range of variables. Blocks are nested: two blocks are disjoint or one lies within the
other. The blocks within a block may change places unless the block is fixed; a block without
blocks in it keeps its order.

* **`VarForest.add`** — a new range finds its place in the forest, or is refused because it overlaps
  a block in part.
-/
import DecisionDiagram.Error

namespace DecisionDiagram

/-- The range of variables from `first` to `last`. -/
structure VarBlock where
  first : Var
  last : Var
  /-- Whether the blocks within keep their order. -/
  fixed : Bool
  /-- The largest blocks within, in increasing order. -/
  children : List VarBlock
deriving Inhabited, Repr

namespace VarBlock

/-- Whether two blocks are the same range. -/
def sameRange (b c : VarBlock) : Bool := b.first == c.first && b.last == c.last

/-- Whether the range of `c` lies within that of `b`. -/
def covers (b c : VarBlock) : Bool := b.first ≤ c.first && c.last ≤ b.last

/-- Whether two ranges have a variable in common. -/
def overlaps (b c : VarBlock) : Bool := b.first ≤ c.last && c.first ≤ b.last

/-- Puts a block between its siblings; those that it covers become its children. -/
def adopt (new : VarBlock) (siblings : List VarBlock) : Except Error (List VarBlock) :=
  if siblings.any fun b => b.overlaps new && !new.covers b then
    .error (.illegalVarBlock new.first new.last)
  else
    let (covered, rest) := siblings.partition fun b => b.overlaps new
    .ok ((rest ++ [{ new with children := covered }]).mergeSort fun b c => b.first ≤ c.first)

/-- Puts a block among `siblings`: a range that is there already stays as it is, a range within a
sibling goes down to the children of that sibling (`descended`), any other is adopted. -/
def place (new : VarBlock) (siblings : List VarBlock)
    (descended : Option (Except Error (List VarBlock))) : Except Error (List VarBlock) :=
  if siblings.any new.sameRange then .ok siblings
  else match descended with
    | some result => result
    | none => adopt new siblings

mutual

/-- Puts `new` among the children of a block. -/
def insertBelow (new : VarBlock) : VarBlock → Except Error VarBlock
  | ⟨first, last, fixed, children⟩ =>
    (place new children (descend new children)).map (VarBlock.mk first last fixed)

/-- Puts `new` below the first block of a list that covers it, if there is one. -/
def descend (new : VarBlock) : List VarBlock → Option (Except Error (List VarBlock))
  | [] => none
  | b :: rest =>
    if b.covers new then some ((insertBelow new b).map (· :: rest))
    else (descend new rest).map fun result => result.map (b :: ·)

end

end VarBlock

/-- The blocks that lie in no other block, in increasing order. -/
abbrev VarForest := List VarBlock

/-- Adds the range from `first` to `last`. A range that is there already is left as it is; one that
overlaps a block in part is refused. -/
def VarForest.add (forest : VarForest) (first last : Var) (fixed : Bool) :
    Except Error VarForest :=
  let new : VarBlock := ⟨first, last, fixed, []⟩
  if last < first then .error (.illegalVarBlock first last)
  else new.place forest (new.descend forest)

end DecisionDiagram
