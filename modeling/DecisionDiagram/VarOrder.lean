/-
The variable order: which variable stands at which level.

The order is kept as two tables that are inverse to each other. It changes in two ways only: new
variables are appended at the bottom (`append`), and two adjacent variables change places
(`exchange`).
-/
import DecisionDiagram.Node

namespace DecisionDiagram

/-- An exchange of two entries keeps the entries. -/
theorem swapIfInBounds_perm {α : Type} (xs : Array α) (i j : Nat) :
    (xs.swapIfInBounds i j).toList.Perm xs.toList := by
  rw [Array.swapIfInBounds_def]
  split
  · split
    · exact (Array.swap_perm _ _).toList
    · exact .refl _
  · exact .refl _

/-- The level of each variable and the variable at each level. -/
structure VarOrder where
  levelOf : Array Level
  varAt : Array Var
deriving DecidableEq, Inhabited, Repr

namespace VarOrder

/-- The order of no variables. -/
def empty : VarOrder := ⟨#[], #[]⟩

/-- Number of variables. -/
def size (o : VarOrder) : Nat := o.varAt.size

/-- Appends a new variable below all others. -/
def append (o : VarOrder) : VarOrder :=
  { levelOf := o.levelOf.push o.size, varAt := o.varAt.push o.size }

@[simp] theorem size_append (o : VarOrder) : o.append.size = o.size + 1 := by
  simp [append, size]

/-- Exchanges the variable `upper` at `level` with the variable `lower` right below it. -/
def exchange (o : VarOrder) (level : Level) (upper lower : Var) : VarOrder :=
  let ⟨levelOf, varAt⟩ := o
  ⟨(levelOf.setIfInBounds upper (level + 1)).setIfInBounds lower level,
    varAt.swapIfInBounds level (level + 1)⟩

@[simp] theorem size_exchange (o : VarOrder) (level : Level) (v w : Var) :
    (o.exchange level v w).size = o.size := by
  simp [exchange, size]

/-- The variables from the top level to the bottom level. -/
def toList (o : VarOrder) : List Var := o.varAt.toList

/-- An exchange keeps the variables. -/
theorem toList_exchange_perm (o : VarOrder) (level : Level) (v w : Var) :
    (o.exchange level v w).toList.Perm o.toList := swapIfInBounds_perm _ _ _

/-- The variables of the levels from `top` to `bottom`. -/
def slice (o : VarOrder) (top bottom : Level) : List Var :=
  (o.varAt.extract top (bottom + 1)).toList

/-- The levels of the variables from `first` to `last`. -/
def levels (o : VarOrder) (first last : Var) : List Level :=
  (List.range' first (last + 1 - first)).map fun v => o.levelOf.getD v 0

/-- The highest and the lowest level of the variables from `first` to `last`. -/
def extent (o : VarOrder) (first last : Var) : Level × Level :=
  let levels := o.levels first last
  (levels.min?.getD 0, levels.max?.getD 0)

end VarOrder

end DecisionDiagram
