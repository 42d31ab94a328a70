/-
Nodes of a decision diagram and the names for them.

A node is named by the slot of the store that holds it. The slots 0 and 1 hold the two terminals,
which are their own children. Variables are numbered in the order of their creation and keep
their number; levels are positions in the current variable order, the top one being 0, and the
terminals stand below all variables, at the level equal to the number of variables.
-/
import DecisionDiagram.Hash

namespace DecisionDiagram

/-- The name of a node: its slot in the store. -/
abbrev NodeId := Nat

/-- A variable, numbered in the order of creation. -/
abbrev Var := Nat

/-- A position in the variable order, counted from the top. -/
abbrev Level := Nat

namespace NodeId

/-- The terminal for the constant false. -/
def bot : NodeId := 0

/-- The terminal for the constant true. -/
def top : NodeId := 1

/-- Stands for a child where there is none. -/
def absent : NodeId := 4294967295

/-- The terminal for a truth value. -/
def ofBool (b : Bool) : NodeId := if b then top else bot

def isBot (id : NodeId) : Bool := id == bot

def isTop (id : NodeId) : Bool := id == top

def isTerminal (id : NodeId) : Bool := id < 2

@[simp] theorem isTop_ofBool (b : Bool) : (ofBool b).isTop = b := by cases b <;> rfl

@[simp] theorem isBot_ofBool (b : Bool) : (ofBool b).isBot = !b := by cases b <;> rfl

theorem eq_bot_or_eq_top : ∀ {id : NodeId}, id.isTerminal = true → id = bot ∨ id = top
  | 0, _ => .inl rfl
  | 1, _ => .inr rfl
  | n + 2, h => absurd (of_decide_eq_true h) (by lia)

theorem inner_of_not {id : NodeId} (hbot : ¬ id.isBot = true) (htop : ¬ id.isTop = true) :
    id.isTerminal = false :=
  Bool.eq_false_iff.mpr fun ht => (eq_bot_or_eq_top ht).elim (fun h => hbot (h ▸ rfl))
    fun h => htop (h ▸ rfl)

/-- A terminal is written as its truth value, any other node with its slot. -/
def text (id : NodeId) : String := if id < 2 then toString id else "@" ++ toString id

end NodeId

/-- A variable is written with its number. -/
def Var.text (v : Var) : String := "x" ++ toString v

namespace Level

def text (l : Level) : String := "L" ++ toString l

/-- The level below. -/
def next (l : Level) : Level := l + 1

/-- The level above, if there is one. -/
def prev? (l : Level) : Option Level := if l = 0 then none else some (l - 1)

@[simp] theorem prev?_next (l : Level) : prev? (next l) = some l := by simp [prev?, next]

end Level

/-- The record of a node: the level that it decides and its two children. While the order is being
changed, the first field holds the variable in place of the level. -/
structure Node where
  level : Level
  low : NodeId
  high : NodeId
deriving DecidableEq, Repr

namespace Node

/-- The record of a slot that holds no node. -/
def vacant : Node := ⟨0, NodeId.absent, NodeId.absent⟩

instance : Inhabited Node := ⟨vacant⟩

/-- The record of a terminal, which is its own child. -/
def terminal (level : Level) (id : NodeId) : Node := ⟨level, id, id⟩

def isVacant (n : Node) : Bool := n.low == NodeId.absent

/-- Where the probe for this record starts. -/
def hash (n : Node) : UInt64 := Hash.triple n.level n.low n.high

/-- How far the probe for this record jumps. -/
def stride (n : Node) : UInt64 := Hash.stride n.level n.low n.high

/-- The two cofactors at `level` of the node `id` with the record `n`. A node that does not decide
`level` is its own cofactor on both sides. -/
def cofactors (n : Node) (id : NodeId) (level : Level) : NodeId × NodeId :=
  if n.level = level then (n.low, n.high) else (id, id)

end Node

end DecisionDiagram
