/-
The ten binary connectives.

* **`eval`** — the value on constants, read off a truth table;
* **`shortcut`** — the result on diagrams that needs no recursion, if there is one, which is right
  for all values of the operands (`shortcut_eq_some`);
* **`code`** — the number of a connective, which is part of cache keys.
-/
import DecisionDiagram.Node

namespace DecisionDiagram

/-- A binary connective. -/
inductive Connective
  | and
  | xor
  | or
  | nand
  | nor
  /-- The left operand implies the right one. -/
  | imp
  | biimp
  /-- The left operand holds and the right one does not. -/
  | diff
  /-- The right operand holds and the left one does not. -/
  | less
  /-- The right operand implies the left one. -/
  | invimp
deriving DecidableEq, Repr

namespace Connective

/-- Every connective, in the order of the codes. -/
def all : List Connective := [and, xor, or, nand, nor, imp, biimp, diff, less, invimp]

def code : Connective → Nat
  | and => 0
  | xor => 1
  | or => 2
  | nand => 3
  | nor => 4
  | imp => 5
  | biimp => 6
  | diff => 7
  | less => 8
  | invimp => 9

def name : Connective → String
  | and => "and"
  | xor => "xor"
  | or => "or"
  | nand => "nand"
  | nor => "nor"
  | imp => "imp"
  | biimp => "biimp"
  | diff => "diff"
  | less => "less"
  | invimp => "invimp"

/-- The value of a connective on constants. -/
def eval : Connective → Bool → Bool → Bool
  | and, l, r => l && r
  | xor, l, r => l != r
  | or, l, r => l || r
  | nand, l, r => !(l && r)
  | nor, l, r => !(l || r)
  | imp, l, r => !l || r
  | biimp, l, r => l == r
  | diff, l, r => l && !r
  | less, l, r => !l && r
  | invimp, l, r => l || !r

/-- The result of a connective where one operand is a terminal, or both are the same node, as far as
it is an operand or a constant. -/
def simplify (op : Connective) (l r : NodeId) : Option NodeId :=
  match op with
  | and =>
    if l = r ∨ r.isTop then some l
    else if l.isBot ∨ r.isBot then some NodeId.bot
    else if l.isTop then some r
    else none
  | or =>
    if l = r ∨ r.isBot then some l
    else if l.isTop ∨ r.isTop then some NodeId.top
    else if l.isBot then some r
    else none
  | xor =>
    if l = r then some NodeId.bot
    else if l.isBot then some r
    else if r.isBot then some l
    else none
  | nand => if l.isBot ∨ r.isBot then some NodeId.top else none
  | nor => if l.isTop ∨ r.isTop then some NodeId.bot else none
  | imp =>
    if l.isBot ∨ r.isTop ∨ l = r then some NodeId.top
    else if l.isTop then some r
    else none
  | biimp =>
    if l = r then some NodeId.top
    else if l.isTop then some r
    else if r.isTop then some l
    else none
  | diff =>
    if l = r ∨ l.isBot ∨ r.isTop then some NodeId.bot
    else if r.isBot then some l
    else none
  | less =>
    if l = r ∨ l.isTop ∨ r.isBot then some NodeId.bot
    else if l.isBot then some r
    else none
  | invimp =>
    if l = r ∨ l.isTop ∨ r.isBot then some NodeId.top
    else if r.isTop then some l
    else none

/-- What is answered so is the value of the connective, whatever the values of the operands are. -/
theorem simplify_eq_some {op : Connective} {l r res : NodeId} (h : op.simplify l r = some res)
    (value : NodeId → Bool) (bot : value NodeId.bot = false) (top : value NodeId.top = true) :
    value res = op.eval (value l) (value r) := by
  cases op <;> simp only [simplify, NodeId.isTop, NodeId.isBot] at h <;> grind [eval]

/-- The result of a connective that needs no recursion, if there is one. -/
def shortcut (op : Connective) (l r : NodeId) : Option NodeId :=
  if l.isTerminal && r.isTerminal then some (NodeId.ofBool (op.eval l.isTop r.isTop))
  else op.simplify l r

theorem shortcut_eq_some {op : Connective} {l r res : NodeId} (h : op.shortcut l r = some res)
    (value : NodeId → Bool) (bot : value NodeId.bot = false) (top : value NodeId.top = true) :
    value res = op.eval (value l) (value r) := by
  unfold shortcut at h
  split at h
  · rename_i ht
    obtain ⟨hl, hr⟩ := Bool.and_eq_true_iff.1 ht
    have constant : ∀ {id : NodeId}, id.isTerminal = true → id.isTop = value id := fun h => by
      rcases NodeId.eq_bot_or_eq_top h with rfl | rfl
      · exact bot.symm
      · exact top.symm
    obtain rfl := Option.some.inj h
    rw [constant hl, constant hr]
    cases op.eval (value l) (value r)
    · exact bot
    · exact top
  · exact simplify_eq_some h value bot top

end Connective

end DecisionDiagram
