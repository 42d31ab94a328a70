/-
Negation, the binary connectives and if-then-else.

An operator splits its operands on the topmost level among them; an operand below that level is its
own cofactor. The last argument of each recursion bounds its depth.

* **`Program.not`**, **`Program.apply`**, **`Program.ite`** — the recursions.
-/
import DecisionDiagram.Program

namespace DecisionDiagram.Program

/-- The negation of a node. -/
def not (f : NodeId) : Nat → Program NodeId
  | 0 => fault
  | n + 1 =>
    if f.isTerminal then return NodeId.ofBool f.isBot
    else memo (.not f) do
      let nf ← node f
      branch (not nf.low n) (not nf.high n) (mk nf.level)

/-- A connective on two nodes. -/
def apply (op : Connective) (l r : NodeId) : Nat → Program NodeId
  | 0 => fault
  | n + 1 =>
    match op.shortcut l r with
    | some res => return res
    | none => memo (.apply op l r) do
      let nl ← node l
      let nr ← node r
      let level := min nl.level nr.level
      let (l0, l1) := nl.cofactors l level
      let (r0, r1) := nr.cofactors r level
      branch (apply op l0 r0 n) (apply op l1 r1 n) (mk level)

/-- The node `g` where `f` holds, and `h` elsewhere. -/
def ite (f g h : NodeId) : Nat → Program NodeId
  | 0 => fault
  | n + 1 =>
    if f.isTop then return g
    else if f.isBot then return h
    else if g = h then return g
    else if g.isTop && h.isBot then return f
    else if g.isBot && h.isTop then do not f (← depth)
    else memo (.ite f g h) do
      let nf ← node f
      let ng ← node g
      let nh ← node h
      let level := min (min nf.level ng.level) nh.level
      let (f0, f1) := nf.cofactors f level
      let (g0, g1) := ng.cofactors g level
      let (h0, h1) := nh.cofactors h level
      branch (ite f0 g0 h0 n) (ite f1 g1 h1 n) (mk level)

/-- A connective over a list of nodes, from the left, starting from `res`. Only the result so far is
pending between the steps. -/
def applyMany (op : Connective) : List NodeId → NodeId → Program NodeId
  | [], res => return res
  | f :: rest, res => do
    let res ← apply op res f (← depth)
    keepOnly res
    applyMany op rest res

end DecisionDiagram.Program
