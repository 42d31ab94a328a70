/-
Decision trees: what a node stands for when the sharing is forgotten.

* `Tree.make` — the tree with the given level and branches, unless the branches are the same;
* `Tree.Proper` — the tree is reduced and ordered, and decides no level above a bound;
* `Tree.eq_of_eval` — canonicity: proper trees with the same values are the same tree;
* `Tree.eq_make` — a proper tree is made from two others if its values are.
-/
import Mathlib.Logic.Function.Basic
import DecisionDiagram.Node

namespace DecisionDiagram

/-- A decision tree. -/
inductive Tree
  | leaf (b : Bool)
  /-- Goes on with `high` where the variable at `level` holds, and with `low` elsewhere. -/
  | node (level : Level) (low high : Tree)
deriving DecidableEq, Repr

namespace Tree

variable {v w : Level → Bool} {i j k : Level} {s t l h : Tree}

/-- The value when each level has the value that `v` gives it. -/
def eval (v : Level → Bool) : Tree → Bool
  | leaf b => b
  | node k l h => if v k then h.eval v else l.eval v

/-- The tree with the given level and branches. Equal branches make the level superfluous. -/
def make (k : Level) (l h : Tree) : Tree := if l = h then l else node k l h

/-- The branch for the value `b` of the level `k`, if this is the level of the tree. -/
def cofactor (t : Tree) (k : Level) (b : Bool) : Tree :=
  match t with
  | leaf c => leaf c
  | node j l h => if j = k then (if b then h else l) else node j l h

/-- The level that the tree decides first, if any. -/
def level? : Tree → Option Level
  | leaf _ => none
  | node k _ _ => some k

/-- Reduced and ordered, with no level above `k`. -/
inductive Proper : Level → Tree → Prop
  | leaf (k : Level) (b : Bool) : Proper k (leaf b)
  | node {k j : Level} {l h : Tree} (le : k ≤ j) (ne : l ≠ h) (low : Proper (j + 1) l)
    (high : Proper (j + 1) h) : Proper k (node j l h)

/-! ### Proper trees -/

theorem Proper.mono (ht : Proper k t) (hj : j ≤ k) : Proper j t := by
  cases ht with
  | leaf => exact .leaf _ _
  | node le ne low high => exact .node (Nat.le_trans hj le) ne low high

theorem Proper.make (hl : Proper (k + 1) l) (hh : Proper (k + 1) h) : Proper k (make k l h) := by
  unfold Tree.make
  split
  · exact hl.mono (Nat.le_succ k)
  · rename_i hne
    exact .node (Nat.le_refl k) hne hl hh

theorem Proper.cofactor (ht : Proper k t) (b : Bool) : Proper (k + 1) (t.cofactor k b) := by
  cases ht with
  | leaf => exact .leaf _ _
  | @node _ j l h le ne low high =>
    rw [Tree.cofactor]
    split
    · rename_i heq
      subst heq
      cases b
      · exact low
      · exact high
    · exact .node (by lia) ne low high

/-- A branch that the level does not concern stays as it is. -/
theorem Proper.cofactor_eq (ht : Proper (k + 1) t) (b : Bool) : t.cofactor k b = t := by
  cases ht with
  | leaf => rfl
  | node le _ _ _ => rw [Tree.cofactor, if_neg (by lia)]

/-! ### Values -/

@[simp] theorem eval_leaf (v : Level → Bool) (b : Bool) : (leaf b).eval v = b := rfl

theorem eval_node (v : Level → Bool) (k : Level) (l h : Tree) :
    (node k l h).eval v = if v k then h.eval v else l.eval v := rfl

@[simp] theorem eval_make (v : Level → Bool) (k : Level) (l h : Tree) :
    (make k l h).eval v = if v k then h.eval v else l.eval v := by
  unfold make
  split
  · rename_i heq
    rw [heq, ite_self]
  · rfl

/-- The value of a tree is that of its cofactor on the side that the assignment takes. -/
@[simp] theorem eval_cofactor (v : Level → Bool) (t : Tree) (k : Level) :
    (t.cofactor k (v k)).eval v = t.eval v := by
  cases t with
  | leaf b => rfl
  | node j l h =>
    rw [cofactor]
    split
    · rename_i heq
      subst heq
      rw [eval_node]
      split <;> rfl
    · rfl

/-- Levels above the tree do not matter. -/
theorem Proper.eval_congr (ht : Proper k t) (hv : ∀ j, k ≤ j → v j = w j) :
    t.eval v = t.eval w := by
  induction ht with
  | leaf => rfl
  | @node k j l h le ne low high ihl ihh =>
    have hl := ihl fun i hi => hv i (by lia)
    have hh := ihh fun i hi => hv i (by lia)
    rw [eval_node, eval_node, hv j le, hl, hh]

theorem Proper.eval_update (ht : Proper (k + 1) t) (b : Bool) :
    t.eval (Function.update v k b) = t.eval v :=
  ht.eval_congr fun j hj => Function.update_of_ne (by lia) _ _

/-- The values of the cofactors, read off the tree. -/
theorem Proper.eval_cofactor (ht : Proper k t) (b : Bool) :
    (t.cofactor k b).eval v = t.eval (Function.update v k b) := by
  have h := Tree.eval_cofactor (Function.update v k b) t k
  rw [Function.update_self] at h
  rw [← h, (ht.cofactor b).eval_update]

/-! ### Canonicity -/

/-- A tree that decides a level has two equal branches if it agrees with one that does not. -/
theorem Proper.branches_agree (ht : Proper k (Tree.node j l h)) (hs : Proper (j + 1) s)
    (heq : ∀ v, (Tree.node j l h).eval v = s.eval v) (v : Level → Bool) : l.eval v = h.eval v := by
  have side : ∀ b, ((Tree.node j l h).cofactor j b).eval v = s.eval v := fun b => by
    have hj : Proper j (Tree.node j l h) := by
      cases ht with
      | node _ ne low high => exact .node (Nat.le_refl j) ne low high
    rw [hj.eval_cofactor, heq, hs.eval_update]
  have hlow := side false
  have hhigh := side true
  rw [Tree.cofactor, if_pos rfl] at hlow hhigh
  exact hlow.trans hhigh.symm

/-- Canonicity. The induction is on the size of both trees, since a superfluous level would have
two equal branches. -/
theorem eq_of_eval (hs : Proper k s) (ht : Proper k t) (heq : ∀ v, s.eval v = t.eval v) :
    s = t := by
  induction hn : sizeOf s + sizeOf t using Nat.strongRecOn generalizing k s t with
  | ind n ih =>
    subst hn
    -- If a node has the values of a tree below its level, its branches are equal.
    have redundant : ∀ {j l h u}, sizeOf l + sizeOf h < sizeOf s + sizeOf t →
        Proper k (node j l h) → Proper (j + 1) u → ¬ ∀ v, (node j l h).eval v = u.eval v := by
      intro j l h u hlt hp hu hj
      have hagree := hp.branches_agree hu hj
      cases hp with
      | node _ ne low high => exact ne (ih _ hlt low high hagree rfl)
    cases hs with
    | leaf k a =>
      cases ht with
      | leaf _ b => exact congrArg leaf (heq fun _ => false)
      | node le ne low high =>
        refine absurd (fun v => (heq v).symm) (redundant ?_ (.node le ne low high) (.leaf _ a))
        simp only [leaf.sizeOf_spec, node.sizeOf_spec]
        lia
    | @node _ i l h le ne low high =>
      cases ht with
      | leaf _ b =>
        refine absurd heq (redundant ?_ (.node le ne low high) (.leaf _ b))
        simp only [leaf.sizeOf_spec, node.sizeOf_spec]
        lia
      | @node _ j l' h' le' ne' low' high' =>
        simp only [node.sizeOf_spec] at ih redundant
        -- At different levels, the upper node would be redundant.
        rcases Nat.lt_trichotomy i j with hlt | rfl | hgt
        · exact absurd heq (redundant (by lia) (.node le ne low high) (.node hlt ne' low' high'))
        · have side : ∀ b v, ((node i l h).cofactor i b).eval v =
              ((node i l' h').cofactor i b).eval v := by
            intro b v
            rw [Proper.eval_cofactor (.node (Nat.le_refl i) ne low high),
              Proper.eval_cofactor (.node (Nat.le_refl i) ne' low' high'), heq]
          have hl : l = l' := by
            refine ih _ (by lia) low low' (fun v => ?_) rfl
            simpa [cofactor] using side false v
          have hh : h = h' := by
            refine ih _ (by lia) high high' (fun v => ?_) rfl
            simpa [cofactor] using side true v
          rw [hl, hh]
        · exact absurd (fun v => (heq v).symm)
            (redundant (by lia) (.node le' ne' low' high') (.node hgt ne low high))

/-- A proper tree is made from two others if it has their values on the two sides of a level. -/
theorem eq_make (ht : Proper k t) (hl : Proper (k + 1) l) (hh : Proper (k + 1) h)
    (heq : ∀ v, t.eval v = if v k then h.eval v else l.eval v) : t = make k l h :=
  eq_of_eval ht (.make hl hh) fun v => by rw [heq, eval_make]

end Tree

end DecisionDiagram
