/-
The connectives on decision trees.

The recursions are those of the operators, without a memory: both operands are split on the topmost
level among them.

* `Tree.not`, `Tree.apply`, `Tree.ite` — the recursions; `Tree.eval_not` and its like are what they
  mean;
* `Tree.apply_eq_make`, `Tree.ite_eq_make` — one step of a recursion, at any level that is not below
  the operands.
-/
import DecisionDiagram.Connective
import DecisionDiagram.Proofs.Tree

namespace DecisionDiagram.Tree

variable {v : Level → Bool} {j k : Level} {f g r s t : Tree} {op : Connective}

/-! ### The level of two trees -/

/-- The topmost level among two trees, if one of them is no leaf. -/
def top : Tree → Tree → Option Level
  | leaf _, leaf _ => none
  | leaf _, node k _ _ => some k
  | node j _ _, leaf _ => some j
  | node j _ _, node k _ _ => some (min j k)

theorem sizeOf_cofactor (t : Tree) (k : Level) (b : Bool) :
    sizeOf (t.cofactor k b) ≤ sizeOf t := by
  cases t with
  | leaf => exact Nat.le_refl _
  | node j l h =>
    rw [cofactor]
    split
    · cases b <;> simp only [node.sizeOf_spec] <;> lia
    · exact Nat.le_refl _

theorem sizeOf_cofactor_lt {l h : Tree} (b : Bool) :
    sizeOf ((node k l h).cofactor k b) < sizeOf (node k l h) := by
  rw [cofactor, if_pos rfl]
  cases b <;> simp only [node.sizeOf_spec] <;> lia

/-- A split on the topmost level makes the trees smaller. -/
theorem sizeOf_split (hk : top s t = some k) (b : Bool) :
    sizeOf (s.cofactor k b) + sizeOf (t.cofactor k b) < sizeOf s + sizeOf t := by
  have hs := sizeOf_cofactor s k b
  have ht := sizeOf_cofactor t k b
  cases s with
  | leaf =>
    cases t with
    | leaf => cases hk
    | node i l h =>
      obtain rfl := Option.some.inj hk
      exact Nat.add_lt_add_of_le_of_lt hs (sizeOf_cofactor_lt b)
  | node i l h =>
    cases t with
    | leaf =>
      obtain rfl := Option.some.inj hk
      exact Nat.add_lt_add_of_lt_of_le (sizeOf_cofactor_lt b) ht
    | node j l' h' =>
      obtain hk := Option.some.inj hk
      rcases Nat.le_total i j with hij | hij
      · obtain rfl : i = k := by lia
        exact Nat.add_lt_add_of_lt_of_le (sizeOf_cofactor_lt b) ht
      · obtain rfl : j = k := by lia
        exact Nat.add_lt_add_of_le_of_lt hs (sizeOf_cofactor_lt b)

theorem Proper.of_le_level {l h : Tree} (ht : Proper k (.node j l h)) {i : Level} (hi : i ≤ j) :
    Proper i (.node j l h) := by
  cases ht with
  | node _ ne low high => exact .node hi ne low high

theorem Proper.le_level {l h : Tree} (ht : Proper k (.node j l h)) : k ≤ j := by
  cases ht with
  | node le _ _ _ => exact le

/-- Below a bound for two trees is their topmost level, which bounds them, too. -/
theorem Proper.top (hs : Proper j s) (ht : Proper j t) (hk : top s t = some k) :
    j ≤ k ∧ Proper k s ∧ Proper k t := by
  cases s with
  | leaf =>
    cases t with
    | leaf => cases hk
    | node =>
      obtain rfl := Option.some.inj hk
      exact ⟨ht.le_level, .leaf _ _, ht.of_le_level (Nat.le_refl _)⟩
  | node =>
    have hjs := hs.le_level
    cases t with
    | leaf =>
      obtain rfl := Option.some.inj hk
      exact ⟨hjs, hs.of_le_level (Nat.le_refl _), .leaf _ _⟩
    | node =>
      obtain rfl := Option.some.inj hk
      have hjt := ht.le_level
      exact ⟨by lia, hs.of_le_level (Nat.min_le_left _ _), ht.of_le_level (Nat.min_le_right _ _)⟩

/-! ### The recursions -/

/-- The negation of a tree. -/
def not : Tree → Tree
  | leaf b => leaf !b
  | node k l h => make k l.not h.not

/-- Whether the tree is the leaf for true. -/
def isTrue : Tree → Bool
  | leaf b => b
  | node _ _ _ => false

/-- A connective on two trees. -/
def apply (op : Connective) (s t : Tree) : Tree :=
  match _hk : top s t with
  | none => leaf (op.eval s.isTrue t.isTrue)
  | some k =>
    make k (apply op (s.cofactor k false) (t.cofactor k false))
      (apply op (s.cofactor k true) (t.cofactor k true))
termination_by sizeOf s + sizeOf t
decreasing_by all_goals exact sizeOf_split _hk _

/-- The tree `g` where `f` holds, and `r` elsewhere. -/
def ite (f g r : Tree) : Tree := apply .or (apply .and f g) (apply .less f r)

@[simp] theorem eval_not (v : Level → Bool) (t : Tree) : t.not.eval v = !t.eval v := by
  induction t with
  | leaf => rfl
  | node k l h ihl ihh =>
    rw [not, eval_make, eval_node, ihl, ihh]
    split <;> rfl

theorem Proper.not (ht : Proper k t) : Proper k t.not := by
  induction ht with
  | leaf => exact .leaf _ _
  | node le _ _ _ ihl ihh => exact (Proper.make ihl ihh).mono le

theorem isTrue_of_top (h : top s t = none) (v : Level → Bool) :
    s.isTrue = s.eval v ∧ t.isTrue = t.eval v := by
  cases s <;> cases t <;> first | exact ⟨rfl, rfl⟩ | cases h

theorem apply_of_top_none (op : Connective) (h : top s t = none) :
    apply op s t = leaf (op.eval s.isTrue t.isTrue) := by
  rw [apply]
  split
  · rfl
  · rename_i hk
    rw [h] at hk
    cases hk

theorem apply_of_top_some (op : Connective) (h : top s t = some k) :
    apply op s t = make k (apply op (s.cofactor k false) (t.cofactor k false))
      (apply op (s.cofactor k true) (t.cofactor k true)) := by
  rw [apply]
  split
  · rename_i hk
    rw [h] at hk
    cases hk
  · rename_i i hk
    obtain rfl := Option.some.inj (h.symm.trans hk)
    rfl

@[simp] theorem eval_apply (v : Level → Bool) (op : Connective) (s t : Tree) :
    (apply op s t).eval v = op.eval (s.eval v) (t.eval v) := by
  induction s, t using apply.induct with
  | case1 s t hk =>
    obtain ⟨hs, ht⟩ := isTrue_of_top hk v
    rw [apply_of_top_none op hk, eval_leaf, hs, ht]
  | case2 s t k hk ihl ihh =>
    rw [apply_of_top_some op hk, eval_make, ihl, ihh, ← eval_cofactor v s k, ← eval_cofactor v t k]
    cases v k <;> rfl

theorem Proper.apply (op : Connective) (hs : Proper j s) (ht : Proper j t) :
    Proper j (apply op s t) := by
  induction s, t using apply.induct generalizing j with
  | case1 s t hk =>
    rw [apply_of_top_none op hk]
    exact .leaf _ _
  | case2 s t k hk ihl ihh =>
    obtain ⟨hle, hks, hkt⟩ := hs.top ht hk
    rw [apply_of_top_some op hk]
    exact (Proper.make (ihl (hks.cofactor false) (hkt.cofactor false))
      (ihh (hks.cofactor true) (hkt.cofactor true))).mono hle

@[simp] theorem eval_ite (v : Level → Bool) (f g r : Tree) :
    (ite f g r).eval v = if f.eval v then g.eval v else r.eval v := by
  rw [ite, eval_apply, eval_apply, eval_apply]
  cases f.eval v <;> simp [Connective.eval]

theorem Proper.ite (hf : Proper k f) (hg : Proper k g) (hr : Proper k r) :
    Proper k (ite f g r) := .apply .or (.apply .and hf hg) (.apply .less hf hr)

/-! ### One step -/

theorem apply_eq_make (hs : Proper k s) (ht : Proper k t) :
    apply op s t = make k (apply op (s.cofactor k false) (t.cofactor k false))
      (apply op (s.cofactor k true) (t.cofactor k true)) := by
  refine eq_make (.apply op hs ht) (.apply op (hs.cofactor false) (ht.cofactor false))
    (.apply op (hs.cofactor true) (ht.cofactor true)) fun v => ?_
  rw [eval_apply, eval_apply, eval_apply, ← eval_cofactor v s k, ← eval_cofactor v t k]
  cases v k <;> rfl

theorem ite_eq_make (hf : Proper k f) (hg : Proper k g) (hr : Proper k r) :
    ite f g r = make k (ite (f.cofactor k false) (g.cofactor k false) (r.cofactor k false))
      (ite (f.cofactor k true) (g.cofactor k true) (r.cofactor k true)) := by
  refine eq_make (.ite hf hg hr) (.ite (hf.cofactor false) (hg.cofactor false) (hr.cofactor false))
    (.ite (hf.cofactor true) (hg.cofactor true) (hr.cofactor true)) fun v => ?_
  rw [eval_ite, eval_ite, eval_ite, ← eval_cofactor v f k, ← eval_cofactor v g k,
    ← eval_cofactor v r k]
  cases v k <;> rfl

theorem apply_self_or (ht : Proper k t) : apply .or t t = t :=
  eq_of_eval (.apply .or ht ht) ht fun v => by simp [Connective.eval]

theorem apply_self_and (ht : Proper k t) : apply .and t t = t :=
  eq_of_eval (.apply .and ht ht) ht fun v => by simp [Connective.eval]

theorem apply_self_xor (ht : Proper k t) : apply .xor t t = leaf false :=
  eq_of_eval (.apply .xor ht ht) (.leaf _ _) fun v => by simp [Connective.eval]

end DecisionDiagram.Tree
