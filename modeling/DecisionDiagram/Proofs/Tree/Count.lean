/-
The number of assignments that satisfy a decision tree.

* `Tree.Between` — reduced and ordered, with levels from one bound to another;
* `Tree.weight` — the count that gives each edge the weight of the levels it skips;
* `Between.weight_mul` — a number is this weight, times that of the levels above, if it is right for the
  leaves and twice that of a node is that of its two branches;
* `Between.weight_eq_card` — the number of satisfying assignments to the levels is one.
-/
import Mathlib.Algebra.BigOperators.Fin
import Mathlib.Data.Fintype.Pi
import DecisionDiagram.Proofs.Tree.Witness

namespace DecisionDiagram.Tree

variable {d j k : Level} {l h t : Tree} {b : Bool}

/-! ### Bounds -/

/-- Reduced and ordered, with levels from `k` on, down to but without `d`. -/
inductive Between (d : Level) : Level → Tree → Prop
  | leaf {k : Level} (le : k ≤ d) (b : Bool) : Between d k (leaf b)
  | node {k j : Level} {l h : Tree} (le : k ≤ j) (lt : j < d) (ne : l ≠ h)
    (low : Between d (j + 1) l) (high : Between d (j + 1) h) : Between d k (node j l h)

theorem Between.proper (ht : t.Between d k) : t.Proper k := by
  induction ht with
  | leaf => exact .leaf _ _
  | node le _ ne _ _ ihl ihh => exact .node le ne ihl ihh

/-- The tree begins at its bound or below, and its leaves stand at the end. -/
theorem Between.le_levelOr (ht : t.Between d k) : k ≤ t.levelOr d := by
  cases ht with
  | leaf le b => exact le
  | node le lt ne low high => exact le

/-! ### Weights -/

/-- The number of satisfying assignments to the levels from that of the tree on, down to but without
`d`.  The levels that an edge skips are free. -/
def weight (d : Level) : Tree → Nat
  | leaf b => b.toNat
  | node k l h => l.weight d <<< (l.levelOr d - k - 1) + h.weight d <<< (h.levelOr d - k - 1)

/-- The weight of a branch, scaled to the levels below `k`. -/
theorem Between.weight_gap (ht : t.Between d (k + 1)) :
    t.weight d <<< (t.levelOr d - k - 1) * 2 ^ (k + 1) = t.weight d * 2 ^ t.levelOr d := by
  have hle := ht.le_levelOr
  have hsum : t.levelOr d - k - 1 + (k + 1) = t.levelOr d := by lia
  rw [Nat.shiftLeft_eq, Nat.mul_assoc, ← Nat.pow_add, hsum]

/-- A number that is right for the leaves, and of which a node has half as much as its branches
together, is the weight times that of the levels above. -/
theorem Between.weight_mul {μ : Tree → Nat} (hfalse : μ (Tree.leaf false) = 0)
    (htrue : μ (Tree.leaf true) = 2 ^ d)
    (hnode : ∀ {k j : Level} {l h : Tree}, (Tree.node j l h).Between d k →
      2 * μ (Tree.node j l h) = μ l + μ h)
    (ht : t.Between d k) : t.weight d * 2 ^ t.levelOr d = μ t := by
  induction ht with
  | leaf _ b =>
    cases b
    · rw [hfalse]
      exact Nat.zero_mul _
    · rw [htrue]
      exact Nat.one_mul _
  | @node k j l h le lt ne low high ihl ihh =>
    have hhalf := hnode (.node le lt ne low high)
    have hsum : (Tree.node j l h).weight d * 2 ^ (j + 1) = μ l + μ h := by
      rw [weight, Nat.add_mul, low.weight_gap, high.weight_gap, ihl, ihh]
    have hlevel : (Tree.node j l h).levelOr d = j := rfl
    rw [Nat.pow_succ, ← Nat.mul_assoc] at hsum
    rw [hlevel]
    omega

/-! ### Assignments -/

/-- The values that an assignment to the levels above `d` gives; the others do not matter. -/
def values (x : Fin d → Bool) (j : Level) : Bool := if h : j < d then x ⟨j, h⟩ else false

theorem values_update (x : Fin d → Bool) (j : Fin d) (b : Bool) :
    values (Function.update x j b) = Function.update (values x) j b := by
  funext i
  by_cases hi : i = j
  · subst hi
    simp [values]
  · rw [Function.update_of_ne hi, values, values]
    split
    · rw [Function.update_of_ne fun h => hi (congrArg Fin.val h)]
    · rfl

/-- The assignments to the levels above `d` that satisfy the tree. -/
def models (d : Level) (t : Tree) : Finset (Fin d → Bool) := Finset.univ.filter fun x => t.eval (values x)

theorem mem_models {x : Fin d → Bool} : x ∈ t.models d ↔ t.eval (values x) = true := by
  rw [models, Finset.mem_filter, and_iff_right (Finset.mem_univ x)]

/-- A tree of lower levels has as many models on one side of a level as on the other. -/
theorem Between.card_side (j : Fin d) (ht : t.Between d (j + 1)) (b : Bool) :
    ((t.models d).filter fun x => x j = b).card = ((t.models d).filter fun x => x j = !b).card := by
  have hflip : ∀ (c : Bool) (x : Fin d → Bool), x ∈ (t.models d).filter (fun x => x j = c) →
      Function.update x j (!x j) ∈ (t.models d).filter fun x => x j = !c := by
    intro c x hx
    rw [Finset.mem_filter, mem_models] at hx ⊢
    rw [values_update, ht.proper.eval_update, Function.update_self, hx.2]
    exact ⟨hx.1, rfl⟩
  have hback : ∀ x : Fin d → Bool,
      Function.update (Function.update x j (!x j)) j (!Function.update x j (!x j) j) = x := by
    intro x
    rw [Function.update_self, Bool.not_not, Function.update_idem, Function.update_eq_self]
  refine Finset.card_nbij' (fun x => Function.update x j (!x j)) (fun x => Function.update x j (!x j))
    (hflip b) (fun x hx => ?_) (fun x _ => hback x) fun x _ => hback x
  have := hflip (!b) x hx
  rwa [Bool.not_not] at this

/-- The branches of a node do not depend on its level, so each has half of its models on its side. -/
theorem Between.two_mul_card_models (ht : (Tree.node j l h).Between d k) :
    2 * ((Tree.node j l h).models d).card = (l.models d).card + (h.models d).card := by
  cases ht with
  | node le lt ne low high =>
    have split : ∀ t : Tree, ((t.models d).filter fun x => x ⟨j, lt⟩ = true).card +
        ((t.models d).filter fun x => x ⟨j, lt⟩ = false).card = (t.models d).card := fun t => by
      simpa only [Bool.not_eq_true] using
        Finset.card_filter_add_card_filter_not (s := t.models d) fun x => x ⟨j, lt⟩ = true
    -- On one side of its level, the node has the models of the branch there.
    have hbranch : ∀ b : Bool, ((Tree.node j l h).models d).filter (fun x => x ⟨j, lt⟩ = b) =
        ((if b then h else l).models d).filter fun x => x ⟨j, lt⟩ = b := fun b => by
      ext x
      simp only [Finset.mem_filter, mem_models, eval_node, values, dif_pos lt]
      refine and_congr_left fun hx => ?_
      rw [hx]
      cases b <;> rfl
    have hlow := hbranch false
    have hhigh := hbranch true
    have hl := low.card_side ⟨j, lt⟩ false
    have hh := high.card_side ⟨j, lt⟩ true
    rw [← split (.node j l h), ← split l, ← split h, hlow, hhigh]
    simp only [Bool.not_false, Bool.not_true, if_true, Bool.false_eq_true, if_false] at hl hh ⊢
    omega

/-- The number of satisfying assignments to the levels above `d`. -/
theorem Between.weight_eq_card (ht : t.Between d k) :
    t.weight d * 2 ^ t.levelOr d = (t.models d).card := by
  refine Between.weight_mul (μ := fun t => (t.models d).card) ?_ ?_
    (fun h => h.two_mul_card_models) ht
  · simp [models]
  · simp [models]

end DecisionDiagram.Tree
