/-
What the cofactors of decision trees mean.

* `Tree.eval_restrict` — restriction gives to each level the value that it is fixed to;
* `Tree.fixing` — the assignment in which the literals of a cube are set, so that the cube holds
  (`Tree.Proper.eval_fixing`);
* `Tree.nearest` — the assignment within a care set that is next to a given one, along the order:
  a level is flipped only where the branch that is taken is false;
* `Tree.Proper.eval_constrain` — the generalised cofactor has the value of its operand there;
* `Tree.Proper.eval_simplify` — within the care set the simplified tree has the values of its operand;
  it decides no level that the operand does not.
-/
import DecisionDiagram.Proofs.Tree.Support

namespace DecisionDiagram.Tree

variable {v w : Level → Bool} {i j k : Level} {c d f h l t : Tree} {b : Bool}

/-! ### Restriction -/

theorem eval_restrict (v : Level → Bool) (fix : Level → Option Bool) (t : Tree) :
    (restrict fix t).eval v = t.eval fun k => (fix k).getD (v k) := by
  induction t with
  | leaf => rfl
  | node k l h ihl ihh =>
    rw [restrict, eval_node]
    rcases hk : fix k with _ | b
    · simp only [eval_make, ihl, ihh, Option.getD_none]
    · cases b
      · exact ihl
      · exact ihh

/-- Only levels that the cube decides are fixed. -/
theorem fixes_eq_none (hj : j ∉ t.levels) : t.fixes j = none := by
  induction t with
  | leaf => rfl
  | node k l h ihl ihh =>
    rw [mem_levels_node, not_or, not_or] at hj
    obtain ⟨hjk, hl, hh⟩ := hj
    rw [fixes, if_neg hjk, if_neg hjk, ihl hl, ihh hh, ite_self]

/-- The assignment with the literals of a cube set. -/
def fixing (t : Tree) (v : Level → Bool) : Level → Bool := fun k => (t.fixes k).getD (v k)

theorem fixing_apply (hj : j ∉ t.levels) (v : Level → Bool) : t.fixing v j = v j := by
  rw [fixing, fixes_eq_none hj, Option.getD_none]

/-- The literals are set one after the other, from the top. -/
theorem Proper.fixing_node (ht : Proper j (Tree.node k l h)) (v : Level → Bool) :
    (Tree.node k l h).fixing v =
      if l = Tree.leaf false then h.fixing (Function.update v k true)
      else l.fixing (Function.update v k false) := by
  cases ht with
  | node _ _ low high =>
    have branch : ∀ {t : Tree} (b : Bool), Proper (k + 1) t → ∀ i,
        (if i = k then some b else t.fixes i).getD (v i) = t.fixing (Function.update v k b) i := by
      intro t b ht i
      by_cases hi : i = k
      · subst hi
        rw [if_pos rfl, fixing_apply ht.not_mem_levels, Function.update_self, Option.getD_some]
      · rw [if_neg hi, fixing, Function.update_of_ne hi]
    funext i
    rw [fixing, fixes]
    split
    · exact branch true high i
    · exact branch false low i

/-- With its literals set, the cube holds. -/
theorem Proper.eval_fixing (ht : Proper k t) (hne : t ≠ Tree.leaf false) (v : Level → Bool) :
    t.eval (t.fixing v) = true := by
  induction ht generalizing v with
  | leaf k b =>
    cases b
    · exact absurd rfl hne
    · rfl
  | @node k i l h le ne low high ihl ihh =>
    rw [(Proper.node le ne low high).fixing_node, eval_node]
    split
    · rename_i hl
      rw [fixing_apply high.not_mem_levels, Function.update_self, if_pos rfl]
      exact ihh (fun hh => ne (hl.trans hh.symm)) _
    · rename_i hl
      rw [fixing_apply low.not_mem_levels, Function.update_self, if_neg (by decide)]
      exact ihl hl _

/-! ### The nearest assignment in a care set -/

/-- Follows the assignment down the tree.  Where the branch that it takes is false, the level is
flipped. -/
def nearest : Tree → (Level → Bool) → Level → Bool
  | leaf _, v => v
  | node k l h, v =>
    if v k then
      if h = leaf false then l.nearest (Function.update v k false) else h.nearest v
    else if l = leaf false then h.nearest (Function.update v k true) else l.nearest v

/-- The branch that the assignment takes is not false. -/
theorem nearest_of_ne (hc : t.cofactor k (v k) ≠ leaf false) :
    t.nearest v = (t.cofactor k (v k)).nearest v := by
  cases t with
  | leaf => rfl
  | node i l h =>
    rw [cofactor] at hc ⊢
    split
    · rename_i hi
      subst hi
      rw [if_pos rfl] at hc
      rw [nearest]
      cases hb : v i
      · rw [hb] at hc
        exact if_neg hc
      · rw [hb] at hc
        exact if_neg hc
    · rfl

/-- The branch that the assignment takes is false, but the tree is not. -/
theorem nearest_of_eq (ht : t ≠ leaf false) (hc : t.cofactor k (v k) = leaf false) :
    t.nearest v = (t.cofactor k (!v k)).nearest (Function.update v k (!v k)) := by
  cases t with
  | leaf => exact absurd hc ht
  | node i l h =>
    rw [cofactor] at hc ⊢
    by_cases hi : i = k
    · subst hi
      rw [if_pos rfl] at hc
      rw [if_pos rfl, nearest]
      cases hb : v i
      · rw [hb] at hc
        exact if_pos hc
      · rw [hb] at hc
        exact if_pos hc
    · rw [if_neg hi] at hc
      cases hc

/-- The two cofactors of a tree that is not false are not both false. -/
theorem Proper.cofactor_ne (ht : Proper k t) (hne : t ≠ Tree.leaf false)
    (hc : t.cofactor k b = Tree.leaf false) : t.cofactor k (!b) ≠ Tree.leaf false := by
  intro hc'
  refine hne (eq_of_eval ht (.leaf k false) fun v => ?_)
  have hside : t.cofactor k (v k) = Tree.leaf false := by
    by_cases hv : v k = b
    · rw [hv, hc]
    · rw [show v k = !b by cases b <;> simpa using hv, hc']
  rw [← Tree.eval_cofactor v t k, hside]

/-- Levels that the tree does not decide are not flipped. -/
theorem nearest_apply (hj : j ∉ t.levels) (v : Level → Bool) : t.nearest v j = v j := by
  induction t generalizing v with
  | leaf => rfl
  | node k l h ihl ihh =>
    rw [mem_levels_node, not_or, not_or] at hj
    obtain ⟨hjk, hl, hh⟩ := hj
    rw [nearest]
    split
    · split
      · rw [ihl hl, Function.update_of_ne hjk]
      · exact ihh hh v
    · split
      · rw [ihh hh, Function.update_of_ne hjk]
      · exact ihl hl v

/-- The care set holds at the nearest assignment. -/
theorem Proper.eval_nearest (ht : Proper k t) (hne : t ≠ Tree.leaf false) (v : Level → Bool) :
    t.eval (t.nearest v) = true := by
  induction ht generalizing v with
  | leaf k b =>
    cases b
    · exact absurd rfl hne
    · rfl
  | @node k i l h le ne low high ihl ihh =>
    -- The level has the value of the branch from which on the walk goes on.
    have low' : ∀ v : Level → Bool, v i = false → l ≠ Tree.leaf false →
        (Tree.node i l h).eval (l.nearest v) = true := fun v hv hl => by
      rw [eval_node, nearest_apply low.not_mem_levels, hv]
      exact ihl hl v
    have high' : ∀ v : Level → Bool, v i = true → h ≠ Tree.leaf false →
        (Tree.node i l h).eval (h.nearest v) = true := fun v hv hh => by
      rw [eval_node, nearest_apply high.not_mem_levels, hv]
      exact ihh hh v
    rw [nearest]
    split
    · rename_i hv
      split
      · rename_i hh
        exact low' _ (Function.update_self _ _ _) fun hl => ne (hl.trans hh.symm)
      · rename_i hh
        exact high' v hv hh
    · rename_i hv
      split
      · rename_i hl
        exact high' _ (Function.update_self _ _ _) fun hh => ne (hl.trans hh.symm)
      · rename_i hl
        exact low' v (Bool.eq_false_iff.mpr hv) hl

/-- An assignment within the care set is nearest to itself. -/
theorem nearest_eq (h : t.eval v = true) : t.nearest v = v := by
  induction t with
  | leaf => rfl
  | node k l h' ihl ihh =>
    rw [eval_node] at h
    rw [nearest]
    split at h
    · rename_i hv
      rw [if_pos hv, if_neg, ihh h]
      rintro rfl
      cases h
    · rename_i hv
      rw [if_neg hv, if_neg, ihl h]
      rintro rfl
      cases h

/-- A level that the tree does not decide makes no difference to what is flipped. -/
theorem nearest_update (hk : k ∉ t.levels) (v : Level → Bool) (b : Bool) :
    t.nearest (Function.update v k b) = Function.update (t.nearest v) k b := by
  induction t generalizing v with
  | leaf => rfl
  | node i l h ihl ihh =>
    rw [mem_levels_node, not_or, not_or] at hk
    obtain ⟨hki, hl, hh⟩ := hk
    simp only [nearest, Function.update_of_ne (Ne.symm hki), Function.update_comm hki, ihl hl, ihh hh]
    split
    · split <;> rfl
    · split <;> rfl

/-! ### Generalised cofactors -/

/-- Outside the care set, the generalised cofactor has the value that its operand has at the nearest
assignment within. -/
theorem Proper.eval_constrain (hf : Proper j f) (hc : Proper j c) (hne : c ≠ Tree.leaf false)
    (v : Level → Bool) : (Tree.constrain f c).eval v = f.eval (c.nearest v) := by
  induction hn : sizeOf f + sizeOf c using Nat.strongRecOn generalizing j f c v with
  | ind n ih =>
    subst hn
    rw [Tree.constrain]
    split
    · rename_i hstop
      rcases hstop with hnone | rfl
      · cases f with
        | leaf => rfl
        | node => cases hnone
      · rfl
    split
    · rename_i hcf
      subst hcf
      exact (hc.eval_nearest hne v).symm
    split
    · rename_i hnone
      cases f with
      | leaf => rfl
      | node => cases c <;> cases hnone
    rename_i k hk
    obtain ⟨-, hkf, hkc⟩ := hf.top hc hk
    -- One side: the level has the value of the side, and what stands below it is left to the rest.
    have side : ∀ (b : Bool) (w : Level → Bool), c.cofactor k b ≠ Tree.leaf false →
        (Tree.constrain (f.cofactor k b) (c.cofactor k b)).eval w =
          f.eval ((c.cofactor k b).nearest (Function.update w k b)) := fun b w hb => by
      rw [ih _ (sizeOf_split hk b) (hkf.cofactor b) (hkc.cofactor b) hb w rfl, hkf.eval_cofactor,
        nearest_update (hkc.cofactor b).not_mem_levels]
    -- The assignment goes to a side that is not false, or it is flipped.
    have kept : ∀ b, v k = b → c.cofactor k b ≠ Tree.leaf false →
        (Tree.constrain (f.cofactor k b) (c.cofactor k b)).eval v = f.eval (c.nearest v) := by
      rintro _ rfl hb
      rw [side _ v hb, Function.update_eq_self, ← nearest_of_ne hb]
    have flipped : ∀ b, c.cofactor k b = Tree.leaf false →
        (Tree.constrain (f.cofactor k (!b)) (c.cofactor k (!b))).eval v = f.eval (c.nearest v) := by
      intro b hb
      have hb' := hkc.cofactor_ne hne hb
      by_cases hv : v k = b
      · subst hv
        rw [side _ v hb', nearest_of_eq hne hb]
      · exact kept (!b) (by cases b <;> simpa using hv) hb'
    split
    · rename_i hb
      exact flipped false hb
    rename_i hfalse
    split
    · rename_i hb
      exact flipped true hb
    · rename_i htrue
      rw [eval_make]
      split
      · rename_i hv
        exact kept true hv htrue
      · rename_i hv
        exact kept false (Bool.eq_false_iff.mpr hv) hfalse

/-! ### Simplification -/

/-- Within the care set, the simplified tree has the values of its operand. -/
theorem Proper.eval_simplify (hf : Proper i f) (hd : Proper j d) (hv : d.eval v = true) :
    (Tree.simplify f d).eval v = f.eval v := by
  induction hf generalizing d j with
  | leaf => rfl
  | @node i k l h le ne low high ihl ihh =>
    have hc : (Tree.drop k d).eval v = true := (hd.eval_drop k v).mpr ⟨v, fun _ _ => rfl, hv⟩
    have hp := hd.drop k
    -- The side that the assignment takes is not false.
    have side : ∀ b, v k = b → ((Tree.drop k d).cofactor k b).eval v = true := by
      rintro _ rfl
      rw [Tree.eval_cofactor, hc]
    have empty : ∀ b, (Tree.drop k d).cofactor k b = Tree.leaf false → v k = !b := by
      intro b hb
      by_contra hv
      have hside := side b (by cases b <;> simpa using hv)
      rw [hb] at hside
      cases hside
    rw [Tree.simplify]
    split
    · rfl
    split
    · rename_i heq
      rw [← heq, hc, eval_leaf]
    split
    · rename_i heq
      rw [heq] at hc
      cases hc
    split
    · rename_i hb
      have hk : v k = true := empty false hb
      rw [eval_node, if_pos hk]
      exact ihh (hp.cofactor true) (side true hk)
    split
    · rename_i hb
      have hk : v k = false := empty true hb
      rw [eval_node, if_neg (by simp [hk])]
      exact ihl (hp.cofactor false) (side false hk)
    · rw [eval_make, eval_node]
      split
      · rename_i hk
        exact ihh (hp.cofactor true) (side true hk)
      · rename_i hk
        exact ihl (hp.cofactor false) (side false (Bool.eq_false_iff.mpr hk))

theorem mem_levels_of_simplify (hj : j ∈ (simplify f d).levels) : j ∈ f.levels := by
  induction f generalizing d with
  | leaf => exact hj
  | node k l h ihl ihh =>
    rw [simplify] at hj
    split at hj
    · exact hj
    split at hj
    · cases hj
    split at hj
    · cases hj
    split at hj
    · exact mem_levels_node.mpr (.inr (.inr (ihh hj)))
    split at hj
    · exact mem_levels_node.mpr (.inr (.inl (ihl hj)))
    · exact mem_levels_node.mpr ((mem_levels_of_make hj).imp_right (Or.imp ihl ihh))

end DecisionDiagram.Tree
