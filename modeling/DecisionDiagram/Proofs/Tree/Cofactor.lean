/-
Cofactors of decision trees.

* `Tree.fixes`, `Tree.restrict` — the variables that a cube of literals fixes, and their restriction;
* `Tree.constrain` — the generalised cofactor;
* `Tree.drop`, `Tree.simplify` — the same where the operand decides a variable, after the care set is
  weakened by the variables above the operand.
-/
import DecisionDiagram.Proofs.Tree.Connective

namespace DecisionDiagram.Tree

variable {v w : Level → Bool} {i j k : Level} {c d f h l t : Tree}

/-! ### Restriction -/

/-- What a cube of literals fixes a level to, if it does. A node whose low branch is false fixes its
level to true and goes on with its high branch. -/
def fixes : Tree → Level → Option Bool
  | leaf _, _ => none
  | node k l h, j =>
    if l = leaf false then if j = k then some true else h.fixes j
    else if j = k then some false else l.fixes j

/-- Follows the branch of each level that is fixed. -/
def restrict (fix : Level → Option Bool) : Tree → Tree
  | leaf b => leaf b
  | node k l h =>
    match fix k with
    | some b => if b then restrict fix h else restrict fix l
    | none => make k (restrict fix l) (restrict fix h)

theorem Proper.restrict (ht : Proper k t) (fix : Level → Option Bool) :
    Proper k (Tree.restrict fix t) := by
  induction ht with
  | leaf => exact .leaf _ _
  | node le _ _ _ ihl ihh =>
    rw [Tree.restrict]
    split
    · split
      · exact ihh.mono (by lia)
      · exact ihl.mono (by lia)
    · exact (Proper.make ihl ihh).mono le

/-- Levels above the tree make no difference. -/
theorem Proper.restrict_eq (ht : Proper k t) {fix : Level → Option Bool}
    (hfix : ∀ j, k ≤ j → fix j = none) : Tree.restrict fix t = t := by
  induction ht with
  | leaf => rfl
  | @node k i l h le ne _ _ ihl ihh =>
    have below : ∀ j, i + 1 ≤ j → fix j = none := fun j hj => hfix j (by lia)
    rw [Tree.restrict, hfix i le, ihl below, ihh below, Tree.make, if_neg ne]

/-! ### Generalised cofactors -/

/-- The generalised cofactor of `f` for the care set `c`. Outside the care set, the value is that of
the nearest assignment within, along the order. -/
def constrain (f c : Tree) : Tree :=
  if f.level? = none ∨ c = leaf true then f
  else if c = f then leaf true
  else if c = leaf false then leaf false
  else
    match _hk : top f c with
    | none => f
    | some k =>
      if c.cofactor k false = leaf false then constrain (f.cofactor k true) (c.cofactor k true)
      else if c.cofactor k true = leaf false then
        constrain (f.cofactor k false) (c.cofactor k false)
      else
        make k (constrain (f.cofactor k false) (c.cofactor k false))
          (constrain (f.cofactor k true) (c.cofactor k true))
termination_by sizeOf f + sizeOf c
decreasing_by all_goals exact sizeOf_split _hk _

/-- One step of the generalised cofactor, where no simple case applies. -/
theorem constrain_of_top (hf : ¬ (f.level? = none ∨ c = leaf true)) (hcf : c ≠ f)
    (hc : c ≠ leaf false) (hk : top f c = some k) :
    constrain f c =
      if c.cofactor k false = leaf false then constrain (f.cofactor k true) (c.cofactor k true)
      else if c.cofactor k true = leaf false then
        constrain (f.cofactor k false) (c.cofactor k false)
      else
        make k (constrain (f.cofactor k false) (c.cofactor k false))
          (constrain (f.cofactor k true) (c.cofactor k true)) := by
  rw [constrain, if_neg hf, if_neg hcf, if_neg hc]
  split
  · rename_i hk'
    rw [hk] at hk'
    cases hk'
  · rename_i i hk'
    obtain rfl := Option.some.inj (hk.symm.trans hk')
    rfl

theorem Proper.constrain (hf : Proper j f) (hc : Proper j c) : Proper j (constrain f c) := by
  induction hn : sizeOf f + sizeOf c using Nat.strongRecOn generalizing j f c with
  | ind n ih =>
    subst hn
    rw [Tree.constrain]
    split
    · exact hf
    split
    · exact .leaf _ _
    split
    · exact .leaf _ _
    split
    · exact hf
    rename_i k hk
    obtain ⟨hle, hkf, hkc⟩ := hf.top hc hk
    have side := fun b => ih _ (sizeOf_split hk b) (hkf.cofactor b) (hkc.cofactor b) rfl
    split
    · exact (side true).mono (by lia)
    split
    · exact (side false).mono (by lia)
    · exact (Proper.make (side false) (side true)).mono hle

/-! ### Simplification -/

/-- The care set weakened by the levels above `k`: what holds for some value of these. -/
def drop (k : Level) : Tree → Tree
  | leaf b => leaf b
  | node j l h => if j < k then apply .or (drop k l) (drop k h) else node j l h

/-- The tree that follows `f` and, alongside, the care set `d`. -/
def simplify : Tree → Tree → Tree
  | leaf b, _ => leaf b
  | node k l h, d =>
    let c := drop k d
    if c = leaf true then node k l h
    else if c = node k l h then leaf true
    else if c = leaf false then leaf false
    else if c.cofactor k false = leaf false then simplify h (c.cofactor k true)
    else if c.cofactor k true = leaf false then simplify l (c.cofactor k false)
    else make k (simplify l (c.cofactor k false)) (simplify h (c.cofactor k true))

theorem Proper.drop_eq (ht : Proper k t) : drop k t = t := by
  cases ht with
  | leaf => rfl
  | node le _ _ _ => rw [Tree.drop, if_neg (by lia)]

theorem Proper.drop (ht : Proper j t) (k : Level) : Proper k (drop k t) := by
  induction ht with
  | leaf => exact .leaf _ _
  | node le ne low high ihl ihh =>
    rw [Tree.drop]
    split
    · exact .apply .or ihl ihh
    · exact .node (by lia) ne low high

/-- The weakened care set holds where the original one does for some value of the levels above. -/
theorem Proper.eval_drop (ht : Proper j t) (k : Level) (v : Level → Bool) :
    (Tree.drop k t).eval v = true ↔ ∃ w, (∀ i, k ≤ i → w i = v i) ∧ t.eval w = true := by
  induction ht with
  | leaf =>
    refine ⟨fun h => ⟨v, fun _ _ => rfl, h⟩, ?_⟩
    rintro ⟨_, _, h⟩
    exact h
  | @node j i l h le ne low high ihl ihh =>
    rw [Tree.drop]
    split
    · rename_i hlt
      -- A level above `k` may take any value, and neither branch looks at it.
      have side : ∀ {s : Tree} (b : Bool), Proper (i + 1) s → ∀ w, s.eval w = true →
          (∀ n, k ≤ n → w n = v n) → ∃ w', (∀ n, k ≤ n → w' n = v n) ∧ w' i = b ∧
            s.eval w' = true := by
        intro s b hs w hw hv
        refine ⟨Function.update w i b, fun n hn => ?_, Function.update_self _ _ _, ?_⟩
        · rw [Function.update_of_ne (by lia), hv n hn]
        · rw [hs.eval_update, hw]
      rw [eval_apply]
      simp only [Connective.eval, Bool.or_eq_true, ihl, ihh]
      constructor
      · rintro (⟨w, hv, hw⟩ | ⟨w, hv, hw⟩)
        · obtain ⟨w', hv', hi, hw'⟩ := side false low w hw hv
          exact ⟨w', hv', by rw [eval_node, hi]; exact hw'⟩
        · obtain ⟨w', hv', hi, hw'⟩ := side true high w hw hv
          exact ⟨w', hv', by rw [eval_node, hi]; exact hw'⟩
      · rintro ⟨w, hv, hw⟩
        rw [eval_node] at hw
        split at hw
        · exact .inr ⟨w, hv, hw⟩
        · exact .inl ⟨w, hv, hw⟩
    · rename_i hge
      refine ⟨fun h => ⟨v, fun _ _ => rfl, h⟩, ?_⟩
      rintro ⟨w, hv, hw⟩
      rw [← hw]
      exact Proper.eval_congr (.node (Nat.le_refl i) ne low high) fun n hn =>
        (hv n (by lia)).symm

/-- One step of the simplification, where no simple case applies and the care set decides no level
above the operand. -/
theorem simplify_node (hd : Proper k d) (htrue : d ≠ leaf true) (hne : d ≠ node k l h)
    (hfalse : d ≠ leaf false) :
    simplify (node k l h) d =
      if d.cofactor k false = leaf false then simplify h (d.cofactor k true)
      else if d.cofactor k true = leaf false then simplify l (d.cofactor k false)
      else make k (simplify l (d.cofactor k false)) (simplify h (d.cofactor k true)) := by
  rw [simplify, hd.drop_eq, if_neg htrue, if_neg hne, if_neg hfalse]

/-- A disjunction is weakened on both sides. -/
theorem drop_apply_or (hl : Proper j l) (hh : Proper i h) (k : Level) :
    drop k (apply .or l h) = apply .or (drop k l) (drop k h) := by
  have hp : Proper (min i j) (apply .or l h) :=
    .apply .or (hl.mono (Nat.min_le_right _ _)) (hh.mono (Nat.min_le_left _ _))
  refine eq_of_eval (hp.drop k) (.apply .or (hl.drop k) (hh.drop k)) fun v => ?_
  rw [eval_apply, Bool.eq_iff_iff, hp.eval_drop k v]
  simp only [eval_apply, Connective.eval, Bool.or_eq_true, hl.eval_drop k v, hh.eval_drop k v]
  constructor
  · rintro ⟨w, hv, hw | hw⟩
    · exact .inl ⟨w, hv, hw⟩
    · exact .inr ⟨w, hv, hw⟩
  · rintro (⟨w, hv, hw⟩ | ⟨w, hv, hw⟩)
    · exact ⟨w, hv, .inl hw⟩
    · exact ⟨w, hv, .inr hw⟩

/-- The care set may be weakened first by a level above the operand. -/
theorem simplify_apply_or (hf : Proper (k + 1) f) (hl : Proper (k + 1) l) (hh : Proper (k + 1) h) :
    simplify f (node k l h) = simplify f (apply .or l h) := by
  cases hf with
  | leaf => rfl
  | @node _ i f₀ f₁ le ne low high =>
    have hdrop : drop i (node k l h) = drop i (apply .or l h) := by
      rw [drop_apply_or hl hh, drop, if_pos (by lia)]
    rw [simplify, simplify, hdrop]

theorem Proper.simplify (hf : Proper k f) (d : Tree) : Proper k (simplify f d) := by
  induction hf generalizing d with
  | leaf => exact .leaf _ _
  | node le ne low high ihl ihh =>
    rw [Tree.simplify]
    split
    · exact .node le ne low high
    split
    · exact .leaf _ _
    split
    · exact .leaf _ _
    split
    · exact (ihh _).mono (by lia)
    split
    · exact (ihl _).mono (by lia)
    · exact (Proper.make (ihl _) (ihh _)).mono le

end DecisionDiagram.Tree
