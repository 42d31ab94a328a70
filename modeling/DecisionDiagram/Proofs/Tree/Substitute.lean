/-
Substitution in decision trees.

* `Tree.compose` — one level by a tree; `Tree.eval_compose` is what it means;
* `Tree.vecCompose` — each level by a tree of its own; `Tree.Proper.eval_vecCompose` is what it means;
* `Tree.sink`, `Tree.rename` — each level by another one, where this does not occur.
-/
import DecisionDiagram.Proofs.Tree.Cofactor

namespace DecisionDiagram.Tree

variable {v : Level → Bool} {j k : Level} {f g h l s t : Tree}

/-! ### One level -/

/-- The tree with the level `k` fixed to `b`. -/
def fixLevel (k : Level) (b : Bool) (t : Tree) : Tree :=
  restrict (fun j => if j = k then some b else none) t

/-- Substitutes `g` for the variable at level `k` in `f`. -/
def compose (k : Level) (f g : Tree) : Tree := ite g (fixLevel k true f) (fixLevel k false f)

theorem eval_fixLevel (v : Level → Bool) (k : Level) (b : Bool) (t : Tree) :
    (fixLevel k b t).eval v = t.eval (Function.update v k b) := by
  unfold fixLevel
  induction t with
  | leaf => rfl
  | node i l h ihl ihh =>
    rw [restrict, eval_node]
    by_cases hi : i = k
    · subst hi
      rw [if_pos rfl, Function.update_self]
      cases b
      · exact ihl
      · exact ihh
    · rw [if_neg hi, Function.update_of_ne hi]
      simp only [eval_make, ihl, ihh]

@[simp] theorem eval_compose (v : Level → Bool) (k : Level) (f g : Tree) :
    (compose k f g).eval v = f.eval (Function.update v k (g.eval v)) := by
  rw [compose, eval_ite, eval_fixLevel, eval_fixLevel]
  cases g.eval v <;> rfl

theorem Proper.compose (hf : Proper j f) (hg : Proper j g) : Proper j (compose k f g) :=
  .ite hg (hf.restrict _) (hf.restrict _)

/-- A tree below the level stays as it is. -/
theorem Proper.compose_eq (hf : Proper (k + 1) f) (hg : Proper j g) : Tree.compose k f g = f := by
  have hf' : Proper (min (k + 1) j) f := hf.mono (Nat.min_le_left _ _)
  refine eq_of_eval (hf'.compose (hg.mono (Nat.min_le_right _ _))) hf' fun v => ?_
  rw [eval_compose, hf.eval_update]

/-- One step above the level. -/
theorem compose_eq_make (hjk : j < k) (hf : Proper j f) (hg : Proper j g) :
    compose k f g = make j (compose k (f.cofactor j false) (g.cofactor j false))
      (compose k (f.cofactor j true) (g.cofactor j true)) := by
  refine eq_make (hf.compose hg) ((hf.cofactor false).compose (hg.cofactor false))
    ((hf.cofactor true).compose (hg.cofactor true)) fun v => ?_
  have hside : (compose k (f.cofactor j (v j)) (g.cofactor j (v j))).eval v =
      (compose k f g).eval v := by
    have hf := eval_cofactor (Function.update v k (g.eval v)) f j
    rw [Function.update_of_ne (by lia)] at hf
    rw [eval_compose, eval_compose, eval_cofactor, hf]
  rw [← hside]
  cases v j <;> rfl

/-- One step at the level. -/
theorem compose_eq_ite (hl : Proper (k + 1) l) (hh : Proper (k + 1) h) (g : Tree) :
    compose k (node k l h) g = ite g h l := by
  have side : ∀ {t : Tree} (b : Bool), Proper (k + 1) t →
      restrict (fun j => if j = k then some b else none) t = t := fun b ht =>
    ht.restrict_eq fun j hj => if_neg (by lia)
  rw [compose, fixLevel, fixLevel, restrict, restrict]
  simp only [if_pos, side _ hl, side _ hh, Bool.false_eq_true, if_false]

/-! ### All levels -/

/-- Substitutes `σ k` for each level `k`. The levels below `last` are left as they are. -/
def vecCompose (σ : Level → Tree) (last : Level) : Tree → Tree
  | leaf b => leaf b
  | node k l h =>
    if last < k then node k l h else ite (σ k) (vecCompose σ last h) (vecCompose σ last l)

/-- Only levels up to the last one that is substituted matter. -/
theorem vecCompose_congr {σ τ : Level → Tree} {last : Level} (h : ∀ k, k ≤ last → σ k = τ k)
    (t : Tree) : vecCompose σ last t = vecCompose τ last t := by
  induction t with
  | leaf => rfl
  | node k l h' ihl ihh =>
    rw [vecCompose, vecCompose, ihl, ihh]
    split
    · rfl
    · rw [h k (by lia)]

/-- All levels are substituted at once: each has the value of its substitute, and the levels below
`last` have their own. -/
theorem Proper.eval_vecCompose (ht : Proper k t) (v : Level → Bool) (σ : Level → Tree)
    (last : Level) : (Tree.vecCompose σ last t).eval v =
      t.eval fun j => if last < j then v j else (σ j).eval v := by
  induction ht with
  | leaf => rfl
  | @node k j l h le ne low high ihl ihh =>
    rw [Tree.vecCompose]
    split
    · rename_i hlast
      exact (Proper.node (Nat.le_refl j) ne low high).eval_congr fun i hi => (if_pos (by lia)).symm
    · rename_i hlast
      rw [eval_ite, ihl, ihh, eval_node, if_neg hlast]

/-- A tree below the last level that is substituted stays as it is. -/
theorem Proper.vecCompose_eq {σ : Level → Tree} {last : Level} (ht : Proper (last + 1) t) :
    Tree.vecCompose σ last t = t := by
  cases ht with
  | leaf => rfl
  | node le _ _ _ => rw [Tree.vecCompose, if_pos (by lia)]

/-! ### Renaming -/

/-- The tree that is `t` where level `k` holds and `s` elsewhere, if neither decides `k` on the way
down to it. -/
def sink (k : Level) (s t : Tree) : Option Tree :=
  if s.level? = some k ∨ t.level? = some k then none
  else
    match _hj : top s t with
    | none => some (make k s t)
    | some j =>
      if k < j then some (make k s t)
      else
        (sink k (s.cofactor j false) (t.cofactor j false)).bind fun l =>
          (sink k (s.cofactor j true) (t.cofactor j true)).map fun h => make j l h
termination_by sizeOf s + sizeOf t
decreasing_by all_goals exact sizeOf_split _hj _

/-- Replaces each level `k` by the level `τ k`, if this has no conflict. The levels below `last` are
left as they are. -/
def rename (τ : Level → Option Level) (last : Level) : Tree → Option Tree
  | leaf b => some (leaf b)
  | node k l h =>
    if last < k then some (node k l h)
    else
      (rename τ last l).bind fun l => (rename τ last h).bind fun h => (τ k).bind fun j => sink j l h

theorem proper_of_top_none (h : top s t = none) (k : Level) : Proper k s ∧ Proper k t := by
  cases s <;> cases t <;> first | exact ⟨.leaf _ _, .leaf _ _⟩ | cases h

/-- The topmost level is that of one of the trees. -/
theorem level_of_top (h : top s t = some k) : s.level? = some k ∨ t.level? = some k := by
  cases s with
  | leaf => cases t with
    | leaf => cases h
    | node => exact .inr h
  | node i => cases t with
    | leaf => exact .inl h
    | node i' =>
      have h := Option.some.inj h
      rcases Nat.le_total i i' with hle | hle
      · exact .inl (congrArg some (by lia))
      · exact .inr (congrArg some (by lia))

theorem sink_of_top (hs : s.level? ≠ some k) (ht : t.level? ≠ some k) (hj : top s t = some j)
    (hjk : j < k) :
    sink k s t =
      (sink k (s.cofactor j false) (t.cofactor j false)).bind fun l =>
        (sink k (s.cofactor j true) (t.cofactor j true)).map fun h => make j l h := by
  rw [sink, if_neg (by simp [hs, ht])]
  split
  · rename_i hj'
    rw [hj] at hj'
    cases hj'
  · rename_i i hj'
    obtain rfl := Option.some.inj (hj.symm.trans hj')
    rw [if_neg (by lia)]

theorem sink_of_proper (hs : Proper (k + 1) s) (ht : Proper (k + 1) t) :
    sink k s t = some (make k s t) := by
  have above : ∀ {t : Tree}, Proper (k + 1) t → t.level? ≠ some k := by
    intro t ht h
    cases ht with
    | leaf => cases h
    | node le _ _ _ =>
      obtain rfl := Option.some.inj h
      lia
  rw [sink, if_neg (by simp [above hs, above ht])]
  split
  · rfl
  · rename_i j hj
    have := (hs.top ht hj).1
    rw [if_pos (by lia)]

/-- What is sunk to a level stands no higher than all three. -/
theorem Proper.sink (hs : Proper j s) (ht : Proper j t) (hjk : j ≤ k) {u : Tree}
    (h : Tree.sink k s t = some u) : Proper j u := by
  induction hn : sizeOf s + sizeOf t using Nat.strongRecOn generalizing j s t u with
  | ind n ih =>
    subst hn
    rw [Tree.sink] at h
    split at h
    · cases h
    split at h
    · rename_i hnone
      obtain ⟨ps, pt⟩ := proper_of_top_none hnone (k + 1)
      exact Option.some.inj h ▸ (ps.make pt).mono hjk
    · rename_i i hi
      obtain ⟨hle, ps, pt⟩ := hs.top ht hi
      split at h
      · rename_i hlt
        exact Option.some.inj h ▸ ((ps.mono hlt).make (pt.mono hlt)).mono hjk
      · -- Both branches stand below the level that they are split on.
        rename_i hneq hge
        have hik : i ≠ k := fun heq => hneq (heq ▸ level_of_top hi)
        obtain ⟨l, hl, h⟩ := Option.bind_eq_some_iff.mp h
        obtain ⟨r, hr, rfl⟩ := Option.map_eq_some_iff.mp h
        have side := fun b {u} => ih _ (sizeOf_split hi b) (u := u) (ps.cofactor b) (pt.cofactor b)
          (by lia)
        exact ((side false hl rfl).make (side true hr rfl)).mono hle

theorem Proper.rename_eq {τ : Level → Option Level} {last : Level} (ht : Proper (last + 1) t) :
    Tree.rename τ last t = some t := by
  cases ht with
  | leaf => rfl
  | node le _ _ _ => rw [Tree.rename, if_pos (by lia)]

theorem rename_congr {σ τ : Level → Option Level} {last : Level} (h : ∀ k, k ≤ last → σ k = τ k)
    (t : Tree) : rename σ last t = rename τ last t := by
  induction t with
  | leaf => rfl
  | node k l h' ihl ihh =>
    rw [rename, rename, ihl, ihh]
    split
    · rfl
    · rw [h k (by lia)]

end DecisionDiagram.Tree
