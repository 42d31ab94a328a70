/-
What renaming the levels of a decision tree means.

* `Tree.renamed` — the level that a level is renamed to;
* `Tree.Proper.eval_rename` — each level has the value of the one that it is renamed to;
* `Tree.Proper.exists_rename` — there is no conflict if no two levels of the tree become one.
-/
import Mathlib.Data.Set.Function
import DecisionDiagram.Proofs.Tree.Support

namespace DecisionDiagram.Tree

variable {v : Level → Bool} {i j k last : Level} {s t u : Tree} {τ : Level → Option Level}

/-! ### One level -/

/-- The variable has come down to its level, or both branches of a level above it have been done. -/
theorem sink_eq_some (h : sink k s t = some u) :
    u = make k s t ∨ ∃ i l r, top s t = some i ∧
      sink k (s.cofactor i false) (t.cofactor i false) = some l ∧
      sink k (s.cofactor i true) (t.cofactor i true) = some r ∧ u = make i l r := by
  rw [sink] at h
  split at h
  · cases h
  split at h
  · exact .inl (Option.some.inj h).symm
  rename_i i hi
  split at h
  · exact .inl (Option.some.inj h).symm
  · obtain ⟨l, hl, h⟩ := Option.bind_eq_some_iff.mp h
    obtain ⟨r, hr, rfl⟩ := Option.map_eq_some_iff.mp h
    exact .inr ⟨i, l, r, hi, hl, hr, rfl⟩

theorem eval_sink (h : sink k s t = some u) (v : Level → Bool) :
    u.eval v = if v k then t.eval v else s.eval v := by
  induction hn : sizeOf s + sizeOf t using Nat.strongRecOn generalizing s t u with
  | ind n ih =>
    subst hn
    obtain rfl | ⟨i, l, r, hi, hl, hr, rfl⟩ := sink_eq_some h
    · exact eval_make _ _ _ _
    have side : ∀ {b : Bool} {u : Tree}, v i = b →
        sink k (s.cofactor i b) (t.cofactor i b) = some u →
        u.eval v = if v k then t.eval v else s.eval v := by
      rintro _ u rfl hu
      rw [ih _ (sizeOf_split hi _) hu rfl, eval_cofactor, eval_cofactor]
    rw [eval_make]
    split
    · rename_i hv
      exact side hv hr
    · rename_i hv
      exact side (Bool.eq_false_iff.mpr hv) hl

theorem mem_levels_of_sink (h : sink k s t = some u) (hj : j ∈ u.levels) :
    j = k ∨ j ∈ s.levels ∨ j ∈ t.levels := by
  induction hn : sizeOf s + sizeOf t using Nat.strongRecOn generalizing s t u with
  | ind n ih =>
    subst hn
    obtain rfl | ⟨i, l, r, hi, hl, hr, rfl⟩ := sink_eq_some h
    · exact mem_levels_of_make hj
    have side : ∀ {b : Bool} {u : Tree}, sink k (s.cofactor i b) (t.cofactor i b) = some u →
        j ∈ u.levels → j = k ∨ j ∈ s.levels ∨ j ∈ t.levels := fun hu hj =>
      (ih _ (sizeOf_split hi _) hu hj rfl).imp_right
        (Or.imp mem_levels_of_cofactor mem_levels_of_cofactor)
    rcases mem_levels_of_make hj with rfl | hj | hj
    · exact .inr ((level_of_top hi).imp mem_levels_of_level mem_levels_of_level)
    · exact side hl hj
    · exact side hr hj

/-- A level that neither tree decides has its place. -/
theorem exists_sink (hs : k ∉ s.levels) (ht : k ∉ t.levels) : ∃ u, sink k s t = some u := by
  induction hn : sizeOf s + sizeOf t using Nat.strongRecOn generalizing s t with
  | ind n ih =>
    subst hn
    rw [sink, if_neg (not_or.mpr
      ⟨fun h => hs (mem_levels_of_level h), fun h => ht (mem_levels_of_level h)⟩)]
    split
    · exact ⟨_, rfl⟩
    rename_i i hi
    split
    · exact ⟨_, rfl⟩
    · have side := fun b => ih _ (sizeOf_split hi b) (fun h => hs (mem_levels_of_cofactor h))
        (fun h => ht (mem_levels_of_cofactor h)) rfl
      obtain ⟨l, hl⟩ := side false
      obtain ⟨r, hr⟩ := side true
      exact ⟨_, by rw [hl, hr]; rfl⟩

/-! ### All levels -/

/-- The level that a level is renamed to.  Those below `last` stay. -/
def renamed (τ : Level → Option Level) (last k : Level) : Level :=
  if last < k then k else (τ k).getD k

/-- A renamed tree has the value that the original one has where each level has the value of the one that
it is renamed to. -/
theorem Proper.eval_rename (ht : Proper i t) (h : Tree.rename τ last t = some u) (v : Level → Bool) :
    u.eval v = t.eval fun k => v (renamed τ last k) := by
  induction ht generalizing u with
  | leaf =>
    obtain rfl := Option.some.inj h
    rfl
  | @node i k l r le ne low high ihl ihr =>
    rw [Tree.rename] at h
    split at h
    · rename_i hlast
      obtain rfl := Option.some.inj h
      refine (Proper.node (Nat.le_refl k) ne low high).eval_congr fun j hj => ?_
      rw [renamed, if_pos (Nat.lt_of_lt_of_le hlast hj)]
    · rename_i hlast
      obtain ⟨l', hl, h⟩ := Option.bind_eq_some_iff.mp h
      obtain ⟨r', hr, h⟩ := Option.bind_eq_some_iff.mp h
      obtain ⟨j, hj, h⟩ := Option.bind_eq_some_iff.mp h
      rw [eval_sink h, ihl hl, ihr hr, eval_node, renamed, if_neg hlast, hj]
      rfl

/-- Renaming has no conflict if it does not make one level of two that the tree decides. -/
theorem Proper.exists_rename (ht : Proper i t) (hτ : ∀ k ∈ t.levels, k ≤ last → ∃ j, τ k = some j)
    (hinj : Set.InjOn (renamed τ last) {k | k ∈ t.levels}) :
    ∃ u, Tree.rename τ last t = some u ∧
      ∀ j ∈ u.levels, ∃ k ∈ t.levels, renamed τ last k = j := by
  induction ht with
  | leaf => exact ⟨_, rfl, fun _ hj => (by cases hj)⟩
  | @node i k l r le ne low high ihl ihr =>
    rw [Tree.rename]
    split
    · rename_i hlast
      refine ⟨_, rfl, fun j hj => ⟨j, hj, if_pos ?_⟩⟩
      exact Nat.lt_of_lt_of_le hlast ((Proper.node (Nat.le_refl k) ne low high).le_of_mem_levels hj)
    · rename_i hlast
      have hk : k ∈ (Tree.node k l r).levels := mem_levels_node.mpr (.inl rfl)
      have hl : ∀ j ∈ l.levels, j ∈ (Tree.node k l r).levels := fun j hj =>
        mem_levels_node.mpr (.inr (.inl hj))
      have hr : ∀ j ∈ r.levels, j ∈ (Tree.node k l r).levels := fun j hj =>
        mem_levels_node.mpr (.inr (.inr hj))
      obtain ⟨l', hl', hlevels⟩ := ihl (fun j hj => hτ j (hl j hj)) (hinj.mono hl)
      obtain ⟨r', hr', hrevels⟩ := ihr (fun j hj => hτ j (hr j hj)) (hinj.mono hr)
      obtain ⟨j, hj⟩ := hτ k hk (Nat.not_lt.mp hlast)
      have hkj : renamed τ last k = j := by
        rw [renamed, if_neg hlast, hj]
        rfl
      -- The level is renamed to one that the branches do not have.
      have absent : ∀ {s s' : Tree}, Proper (k + 1) s → (∀ j ∈ s.levels, j ∈ (Tree.node k l r).levels) →
          (∀ j ∈ s'.levels, ∃ k ∈ s.levels, renamed τ last k = j) → j ∉ s'.levels := by
        intro s s' hs hmem hlevels hj
        obtain ⟨k', hk', heq⟩ := hlevels j hj
        obtain rfl := hinj (hmem k' hk') hk (heq.trans hkj.symm)
        exact hs.not_mem_levels hk'
      obtain ⟨u, hu⟩ := exists_sink (absent low hl hlevels) (absent high hr hrevels)
      refine ⟨u, by rw [hl', hr', hj]; exact hu, fun j' hj' => ?_⟩
      rcases mem_levels_of_sink hu hj' with rfl | hj' | hj'
      · exact ⟨k, hk, hkj⟩
      · obtain ⟨k', hk', heq⟩ := hlevels j' hj'
        exact ⟨k', hl k' hk', heq⟩
      · obtain ⟨k', hk', heq⟩ := hrevels j' hj'
        exact ⟨k', hr k' hk', heq⟩

end DecisionDiagram.Tree
