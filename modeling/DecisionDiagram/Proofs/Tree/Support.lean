/-
The levels that the value of a tree depends on.

* `Tree.Proper.mem_levels` — a proper tree depends on each level that it decides somewhere, and on no
  other;
* `Tree.eval_congr_levels` — the values at the other levels do not matter.
-/
import DecisionDiagram.Proofs.Tree.Witness

namespace DecisionDiagram.Tree

variable {v w : Level → Bool} {i j k : Level} {l h t : Tree}

theorem levels_node : (node k l h).levels = k :: (l.levels ++ h.levels) := rfl

theorem mem_levels_node : j ∈ (node k l h).levels ↔ j = k ∨ j ∈ l.levels ∨ j ∈ h.levels := by
  rw [levels_node, List.mem_cons, List.mem_append]

theorem mem_levels_of_make (hj : j ∈ (make k l h).levels) :
    j = k ∨ j ∈ l.levels ∨ j ∈ h.levels := by
  unfold make at hj
  split at hj
  · exact .inr (.inl hj)
  · exact mem_levels_node.mp hj

theorem mem_levels_of_cofactor {b : Bool} (hj : j ∈ (t.cofactor k b).levels) : j ∈ t.levels := by
  cases t with
  | leaf => exact hj
  | node i l h =>
    rw [cofactor] at hj
    split at hj
    · refine mem_levels_node.mpr (.inr ?_)
      cases b
      · exact .inl hj
      · exact .inr hj
    · exact hj

theorem mem_levels_of_level (hk : t.level? = some k) : k ∈ t.levels := by
  cases t with
  | leaf => cases hk
  | node => exact mem_levels_node.mpr (.inl (Option.some.inj hk).symm)

theorem eval_congr_levels (hv : ∀ j ∈ t.levels, v j = w j) : t.eval v = t.eval w := by
  induction t with
  | leaf => rfl
  | node k l h ihl ihh =>
    have hl := ihl fun j hj => hv j (mem_levels_node.mpr (.inr (.inl hj)))
    have hh := ihh fun j hj => hv j (mem_levels_node.mpr (.inr (.inr hj)))
    rw [eval_node, eval_node, hv k (mem_levels_node.mpr (.inl rfl)), hl, hh]

theorem Proper.le_of_mem_levels (ht : Proper k t) (hj : j ∈ t.levels) : k ≤ j := by
  induction ht with
  | leaf => cases hj
  | node le _ _ _ ihl ihh =>
    rcases mem_levels_node.mp hj with rfl | hj | hj
    · exact le
    · exact Nat.le_trans (by lia) (ihl hj)
    · exact Nat.le_trans (by lia) (ihh hj)

theorem Proper.not_mem_levels (ht : Proper (k + 1) t) : k ∉ t.levels := fun hk =>
  Nat.not_succ_le_self k (ht.le_of_mem_levels hk)

/-- Branches that differ do so somewhere. -/
theorem Proper.exists_eval_ne (hl : Proper k l) (hh : Proper k h) (hne : l ≠ h) :
    ∃ v, l.eval v ≠ h.eval v := by
  by_contra hall
  exact hne (eq_of_eval hl hh fun v => by_contra fun hv => hall ⟨v, hv⟩)

/-- A proper tree changes its value with a level if and only if it decides the level somewhere. -/
theorem Proper.mem_levels (ht : Proper i t) :
    k ∈ t.levels ↔
      ∃ v, t.eval (Function.update v k false) ≠ t.eval (Function.update v k true) := by
  constructor
  · intro hk
    induction ht with
    | leaf => cases hk
    | @node i j l h le ne low high ihl ihh =>
      -- Below `j`, the assignment that goes to the branch makes the same difference there.
      have below : ∀ {t : Tree} (b : Bool), Proper (j + 1) t → k ∈ t.levels →
          (∀ v, v j = b → (Tree.node j l h).eval v = t.eval v) →
          (∃ v, t.eval (Function.update v k false) ≠ t.eval (Function.update v k true)) →
          ∃ v, (Tree.node j l h).eval (Function.update v k false) ≠
            (Tree.node j l h).eval (Function.update v k true) := by
        rintro t b hp hmem hside ⟨v, hv⟩
        have hjk : j ≠ k := by
          have := hp.le_of_mem_levels hmem
          lia
        refine ⟨Function.update v j b, ?_⟩
        rw [Function.update_comm hjk, Function.update_comm hjk,
          hside _ (Function.update_self _ _ _), hside _ (Function.update_self _ _ _),
          hp.eval_update, hp.eval_update]
        exact hv
      rcases mem_levels_node.mp hk with rfl | hk | hk
      · obtain ⟨v, hv⟩ := low.exists_eval_ne high ne
        refine ⟨v, ?_⟩
        simpa [eval_node, low.eval_update, high.eval_update] using hv
      · exact below false low hk (fun v hv => by simp [eval_node, hv]) (ihl hk)
      · exact below true high hk (fun v hv => by simp [eval_node, hv]) (ihh hk)
  · rintro ⟨v, hv⟩
    by_contra hk
    refine hv (eval_congr_levels fun j hj => ?_)
    have hjk : j ≠ k := fun heq => hk (heq ▸ hj)
    rw [Function.update_of_ne hjk, Function.update_of_ne hjk]

end DecisionDiagram.Tree
