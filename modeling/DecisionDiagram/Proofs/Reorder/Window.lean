/-
Windows do not make the diagrams larger.

A window passes through orders that are worse than the one it started with.  But it remembers a best
one, and takes back what it did since then.  As the size is a function of the order, this brings the
size back too.

* `Session.Shrinks` — a walk to a session that is as large or smaller, as long as no more nodes stay;
* `Reordering.Improving` — a pass over a row that leaves its blocks in an order that is as good or
  better;
* `Visits` — what is known after some steps of a window: the rows that were passed and the first best
  one of them;
* `win3At_ok` — a window of three ends with this row;
* `Improving.win2`, `.win3` — windows that slide over a row are such passes.
-/
import DecisionDiagram.Proofs.Reorder.Rows

namespace DecisionDiagram

namespace Session

/-- The work has led to a session that is not larger, unless more nodes stay. -/
structure Shrinks (s s' : Session) : Prop where
  sound : s.Sound
  walk : s.Walk s'
  le : s'.holding ≤ s.holding → s'.size ≤ s.size

/-- A row of blocks has been put into an order that is as good or better. -/
structure Improves (A B : List Var) (row row' : Array Block) (s s' : Session) : Prop
    extends Shrinks s s' where
  perm : row'.toList.Perm row.toList
  lays : s'.Lays A row' B

variable {A B : List Var} {row row' row'' : Array Block} {n : Nat} {s s' s'' : Session}

theorem Shrinks.refl (hs : s.Sound) : s.Shrinks s := ⟨hs, .refl, fun _ => Nat.le_refl _⟩

theorem Shrinks.trans (h : s.Shrinks s') (h' : s'.Shrinks s'') : s.Shrinks s'' := by
  refine ⟨h.sound, h.walk.trans h'.walk, fun hle => ?_⟩
  have hfirst := h.walk.holding_le h.sound
  have hsecond := h'.walk.holding_le h'.sound
  exact (h'.le (hle.trans hfirst)).trans (h.le (hsecond.trans hle))

/-- As long as no count is saturated, the nodes that stay are the same all the time. -/
theorem Shrinks.size (h : s.Shrinks s') (hu : s'.Unsaturated) : s'.size ≤ s.size :=
  h.le (h.walk.holding_eq h.sound hu).le

theorem Improves.refl (hl : s.Lays A row B) : Improves A B row row s s :=
  ⟨.refl hl.sound, .refl _, hl⟩

theorem Improves.trans (h : Improves A B row row' s s') (h' : Improves A B row' row'' s' s'') :
    Improves A B row row'' s s'' :=
  ⟨h.toShrinks.trans h'.toShrinks, h'.perm.trans h.perm, h'.lays⟩

/-- A search has come back to a row that was no larger. -/
theorem Passed.improves (hs : s.Sound) (hw : s.Walk s') (hperm : row'.toList.Perm row.toList)
    (hl : s'.Lays A row' B) (hp : s.Passed A row' B n s') (hn : n ≤ s.size) :
    Improves A B row row' s s' :=
  ⟨⟨hs, hw, fun hle => (hp.size_eq hs hl hle).trans_le hn⟩, hperm, hl⟩

end Session

namespace Reordering

open Session

variable {α : Type} {A B : List Var} {row row' R : Array Block} {i offset best bestStep : Nat}
  {steps : List Nat} {s₀ s s' : Session}

/-- The pass over a row leaves the blocks in an order that is as good or better. -/
def Improving (pass : Array Block → Reordering (Array Block)) : Prop :=
  ∀ (A B : List Var) (row row' : Array Block) (s s' : Session), s.Lays A row B →
    pass row s = .ok row' s' → Improves A B row row' s s'

theorem Improving.pure : Improving Pure.pure := by
  intro A B row row' s s' hl h
  cases h
  exact .refl hl

theorem Improving.foldlM {f : Array Block → α → Reordering (Array Block)}
    (hf : ∀ a, Improving fun row => f row a) (l : List α) : Improving fun row => l.foldlM f row := by
  induction l with
  | nil => exact .pure
  | cons a l ih =>
    intro A B row row' s s' hl h
    dsimp only at h
    rw [List.foldlM_cons] at h
    obtain ⟨row₁, s₁, hfirst, hrest⟩ := bind_ok h
    have h₁ := hf a _ _ _ _ _ _ hl hfirst
    exact h₁.trans (ih _ _ _ _ _ _ h₁.lays hrest)

/-! ### Exchanges in turn -/

/-- The row after exchanges of adjacent blocks. -/
def exchanges (steps : List Nat) (row : Array Block) : Array Block :=
  steps.foldl (fun row i => row.swapIfInBounds i (i + 1)) row

theorem exchanges_append (steps steps' : List Nat) (row : Array Block) :
    exchanges (steps ++ steps') row = exchanges steps' (exchanges steps row) := List.foldl_append

/-- Exchanges are undone when they are made again in reverse. -/
theorem exchanges_reverse (steps : List Nat) (row : Array Block) :
    exchanges steps.reverse (exchanges steps row) = row := by
  induction steps generalizing row with
  | nil => rfl
  | cons i steps ih =>
    rw [List.reverse_cons, exchanges_append]
    show exchanges [i] (exchanges steps.reverse (exchanges steps (row.swapIfInBounds i (i + 1)))) = row
    rw [ih]
    exact swapIfInBounds_swapIfInBounds row i (i + 1)

theorem exchanges_perm (steps : List Nat) (row : Array Block) :
    (exchanges steps row).toList.Perm row.toList := by
  induction steps generalizing row with
  | nil => exact .refl _
  | cons i steps ih => exact (ih _).trans (swapIfInBounds_perm row i (i + 1))

theorem blocksDown_ok (hl : s.Lays A row B) (h : blocksDown steps row s = .ok row' s') :
    row' = exchanges steps row ∧ s'.Lays A row' B := by
  induction steps generalizing row s with
  | nil =>
    cases h
    exact ⟨rfl, hl⟩
  | cons i steps ih =>
    obtain ⟨row₁, s₁, hdown, hrest⟩ := bind_ok h
    obtain ⟨-, rfl, hl₁⟩ := hl.blockDown hdown
    exact ih hl₁ hrest

/-! ### Windows of two -/

theorem Improving.win2At (i : Nat) : Improving fun row => win2At row i := by
  intro A B row row' s s' hl h
  obtain ⟨row₁, s₁, hdown, h⟩ := bind_ok (size_bind_ok h)
  have h := size_bind_ok h
  have hw := (Guided.blockDown i row).walks.walk hdown
  obtain ⟨-, rfl, hl'⟩ := hl.blockDown hdown
  split at h
  · -- The second exchange undoes the first one.
    have hw' := (Guided.blockDown i _).walks.walk h
    obtain ⟨-, rfl, hl''⟩ := hl'.blockDown h
    rw [swapIfInBounds_swapIfInBounds] at hl'' ⊢
    have hw'' := hw.trans hw'
    exact ((hl.passed .refl).walk hw'').improves hl.sound hw'' (.refl _) hl'' (Nat.le_refl _)
  · rename_i hle
    cases h
    exact ⟨⟨hl.sound, hw, fun _ => Nat.not_lt.mp hle⟩, swapIfInBounds_perm row i (i + 1), hl'⟩

theorem Improving.win2 : Improving win2 := fun A B row row' s s' hl h =>
  Improving.foldlM Improving.win2At (List.range (row.size - 1)) A B row row' s s' hl h

/-! ### Windows of three -/

/-- The row `R` after the first `k` of some steps, which are relative to the start `i` of a window. -/
def stage (R : Array Block) (i : Nat) (steps : List Nat) (k : Nat) : Array Block :=
  exchanges ((steps.take k).map (i + ·)) R

theorem stage_append {steps' : List Nat} {k : Nat} (hk : k ≤ steps.length) :
    stage R i (steps ++ steps') k = stage R i steps k := by
  rw [stage, List.take_append_of_le_length hk, stage]

theorem stage_succ : stage R i (steps ++ [offset]) (steps.length + 1) =
    (stage R i steps steps.length).swapIfInBounds (i + offset) (i + offset + 1) := by
  have hlength : steps.length + 1 = (steps ++ [offset]).length := by simp
  rw [stage, stage, hlength, List.take_length, List.take_length, List.map_append, exchanges_append]
  rfl

/-- What is known after some steps of a window: all rows on the way were passed, none of them was better
than the one that is remembered, and this is the first row unless it is better than that. -/
structure Visits (s₀ : Session) (A B : List Var) (R : Array Block) (i : Nat) (steps : List Nat)
    (best bestStep : Nat) (s : Session) : Prop where
  walk : s₀.Walk s
  lays : s.Lays A (stage R i steps steps.length) B
  within : bestStep ≤ steps.length
  passed : s₀.Passed A (stage R i steps bestStep) B best s
  least : ∀ k, k ≤ steps.length → ∃ n, best ≤ n ∧ s₀.Passed A (stage R i steps k) B n s
  better : best < s₀.size ∨ (bestStep = 0 ∧ best = s₀.size)

theorem Visits.start (hl : s.Lays A R B) : Visits s A B R i [] s.size 0 s := by
  refine ⟨.refl, hl, Nat.le_refl _, hl.passed .refl, fun k _ => ?_, .inr ⟨rfl, rfl⟩⟩
  refine ⟨s.size, Nat.le_refl _, ?_⟩
  rw [stage, List.take_nil]
  exact hl.passed .refl

theorem Visits.le (h : Visits s₀ A B R i steps best bestStep s) : best ≤ s₀.size :=
  h.better.elim Nat.le_of_lt fun h => h.2.le

/-- One more step.  The row that it leads to is remembered if it is better. -/
theorem Visits.step (h : Visits s₀ A B R i steps best bestStep s)
    (hdown : blockDown (i + offset) (stage R i steps steps.length) s = .ok row s') :
    row = stage R i (steps ++ [offset]) (steps ++ [offset]).length ∧
      if s'.size < best then
        Visits s₀ A B R i (steps ++ [offset]) s'.size (steps.length + 1) s'
      else Visits s₀ A B R i (steps ++ [offset]) best bestStep s' := by
  have hstep := (Guided.blockDown _ _).walks.walk hdown
  have hw := h.walk.trans hstep
  obtain ⟨-, rfl, hl⟩ := h.lays.blockDown hdown
  have hlength : (steps ++ [offset]).length = steps.length + 1 := by simp
  rw [← stage_succ] at hl ⊢
  have hpassed := hl.passed hw
  -- The rows before are those of the steps before.
  have before : ∀ {k n}, k ≤ steps.length → s₀.Passed A (stage R i steps k) B n s →
      s₀.Passed A (stage R i (steps ++ [offset]) k) B n s' := fun hk hp => by
    rw [stage_append hk]
    exact hp.walk hstep
  have least : ∀ {b}, b ≤ best → b ≤ s'.size → ∀ k, k ≤ (steps ++ [offset]).length →
      ∃ n, b ≤ n ∧ s₀.Passed A (stage R i (steps ++ [offset]) k) B n s' := by
    intro b hbest hsize k hk
    rcases Nat.lt_or_eq_of_le hk with hlt | rfl
    · rw [hlength] at hlt
      obtain ⟨n, hn, hp⟩ := h.least k (Nat.le_of_lt_succ hlt)
      exact ⟨n, hbest.trans hn, before (Nat.le_of_lt_succ hlt) hp⟩
    · rw [hlength]
      exact ⟨s'.size, hsize, hpassed⟩
  rw [hlength]
  refine ⟨rfl, ?_⟩
  split
  · rename_i hlt
    exact ⟨hw, hlength ▸ hl, hlength.ge, hpassed, least (Nat.le_of_lt hlt) (Nat.le_refl _),
      .inl (hlt.trans_le h.le)⟩
  · rename_i hle
    exact ⟨hw, hlength ▸ hl, hlength ▸ Nat.le_succ_of_le h.within, before h.within h.passed,
      least (Nat.le_refl _) (Nat.not_lt.mp hle), h.better⟩

/-- The steps that are left are a suffix of all steps, so one more is made and one less is left. -/
theorem Visits.visit {rest : List Nat} {bestStep' : Nat}
    (h : Visits s₀ A B R i steps best bestStep s)
    (hrun : visit i rest steps.length best bestStep (stage R i steps steps.length) s =
      .ok (bestStep', row') s') :
    row' = stage R i (steps ++ rest) (steps ++ rest).length ∧
      ∃ best', Visits s₀ A B R i (steps ++ rest) best' bestStep' s' := by
  induction rest generalizing steps best bestStep s with
  | nil =>
    cases hrun
    rw [List.append_nil]
    exact ⟨rfl, best, h⟩
  | cons offset rest ih =>
    obtain ⟨row₁, s₁, hdown, hrun⟩ := bind_ok hrun
    have hrun := size_bind_ok hrun
    obtain ⟨rfl, hnext⟩ := h.step hdown
    have hsplit : steps ++ offset :: rest = (steps ++ [offset]) ++ rest := by simp
    have hlength : steps.length + 1 = (steps ++ [offset]).length := by simp
    rw [hsplit]
    rw [hlength] at hrun hnext
    split at hrun
    · rename_i hlt
      rw [if_pos hlt] at hnext
      exact ih hnext hrun
    · rename_i hle
      rw [if_neg hle] at hnext
      exact ih hnext hrun

/-- Of the steps that lead through a window, those after the first best row are taken back. -/
theorem win3At_ok (hl : s.Lays A row B) (h : win3At row i s = .ok row' s') :
    ∃ best bestStep s₁, Visits s A B row i win3Steps best bestStep s₁ ∧ s₁.Walk s' ∧
      row' = stage row i win3Steps bestStep ∧ s'.Lays A row' B := by
  obtain ⟨⟨bestStep, row₁⟩, s₁, hvisit, hback⟩ := bind_ok (size_bind_ok h)
  obtain ⟨rfl, best, hv⟩ := (Visits.start hl).visit hvisit
  rw [List.nil_append] at hv hback
  have hw := (Guided.blocksDown _ _).walks.walk hback
  obtain ⟨rfl, hl'⟩ := blocksDown_ok hv.lays hback
  have hsteps : win3Steps.map (i + ·) =
      (win3Steps.take bestStep).map (i + ·) ++ (win3Steps.drop bestStep).map (i + ·) := by
    rw [← List.map_append, List.take_append_drop]
  have hrow : exchanges ((win3Steps.drop bestStep).reverse.map (i + ·))
      (stage row i win3Steps win3Steps.length) = stage row i win3Steps bestStep := by
    rw [stage, stage, List.take_length, List.map_reverse, hsteps, exchanges_append, exchanges_reverse]
  rw [hrow] at hl' ⊢
  exact ⟨best, bestStep, s₁, hv, hw, rfl, hl'⟩

theorem Improving.win3At (i : Nat) : Improving fun row => win3At row i := by
  intro A B row row' s s' hl h
  obtain ⟨best, bestStep, s₁, hv, hw, rfl, hl'⟩ := win3At_ok hl h
  exact (hv.passed.walk hw).improves hl.sound (hv.walk.trans hw) (exchanges_perm _ _) hl' hv.le

theorem Improving.win3 : Improving win3 := by
  intro A B row row' s s' hl h
  unfold Reordering.win3 at h
  split at h
  · exact Improving.win2 A B row row' s s' hl h
  · exact Improving.foldlM Improving.win3At (List.range (row.size - 2)) A B row row' s s' hl h

end Reordering

end DecisionDiagram
