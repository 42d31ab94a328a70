/-
No search makes the diagrams larger.

A method is a pass over a row, or a pass that is repeated.  Each leaves the blocks of the row in an order
that is as good or better, and a search does so in blocks within blocks.

* `Improving.repeatWhile`, `.permute` — what holds of a pass holds of each method;
* `Session.Lays.mapM_shrinks` — the members of a row are reordered, with the other members above and
  below;
* `Session.reorderAll_ok` — so a search shrinks the session, or leaves its size; the blocks are
  rearranged.
-/
import DecisionDiagram.Proofs.Rearrangement
import DecisionDiagram.Proofs.Reorder.Sift

namespace DecisionDiagram

namespace Reordering

open Session

/-! ### Methods -/

theorem Improving.repeatWhile {pass : Array Block → Reordering (Array Block)} (hp : Improving pass)
    (n : Nat) : Improving (repeatWhile pass n) := by
  induction n with
  | zero =>
    intro A B row row' s s' _ h
    cases h
  | succ n ih =>
    intro A B row row' s s' hl h
    obtain ⟨row₁, s₁, hpass, h⟩ := bind_ok (size_bind_ok h)
    have h := size_bind_ok h
    have h₁ := hp _ _ _ _ _ _ hl hpass
    split at h
    · cases h
      exact h₁
    · exact h₁.trans (ih _ _ _ _ _ _ h₁.lays h)

theorem Improving.permute (method : ReorderMethod) : Improving (permute method) := by
  cases method with
  | off => exact .pure
  | win2 => exact .win2
  | win2ite => exact .repeatWhile .win2 _
  | win3 => exact .win3
  | win3ite => exact .repeatWhile .win3 _
  | sift => exact .sift
  | siftite => exact .repeatWhile .sift _

end Reordering

namespace Session

open Reordering

/-! ### Blocks within blocks -/

variable {A B : List Var} {n : Nat} {b : Block} {s s' : Session}

/-- A row is reordered within each of its blocks.  The variables of the blocks before count as standing
above the row, those of the blocks after as standing below. -/
theorem Lays.mapM_shrinks {f : Block → Reordering Block} {R : Block → Block → Prop}
    {blocks blocks' : List Block}
    (hf : ∀ b ∈ blocks, ∀ (A B : List Var) (b' : Block) (s s' : Session), s.Lays A #[b] B →
      f b s = .ok b' s' → s.Shrinks s' ∧ s'.Lays A #[b'] B ∧ R b b')
    (hl : s.Lays A blocks.toArray B) (h : blocks.mapM f s = .ok blocks' s') :
    s.Shrinks s' ∧ s'.Lays A blocks'.toArray B ∧ List.Forall₂ R blocks blocks' := by
  induction blocks generalizing A s blocks' with
  | nil =>
    cases h
    exact ⟨.refl hl.sound, hl, .nil⟩
  | cons b blocks ih =>
    obtain ⟨hb, hblocks⟩ := List.forall_mem_cons.mp hf
    rw [List.mapM_cons] at h
    obtain ⟨b', s₁, hfirst, h⟩ := bind_ok h
    obtain ⟨rest', s₂, hrest, h⟩ := bind_ok h
    cases h
    -- For the first block, the rest of the row stands below; for the rest, the first block stands above.
    have hstart : s.Lays A #[b] (blocks.flatMap (·.vars) ++ B) :=
      ⟨hl.sound, by rw [hl.order]; simp⟩
    obtain ⟨hshrinks, hl₁, hr⟩ := hb _ _ _ _ _ hstart hfirst
    have hnext : s₁.Lays (A ++ b'.vars) blocks.toArray B := ⟨hl₁.sound, by rw [hl₁.order]; simp⟩
    obtain ⟨hshrinks', hl₂, hrs⟩ := ih hblocks hnext hrest
    exact ⟨hshrinks.trans hshrinks', ⟨hl₂.sound, by rw [hl₂.order]; simp⟩, .cons hr hrs⟩

/-- A block is reordered: first the row of the blocks within, unless it is fixed, then each of these. -/
theorem Lays.reorderBlock_shrinks {method : ReorderMethod} {b' : Block} (hb : b.Neat)
    (hl : s.Lays A #[b] B) (h : reorderBlock method n b s = .ok b' s') :
    s.Shrinks s' ∧ s'.Lays A #[b'] B ∧ b.Rearranged b' := by
  induction n generalizing A B b b' s s' with
  | zero => cases h
  | succ n ih =>
    -- Once the members of the row are reordered, the variables are read off them again.
    have within : ∀ {row : List Block} {s₁ : Session}, row.Perm b.children →
        (b.fixed = true → row = b.children) → b.children ≠ [] → s₁.Lays A row.toArray B →
        (row.mapM (Reordering.reorderBlock method n) >>= fun children =>
          (Pure.pure { b with children }.refresh : Reordering Block)) s₁ = .ok b' s' →
        s₁.Shrinks s' ∧ s'.Lays A #[b'] B ∧ b.Rearranged b' := by
      intro row s₁ hperm hfixed hne hl₁ h
      obtain ⟨children, s₂, hmap, h⟩ := bind_ok h
      cases h
      obtain ⟨hshrinks, hl₂, hmembers⟩ := hl₁.mapM_shrinks
        (fun c hc A B b' s s' hl h => ih (hb.child (hperm.mem_iff.mp hc)) hl h) hmap
      have hlength := hmembers.length_eq
      have hchildren : children ≠ [] := by
        rintro rfl
        refine hne (List.eq_nil_of_length_eq_zero ?_)
        rw [← hperm.length_eq, hlength]
        rfl
      have hrefresh : { b with children }.refresh =
          { b with children, vars := children.flatMap (·.vars) } := by
        rw [Block.refresh, if_neg (by simpa using hchildren)]
      rw [hrefresh]
      refine ⟨hshrinks, ⟨hl₂.sound, ?_⟩, hperm, hfixed, hlength, fun p hp => ?_, fun h0 => absurd h0 hne,
        fun _ => rfl⟩
      · rw [hl₂.order]
        simp
      · exact List.forall₂_zip hmembers hp
    rw [Reordering.reorderBlock] at h
    by_cases hempty : b.children = []
    · -- There is nothing to do within the block.
      rw [if_neg (by simp [hempty])] at h
      obtain ⟨row, s₁, hrow, h⟩ := bind_ok h
      cases hrow
      rw [hempty] at h
      cases h
      exact ⟨.refl hl.sound, ⟨hl.sound, hl.order⟩, by rw [hempty], fun _ => hempty.symm, rfl,
        fun _ hp => (List.not_mem_nil hp).elim, fun _ => rfl, fun hne => absurd hempty hne⟩
    · have hl₁ : s.Lays A b.children.toArray B :=
        ⟨hl.sound, by rw [hl.order]; simp [hb.vars hempty]⟩
      split at h
      · rename_i hpermute
        obtain ⟨row, s₁, hpass, h⟩ := bind_ok h
        have himproves := Improving.permute method _ _ _ _ _ _ hl₁ hpass
        rw [Bool.and_eq_true, Bool.not_eq_true'] at hpermute
        obtain ⟨hshrinks, hl', hr⟩ := within himproves.perm
          (fun hfixed => by rw [hpermute.1] at hfixed; cases hfixed) hempty himproves.lays h
        exact ⟨himproves.toShrinks.trans hshrinks, hl', hr⟩
      · exact within (.refl _) (fun _ => rfl) hempty hl₁ h

/-- A search in all variables starts with the blocks laid out along the order. -/
theorem reorderAll_ok {method : ReorderMethod} (hs : s.Sound) (hf : s.manager.forest.Nested)
    (hmethod : method ≠ .off) (hvar : 1 < s.manager.varNum)
    (h : reorderAll method s = .ok () s') : s.Shrinks s' ∧ ∃ b',
      (Block.layout s.manager.forest s.manager.order).Rearranged b' ∧
      s'.manager.order.toList = b'.vars := by
  unfold Reordering.reorderAll at h
  obtain ⟨t, s₁, hget, h⟩ := bind_ok h
  cases hget
  dsimp only at h
  rw [if_pos (by simp [hmethod, hvar])] at h
  obtain ⟨b', s₂, hblock, h⟩ := bind_ok h
  cases h
  have hl : s.Lays [] #[Block.layout s.manager.forest s.manager.order] [] := ⟨hs, by
    simp [Block.layout]⟩
  obtain ⟨hshrinks, hl', hr⟩ := hl.reorderBlock_shrinks
    (Block.neat_layout hf hs.order (Nat.lt_trans Nat.zero_lt_one hvar)) hblock
  exact ⟨hshrinks, b', hr, by simpa using hl'.order⟩

end Session

end DecisionDiagram
