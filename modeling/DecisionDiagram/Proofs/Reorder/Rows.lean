/-
Rows of blocks, and how they lie along the order.

The order is what stands above the row, the variables of its blocks in turn, and what stands below.
Two adjacent blocks change places when the variables of the upper one, its last one first, each pass
all those of the lower one.

* `Session.Lays` — a row along the order;
* `Reordering.Ensures.blockDown` — after an exchange of two blocks, the row with the two exchanged, unless
  the exchange breaks off on the way (`Midway`);
* `Session.Passed` — the row that stood there at some point of the work, and the size at that point;
* `Passed.size_eq`, `.size_eq_of_order` — the size is the same whenever the row is, as long as no more
  nodes stay, and so if no count is saturated;
* `Reordering.Quiet` — work that looks at the session only.
-/
import DecisionDiagram.Proofs.Blocks
import DecisionDiagram.Proofs.Reorder.Search

namespace DecisionDiagram

/-- The variables `U` on their way past the variables `L`, which stood below them: the last ones have
passed, the one before these is among the variables `L`, and the first ones have not set out. -/
def Midway (U L vars : List Var) : Prop :=
  ∃ U₁ v U₂ L₁ L₂, U = U₁ ++ v :: U₂ ∧ L = L₁ ++ L₂ ∧ vars = U₁ ++ L₁ ++ v :: (L₂ ++ U₂)

theorem Midway.append_singleton {U L vars : List Var} (h : Midway U L vars) (u : Var) :
    Midway (U ++ [u]) L (vars ++ [u]) := by
  obtain ⟨U₁, v, U₂, L₁, L₂, rfl, rfl, rfl⟩ := h
  exact ⟨U₁, v, U₂ ++ [u], L₁, L₂, by simp, rfl, by simp⟩

namespace Session

/-- In the session, the order is the variables `A`, those of the blocks of the row, and the variables
`B`. -/
structure Lays (A : List Var) (row : Array Block) (B : List Var) (s : Session) : Prop where
  sound : s.Sound
  order : s.manager.order.toList = A ++ row.toList.flatMap (·.vars) ++ B

/-- In the session, the exchange of two adjacent blocks has broken off, with some blocks as a row. -/
def Broken (A : List Var) (blocks : List Block) (B : List Var) (s : Session) : Prop :=
  ∃ X upper lower Y vars, (X ++ upper :: lower :: Y).Perm blocks ∧ Midway upper.vars lower.vars vars ∧
    s.manager.order.toList = A ++ X.flatMap (·.vars) ++ vars ++ Y.flatMap (·.vars) ++ B

/-- At some point of the work that has led from `s₀` to the session, the row was there and the size was
`n`. -/
def Passed (s₀ : Session) (A : List Var) (row : Array Block) (B : List Var) (n : Nat)
    (s : Session) : Prop :=
  ∃ t : Session, s₀.Walk t ∧ t.Walk s ∧ t.Lays A row B ∧ t.size = n

variable {A B : List Var} {row : Array Block} {n : Nat} {s₀ s s' t : Session}

theorem Lays.passed (h : s.Lays A row B) (hw : s₀.Walk s) : s₀.Passed A row B s.size s :=
  ⟨s, hw, .refl, h, rfl⟩

theorem Passed.walk (h : s₀.Passed A row B n s) (hw : s.Walk s') : s₀.Passed A row B n s' := by
  obtain ⟨t, hstart, ht, hlays, hn⟩ := h
  exact ⟨t, hstart, ht.trans hw, hlays, hn⟩

/-- A session that comes back to a row comes back to its size, if no more nodes stay than at the
start. -/
theorem Passed.size_eq (h : s₀.Passed A row B n s) (hs₀ : s₀.Sound) (hl : s.Lays A row B)
    (hle : s.holding ≤ s₀.holding) : s.size = n := by
  obtain ⟨t, hstart, ht, hlays, rfl⟩ := h
  have ho := hlays.sound.order.eq_of_toList hl.sound.order (hl.order.trans hlays.order.symm)
  have hmatches := ht.matches hlays.sound (hle.trans (hstart.holding_le hs₀))
  exact hmatches.size hlays.sound hl.sound ho

/-- Wherever in the course of a session the row is, the session has this size. -/
theorem Passed.size_eq_of_order (h : s₀.Passed A row B n s) {s' : Session} (hs' : s'.Sound)
    (hw : s'.Walk s₀) (hu : s.Unsaturated) (ht : s'.Walk t) (hut : t.Unsaturated)
    (ho : t.manager.order.toList = A ++ row.toList.flatMap (·.vars) ++ B) : t.size = n := by
  obtain ⟨t', hstart, ht', hlays, rfl⟩ := h
  have hut' := (ht'.advances hlays.sound).unsaturated hu
  have horder := hlays.sound.order.eq_of_toList (ht.advances hs').sound.order
    (ho.trans hlays.order.symm)
  exact ((hw.trans hstart).sizes_eq hs' ht horder hut' hut).1

end Session

namespace Reordering

open Session

variable {α β : Type} {A B : List Var} {row row' : Array Block} {i n : Nat} {s s' : Session}

/-! ### Work that looks only -/

/-- The work changes nothing, and reports no error. -/
def Quiet (x : Reordering α) : Prop :=
  ∀ s : Session, Ensures s x (fun _ s' => s' = s) fun _ => False

theorem Quiet.eq {x : Reordering α} {a : α} (hx : Quiet x) (h : x s = .ok a s') : s' = s := by
  have hs := hx s
  rwa [Ensures, h] at hs

theorem Quiet.pure (a : α) : Quiet (Pure.pure a) := fun _ => Ensures.pure rfl

theorem Quiet.expect (f : Session → Option α) : Quiet (Reordering.expect f) := by
  intro s
  unfold Ensures Reordering.expect
  rcases f s with _ | a
  · trivial
  · rfl

theorem Quiet.bind {x : Reordering α} {f : α → Reordering β} (hx : Quiet x) (hf : ∀ a, Quiet (f a)) :
    Quiet (x >>= f) := by
  refine fun s => (hx s).bind fun a s' hs => ?_
  obtain rfl := hs
  exact hf a _

theorem Quiet.foldlM {f : β → α → Reordering β} (hf : ∀ b a, Quiet (f b a)) (l : List α) (b : β) :
    Quiet (l.foldlM f b) := by
  induction l generalizing b with
  | nil => exact .pure _
  | cons a l ih =>
    rw [List.foldlM_cons]
    exact (hf b a).bind fun b => ih b

theorem Quiet.mapM {f : α → Reordering β} (hf : ∀ a, Quiet (f a)) (l : List α) : Quiet (l.mapM f) := by
  induction l with
  | nil => exact .pure _
  | cons a l ih =>
    rw [List.mapM_cons]
    exact (hf a).bind fun b => ih.bind fun bs => .pure _

theorem Quiet.weigh (b : Block) : Quiet (weigh b) := by
  unfold Reordering.weigh
  split
  · exact fun _ => trivial
  · exact (Quiet.foldlM (fun n v => (Quiet.expect _).bind fun _ => .pure _) _ _).bind fun _ => .pure _

theorem size_bind_ok {f : Nat → Reordering α} {a : α} (h : (size >>= f) s = .ok a s') :
    f s.size s = .ok a s' := h

/-! ### Exchanges of blocks -/

/-- A variable that moves down passes the variables below it, or some of them. -/
theorem Ensures.moveDown {v : Var} {W : List Var} (hs : s.Sound)
    (ho : s.manager.order.toList = A ++ v :: (W ++ B)) :
    Ensures s (moveDown v W.length)
      (fun _ s' => s'.Sound ∧ s'.manager.order.toList = A ++ W ++ v :: B)
      fun s' => ∃ W₁ W₂, W = W₁ ++ W₂ ∧ s'.manager.order.toList = A ++ W₁ ++ v :: (W₂ ++ B) := by
  induction W generalizing A s with
  | nil => exact Ensures.pure ⟨hs, by rw [ho, List.append_nil]; rfl⟩
  | cons w W ih =>
    refine ((Ensures.vardown hs v).mono (fun _ _ h => h) fun s₁ h => ?_).bind fun _ s₁ h => ?_
    · exact ⟨[], w :: W, rfl, by rw [h.2, ho, List.append_nil]⟩
    · have ho₁ := hs.order.lowers_toList ho h.2
      refine (ih (A := A ++ [w]) h.1.sound (by rw [ho₁, List.append_assoc]; rfl)).mono
        (fun _ _ h => ⟨h.1, by simpa using h.2⟩) ?_
      rintro s' ⟨W₁, W₂, rfl, ho'⟩
      exact ⟨w :: W₁, W₂, rfl, by simpa using ho'⟩

/-- Two adjacent lists of variables change places.  The last variable of the upper one goes first, so
that there are no others of its list below it. -/
theorem Ensures.moveAll {U L : List Var} (hs : s.Sound)
    (ho : s.manager.order.toList = A ++ U ++ L ++ B) :
    Ensures s (U.reverse.forM fun v => Reordering.moveDown v L.length)
      (fun _ s' => s'.Sound ∧ s'.manager.order.toList = A ++ L ++ U ++ B)
      fun s' => ∃ vars, Midway U L vars ∧ s'.manager.order.toList = A ++ vars ++ B := by
  induction U using List.reverseRecOn generalizing B s with
  | nil => exact Ensures.pure ⟨hs, by simpa using ho⟩
  | append_singleton U u ih =>
    rw [List.reverse_append, List.reverse_singleton, List.singleton_append, List.forM_eq_forM,
      List.forM_cons]
    have ho₁ : s.manager.order.toList = (A ++ U) ++ u :: (L ++ B) := by rw [ho]; simp
    refine ((Ensures.moveDown hs ho₁).mono (fun _ _ h => h) ?_).bind fun _ s₁ h => ?_
    · rintro s' ⟨L₁, L₂, rfl, ho'⟩
      exact ⟨U ++ L₁ ++ u :: L₂, ⟨U, u, [], L₁, L₂, rfl, rfl, by simp⟩, by rw [ho']; simp⟩
    · refine (ih (B := u :: B) h.1 (by rw [h.2])).mono (fun _ _ h => ⟨h.1, by rw [h.2]; simp⟩) ?_
      rintro s' ⟨vars, hmid, ho'⟩
      exact ⟨vars ++ [u], hmid.append_singleton u, by rw [ho']; simp⟩

/-- Two adjacent blocks of a row change places, or their exchange breaks off. -/
theorem Ensures.blockDown (hl : s.Lays A row B) (i : Nat) :
    Ensures s (blockDown i row)
      (fun row' s' => i + 1 < row.size ∧ row' = row.swapIfInBounds i (i + 1) ∧ s'.Lays A row' B)
      (Broken A row.toList B) := by
  unfold Reordering.blockDown
  split
  · rename_i upper lower hupper hlower
    have hlt := (Array.getElem?_eq_some_iff.mp hlower).1
    obtain ⟨X, a, b, Y, rfl, rfl⟩ := exists_adjacent row hlt
    obtain rfl : a = upper := by simpa using hupper
    obtain rfl : b = lower := by simpa using hlower
    have ho : s.manager.order.toList =
        (A ++ X.flatMap (·.vars)) ++ a.vars ++ b.vars ++ (Y.flatMap (·.vars) ++ B) := by
      rw [hl.order]
      simp
    refine ((Ensures.moveAll hl.sound ho).mono (fun _ _ h => h) ?_).bind fun _ s' h =>
      .pure ⟨hlt, rfl, h.1, ?_⟩
    · rintro s' ⟨vars, hmid, ho'⟩
      exact ⟨X, a, b, Y, vars, .refl _, hmid, by rw [ho']; simp⟩
    · rw [h.2, swap_adjacent]
      simp
  · exact .fault

theorem blockDown_ok (h : blockDown i row s = .ok row' s') : row' = row.swapIfInBounds i (i + 1) := by
  unfold Reordering.blockDown at h
  rcases hupper : row[i]? with _ | upper
  · rw [hupper] at h
    cases h
  · rcases hlower : row[i + 1]? with _ | lower
    · rw [hupper, hlower] at h
      cases h
    · rw [hupper, hlower] at h
      obtain ⟨_, s₁, -, h⟩ := bind_ok h
      cases h
      rfl

end Reordering

/-- Two adjacent blocks of a row change places. -/
theorem Session.Lays.blockDown {A B : List Var} {row row' : Array Block} {i : Nat} {s s' : Session}
    (hl : s.Lays A row B) (h : Reordering.blockDown i row s = .ok row' s') :
    i + 1 < row.size ∧ row' = row.swapIfInBounds i (i + 1) ∧ s'.Lays A row' B := by
  have hdown := Reordering.Ensures.blockDown hl i
  rwa [Reordering.Ensures, h] at hdown

end DecisionDiagram
