/-
Orders that are asked for are imposed exactly.

The loops read the level of a variable again before each of its moves, and each move displaces another
variable.  The order is followed as a list of variables here, in which a variable passes one stretch of
others after the other.

* `Manager.isPermutation_iff` — which orders may be asked for;
* `Session.Arranged` — the variables have come to stand in the order of a list;
* `Achieves.lowerTo`, `.raiseTo` — a variable passes a stretch of others;
* `Achieves.exchangeAcross` — two variables exchange their places;
* `Achieves.imposeFrom` — the variables come to stand in the order that is asked for.
-/
import DecisionDiagram.Ordering
import DecisionDiagram.Proofs.Reorder.Swap

namespace DecisionDiagram

open Reordering

/-! ### Orders that may be asked for -/

theorem Manager.comesUpOnce_iff {n : Nat} {seen : BitSet} {vars : List Var} :
    comesUpOnce n seen vars = true ↔
      (∀ v ∈ vars, v < n ∧ seen.contains v = false) ∧ vars.Nodup := by
  induction vars generalizing seen with
  | nil => simp [comesUpOnce]
  | cons v vars ih =>
    rw [comesUpOnce, Bool.and_eq_true, Bool.and_eq_true, ih, List.nodup_cons]
    simp only [decide_eq_true_eq, Bool.not_eq_true', BitSet.contains_insert, Bool.or_eq_false_iff,
      beq_eq_false_iff_ne, List.forall_mem_cons]
    constructor
    · rintro ⟨hv, hrest, hnodup⟩
      exact ⟨⟨hv, fun w hw => ⟨(hrest w hw).1, (hrest w hw).2.2⟩⟩,
        fun hmem => (hrest v hmem).2.1 rfl, hnodup⟩
    · rintro ⟨⟨hv, hrest⟩, hmem, hnodup⟩
      exact ⟨hv, fun w hw => ⟨(hrest w hw).1, fun heq => hmem (heq ▸ hw), (hrest w hw).2⟩, hnodup⟩

/-- The check accepts exactly the permutations. -/
theorem Manager.isPermutation_iff {n : Nat} {vars : List Var} :
    isPermutation n vars = true ↔ vars.Perm (List.range n) := by
  rw [isPermutation, Bool.and_eq_true, beq_iff_eq, comesUpOnce_iff]
  constructor
  · rintro ⟨hlength, hbelow, hnodup⟩
    have hsubset : vars ⊆ List.range n := fun v hv => List.mem_range.mpr (hbelow v hv).1
    exact (List.subperm_of_subset hnodup hsubset).perm_of_length_le (by simp [hlength])
  · intro hperm
    refine ⟨by simpa using hperm.length_eq, fun v hv => ?_, hperm.nodup_iff.mpr List.nodup_range⟩
    exact ⟨List.mem_range.mp (hperm.subset hv), BitSet.contains_ofCapacity n v⟩

/-- The session has stayed sound, and its variables stand in the order of the list. -/
structure Session.Arranged (s : Session) (vars : List Var) (s' : Session) : Prop where
  advances : Advances s s'
  order : s'.manager.order.toList = vars

namespace Reordering

variable {A B W R vars : List Var} {v w : Var} {top bottom : Level} {n : Nat} {s s' : Session}

/-- More work after some that has been done. -/
theorem Achieves.after {x : Reordering Unit}
    (hx : Achieves s' x (fun _ s'' => s'.Arranged vars s'') (Advances s')) (h : Advances s s') :
    Achieves s' x (fun _ s'' => s.Arranged vars s'') (Advances s) :=
  hx.mono (fun _ _ h' => ⟨h.trans h'.advances, h'.order⟩) fun _ h' => h.trans h'

/-! ### Moves -/

theorem Achieves.vardown_passes (hs : s.Sound) (ho : s.manager.order.toList = A ++ v :: w :: B) :
    Achieves s (Reordering.vardown v) (fun _ s' => s.Arranged (A ++ w :: v :: B) s') (Advances s) := by
  refine (Achieves.vardown hs (hs.order.levelOf_of_toList ho)).mono ?_ fun s' h =>
    h.roomier.advances hs
  rintro - s' ⟨hswaps, hlowers⟩
  exact ⟨hswaps.toAdvances, hs.order.lowers_toList ho hlowers⟩

/-- A variable moves up when the one above it moves down. -/
theorem Achieves.varup_passes (hs : s.Sound) (ho : s.manager.order.toList = A ++ w :: v :: B) :
    Achieves s (Reordering.varup v) (fun _ s' => s.Arranged (A ++ v :: w :: B) s') (Advances s) := by
  have hv : s.manager.order.levelOf[v]? = some (A.length + 1) := by
    have := hs.order.levelOf_of_toList (A := A ++ [w]) (B := B) (v := v) (by rw [ho]; simp)
    rwa [List.length_append] at this
  have hw := hs.order.varAt_levelOf (hs.order.levelOf_of_toList ho)
  exact .expect hv (.expect hw (.vardown_passes hs ho))

/-! ### Stretches -/

/-- The induction is on the bound.  The stretch gets shorter at its upper end. -/
theorem Achieves.lowerTo (hs : s.Sound) (ho : s.manager.order.toList = A ++ v :: (W ++ B))
    (hbottom : bottom = A.length + W.length) (hn : W.length < n) :
    Achieves s (lowerTo v bottom n) (fun _ s' => s.Arranged (A ++ (W ++ v :: B)) s') (Advances s) := by
  induction n generalizing A W s with
  | zero => exact absurd hn (Nat.not_lt_zero _)
  | succ n ih =>
    refine .expect (hs.order.levelOf_of_toList ho) ?_
    cases W with
    | nil =>
      rw [if_neg (by simp [hbottom])]
      exact .pure ⟨.refl hs, ho⟩
    | cons w W =>
      rw [List.length_cons] at hbottom hn
      rw [if_pos (by lia)]
      -- The move has passed `w`, which now stands above.
      refine (Achieves.vardown_passes hs ho).bind fun _ s₁ h₁ => ?_
      have ho₁ : s₁.manager.order.toList = (A ++ [w]) ++ v :: (W ++ B) := by
        rw [h₁.order, List.append_assoc]
        rfl
      have hbottom₁ : bottom = (A ++ [w]).length + W.length := by
        rw [List.length_append, List.length_singleton]
        lia
      have hrest := ih h₁.advances.sound ho₁ hbottom₁ (by omega)
      rw [List.append_assoc] at hrest
      exact hrest.after h₁.advances

/-- The induction is on the bound.  The stretch gets shorter at its lower end. -/
theorem Achieves.raiseTo (hs : s.Sound) (ho : s.manager.order.toList = A ++ (W ++ v :: B))
    (htop : top = A.length) (hn : W.length < n) :
    Achieves s (raiseTo v top n) (fun _ s' => s.Arranged (A ++ v :: (W ++ B)) s') (Advances s) := by
  induction n generalizing W B s with
  | zero => exact absurd hn (Nat.not_lt_zero _)
  | succ n ih =>
    have hv := hs.order.levelOf_of_toList (ho.trans (List.append_assoc A W (v :: B)).symm)
    refine .expect hv ?_
    rw [List.length_append]
    rcases W.eq_nil_or_concat with rfl | ⟨W, w, rfl⟩
    · rw [if_neg (by simp [htop])]
      exact .pure ⟨.refl hs, ho⟩
    · rw [List.concat_eq_append] at ho hn ⊢
      rw [List.length_append, List.length_singleton] at hn ⊢
      rw [if_pos (by lia)]
      have ho' : s.manager.order.toList = (A ++ W) ++ w :: v :: B := by
        rw [ho]
        simp
      -- The move has passed `w`, which now stands below.
      refine (Achieves.varup_passes hs ho').bind fun _ s₁ h₁ => ?_
      have hrest := ih (W := W) (B := w :: B) h₁.advances.sound
        (by rw [h₁.order, List.append_assoc]) (by omega)
      rw [List.append_assoc]
      exact hrest.after h₁.advances

/-! ### Whole orders -/

/-- The loops may read a level once more than there are levels. -/
theorem length_lt_depth (ho : s.manager.order.toList = A ++ W) : W.length < s.manager.depth := by
  have hlength : s.manager.varNum = (A ++ W).length := by
    rw [← ho]
    rfl
  rw [List.length_append] at hlength
  rw [Manager.depth]
  omega

/-- The upper variable displaces the lower one by one level before this goes up. -/
theorem Achieves.exchangeAcross (hs : s.Sound)
    (ho : s.manager.order.toList = A ++ v :: (W ++ w :: B)) (htop : top = A.length)
    (hbottom : bottom = A.length + W.length + 1) :
    Achieves s (Manager.exchangeAcross v w top bottom)
      (fun _ s' => s.Arranged (A ++ w :: (W ++ v :: B)) s') (Advances s) := by
  have hdepth := length_lt_depth ho
  simp only [List.length_cons, List.length_append] at hdepth
  have ho₀ : s.manager.order.toList = A ++ v :: ((W ++ [w]) ++ B) := by
    rw [ho]
    simp
  refine .get ((Achieves.lowerTo hs ho₀ ?_ ?_).bind fun _ s₁ h₁ => ?_)
  · rw [List.length_append, List.length_singleton]
    omega
  · rw [List.length_append, List.length_singleton]
    omega
  -- By now `w` stands right above `v`, one level higher than when its level was read.
  · have ho₁ : s₁.manager.order.toList = A ++ (W ++ w :: v :: B) := by
      rw [h₁.order]
      simp
    exact (Achieves.raiseTo h₁.advances.sound ho₁ htop (by omega)).after h₁.advances

/-- Two variables exchange their levels, however far they are from each other. -/
theorem Achieves.exchangeLevels (hs : s.Sound) (hv : s.manager.order.levelOf[v]? = some top)
    (hw : s.manager.order.levelOf[w]? = some bottom) (hlt : top < bottom) :
    Achieves s (Manager.exchangeAcross v w top bottom)
      (fun _ s' => Advances s s' ∧ s.manager.order.Swapped v w s'.manager.order) (Advances s) := by
  obtain ⟨A, W, B, ho, htop, hbottom⟩ := hs.order.exists_between hv hw hlt
  refine (Achieves.exchangeAcross hs ho htop.symm hbottom.symm).mono (fun _ s' h => ?_) fun _ h => h
  exact ⟨h.advances, hs.order.swapped h.advances.sound.order ho h.order⟩

/-- The induction is on the variables that are still to be placed, which stand below those that have
been. -/
theorem Achieves.imposeFrom (hs : s.Sound) (ho : s.manager.order.toList = A ++ R)
    (htop : top = A.length) (hperm : vars.Perm R) :
    Achieves s (Manager.imposeFrom top vars) (fun _ s' => s.Arranged (A ++ vars) s') (Advances s) := by
  induction vars generalizing A R top s with
  | nil =>
    obtain rfl := hperm.nil_eq
    exact .pure ⟨.refl hs, ho⟩
  | cons v vars ih =>
    -- The variable is among those below, and passes the ones between it and its place.
    obtain ⟨W, B, rfl⟩ := List.append_of_mem (hperm.subset List.mem_cons_self)
    have hrest := (List.perm_cons v).mp (hperm.trans List.perm_middle)
    have hdepth := length_lt_depth ho
    rw [List.length_append] at hdepth
    refine .get ((Achieves.raiseTo hs ho htop (by omega)).bind fun _ s₁ h₁ => ?_)
    have ho₁ : s₁.manager.order.toList = (A ++ [v]) ++ (W ++ B) := by
      rw [h₁.order]
      simp
    have htop₁ : top + 1 = (A ++ [v]).length := by
      rw [htop, List.length_append]
      rfl
    have hnext := ih h₁.advances.sound ho₁ htop₁ hrest
    rw [List.append_assoc] at hnext
    exact hnext.after h₁.advances

end Reordering

end DecisionDiagram
