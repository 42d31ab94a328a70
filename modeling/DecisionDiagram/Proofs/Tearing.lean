/-
What a search that breaks off does to the configured blocks.

Two blocks change places by many moves, and each of them may find no room.  The moves before it are not
taken back.  So the variables of the two blocks stay mixed, but no other block is affected.

* `Block.Torn.cases` — every block that lies in neither of the two is in one piece;
* `Manager.Settled.search_tears` — what a search that runs out of room does to the configured blocks.
-/
import Mathlib.Data.List.Permutation
import DecisionDiagram.Proofs.Coverage
import DecisionDiagram.Proofs.Failure
import DecisionDiagram.Proofs.Refusal
import DecisionDiagram.Proofs.Reorder.Breakoff

namespace DecisionDiagram

theorem Midway.perm {U L vars : List Var} (h : Midway U L vars) : vars.Perm (U ++ L) := by
  obtain ⟨U₁, v, U₂, L₁, L₂, rfl, rfl, rfl⟩ := h
  refine List.perm_iff_count.mpr fun a => ?_
  simp only [List.count_append, List.count_cons]
  omega

namespace Block

variable {b c d upper lower : Block} {X X' Y : List Block} {vars : List Var}

theorem Within.cases_child (h : b.Within d) : d = b ∨ ∃ c ∈ b.children, c.Within d := by
  induction h with
  | refl => exact .inl rfl
  | @child d e _ he ih =>
    rcases ih with rfl | ⟨c, hc, hcd⟩
    · exact .inr ⟨e, he, .refl⟩
    · exact .inr ⟨c, hc, hcd.child he⟩

theorem forall₂_perm (hX : List.Forall₂ Rearranged X X') (hneat : ∀ c ∈ X, c.Neat) :
    (X'.flatMap (·.vars)).Perm (X.flatMap (·.vars)) := by
  obtain ⟨hlength, hmembers⟩ := List.forall₂_iff_zip.mp hX
  exact flatMap_perm (List.forall₂_iff_zip.mpr ⟨hlength, fun {c c'} hp =>
    (hmembers hp).perm (hneat c (List.of_mem_zip hp).1)⟩)

namespace Torn

theorem ne_nil (h : Torn upper lower b vars) : b.children ≠ [] := by
  cases h with
  | row perm _ =>
    exact List.ne_nil_of_mem (perm.mem_iff.mp (List.mem_append_right _ List.mem_cons_self))
  | member perm _ _ =>
    exact List.ne_nil_of_mem (perm.mem_iff.mp (List.mem_append_right _ List.mem_cons_self))

/-- No variable is lost. -/
theorem perm (h : Torn upper lower b vars) (hb : b.Neat) : vars.Perm b.vars := by
  have hne := h.ne_nil
  induction h with
  | @row b X Y vars perm midway =>
    rw [← hb.vars hne]
    refine List.Perm.trans ?_ (perm.flatMap_right _)
    have := midway.perm
    simpa using (this.append_right (Y.flatMap (·.vars))).append_left (X.flatMap (·.vars))
  | @member b c X X' Y vars perm before torn ih =>
    rw [← hb.vars hne]
    refine List.Perm.trans ?_ (perm.flatMap_right _)
    have hc : c ∈ b.children := perm.mem_iff.mp (by simp)
    have hX := forall₂_perm before fun d hd => hb.child (perm.mem_iff.mp (by simp [hd]))
    simpa using hX.append ((ih (hb.child hc) torn.ne_nil).append_right (Y.flatMap (·.vars)))

/-- The two blocks are members of one block. -/
theorem exists_parent (h : Torn upper lower b vars) :
    ∃ d, b.Within d ∧ upper ∈ d.children ∧ lower ∈ d.children := by
  induction h with
  | @row b _ _ _ perm _ =>
    exact ⟨b, .refl, perm.mem_iff.mp (by simp), perm.mem_iff.mp (by simp)⟩
  | @member b c _ _ _ _ perm _ _ ih =>
    obtain ⟨d, hd, hupper, hlower⟩ := ih
    exact ⟨d, (Within.child .refl (perm.mem_iff.mp (by simp))).trans hd, hupper, hlower⟩

/-- The variables of the two blocks still stand side by side. -/
theorem exists_midway (h : Torn upper lower b vars) :
    ∃ mixed, Midway upper.vars lower.vars mixed ∧ mixed <:+: vars := by
  induction h with
  | row _ midway => exact ⟨_, midway, ⟨_, _, rfl⟩⟩
  | member _ _ _ ih =>
    obtain ⟨mixed, hmid, hside⟩ := ih
    exact ⟨mixed, hmid, hside.trans ⟨_, _, rfl⟩⟩

/-- A block is in one piece unless it lies in one of the two. -/
theorem cases (h : Torn upper lower b vars) (hb : b.Neat) (hd : b.Within d) :
    (∃ w, w.Perm d.vars ∧ w <:+: vars) ∨ upper.Within d ∨ lower.Within d := by
  have hwhole := h.perm hb
  -- A member that was not touched has all blocks within it in one piece.
  have untouched : ∀ {c : Block} {row vars : List Var} {Z : List Block}, c ∈ Z → c.Neat → c.Within d →
      Z.flatMap (·.vars) = row → row <:+: vars → ∃ w : List Var, w.Perm d.vars ∧ w <:+: vars := by
    rintro c _ vars Z hc hneat hcd rfl hside
    exact ⟨d.vars, .refl _, (hneat.isInfix hcd).trans
      ((List.infix_of_mem_flatten (List.mem_map_of_mem hc)).trans hside)⟩
  induction h with
  | @row b X Y vars perm midway =>
    rcases hd.cases_child with rfl | ⟨c, hc, hcd⟩
    · exact .inl ⟨_, hwhole, List.infix_rfl⟩
    · have hneat := hb.child hc
      rcases List.mem_append.mp (perm.mem_iff.mpr hc) with hX | hc
      · exact .inl (untouched hX hneat hcd rfl ⟨[], vars ++ Y.flatMap (·.vars), by simp⟩)
      · rcases List.mem_cons.mp hc with rfl | hc
        · exact .inr (.inl hcd)
        · rcases List.mem_cons.mp hc with rfl | hY
          · exact .inr (.inr hcd)
          · exact .inl (untouched hY hneat hcd rfl ⟨_, [], List.append_nil _⟩)
  | @member b e X X' Y vars perm before torn ih =>
    rcases hd.cases_child with rfl | ⟨c, hc, hcd⟩
    · exact .inl ⟨_, hwhole, List.infix_rfl⟩
    · have hneat := hb.child hc
      rcases List.mem_append.mp (perm.mem_iff.mpr hc) with hX | hc
      · obtain ⟨c', hc', hr⟩ := exists_of_forall₂ before hX
        obtain ⟨d', hd', hside⟩ := hr.within hcd
        refine .inl ⟨d'.vars, hd'.perm (hneat.within hcd), hside.trans ?_⟩
        exact (List.infix_of_mem_flatten (List.mem_map_of_mem hc')).trans
          ⟨[], vars ++ Y.flatMap (·.vars), by simp [List.flatMap]⟩
      · rcases List.mem_cons.mp hc with rfl | hY
        · refine (ih hneat hcd (torn.perm hneat)).imp_left fun ⟨w, hw, hside⟩ => ⟨w, hw, ?_⟩
          exact hside.trans ⟨_, _, rfl⟩
        · exact .inl (untouched hY hneat hcd rfl ⟨_, [], List.append_nil _⟩)

end Torn

/-! ### Configured blocks -/

variable {order : VarOrder} {forest : VarForest}

/-- The blocks within the layout are the configured ones and single variables. -/
theorem configured_or_single (hd : (layout forest order).Within d) (hc : c ∈ d.children) :
    (∃ b, forest.Holds b ∧ c = (ofVarBlock order b).block) ∨ ∃ v, c = single v := by
  induction hd generalizing c with
  | refl => exact (of_mem_layout hc).imp_left fun ⟨b, hb, heq⟩ => ⟨b, .top hb, heq⟩
  | child _ hd ih =>
    rcases ih hd with ⟨b, hb, rfl⟩ | ⟨v, rfl⟩
    · exact (of_mem_children hc).imp_left fun ⟨e, he, heq⟩ => ⟨e, .within hb he, heq⟩
    · cases hc

end Block

/-- The variables are those of a configured block, or there is only one. -/
def VarForest.Moves (forest : VarForest) (vars : List Var) : Prop :=
  (∃ b, forest.Holds b ∧ vars.Perm (List.range' b.first (b.last + 1 - b.first))) ∨ ∃ v, vars = [v]

/-- In another order of the same variables, those of two blocks or single variables stand side by side,
but are mixed.  Each configured block is in one piece unless it lies in one of the two. -/
structure VarForest.Tears (forest : VarForest) (o o' : VarOrder) : Prop where
  perm : o'.toList.Perm o.toList
  torn : ∃ U L mixed, forest.Moves U ∧ forest.Moves L ∧ Midway U L mixed ∧ mixed <:+: o'.toList ∧
    ∀ {b}, forest.Holds b → o'.Gathered b.first b.last ∨ (∀ v, b.Contains v → v ∈ U) ∨
      ∀ v, b.Contains v → v ∈ L

section Tears

variable {o o' : VarOrder} {forest : VarForest}

theorem Block.Torn.tears {upper lower : Block} {vars : List Var} (hf : forest.Nested) (ho : o.Valid)
    (hblocks : ∀ b, forest.Holds b → o.Gathered b.first b.last)
    (h : Torn upper lower (layout forest o) vars) (heq : o'.toList = vars) : forest.Tears o o' := by
  have hpos : 0 < o.size := Nat.pos_of_ne_zero fun hzero => h.ne_nil (by rw [layout, hzero]; rfl)
  have hneat := neat_layout hf ho hpos
  have hvars : ∀ {b}, forest.Holds b →
      (ofVarBlock o b).block.vars.Perm (List.range' b.first (b.last + 1 - b.first)) := fun hb =>
    perm_ofVarBlock hf ho hblocks hb
  obtain ⟨d, hd, hupper, hlower⟩ := h.exists_parent
  obtain ⟨mixed, hmid, hside⟩ := h.exists_midway
  have moves : ∀ {c}, c ∈ d.children → forest.Moves c.vars := fun hc => by
    rcases configured_or_single hd hc with ⟨b, hb, rfl⟩ | ⟨v, rfl⟩
    · exact .inl ⟨b, hb, hvars hb⟩
    · exact .inr ⟨v, rfl⟩
  have lies : ∀ {b c}, forest.Holds b → c ∈ d.children → c.Within (ofVarBlock o b).block →
      ∀ v, b.Contains v → v ∈ c.vars := fun hb hc hwithin v hv =>
    ((hneat.within (.child hd hc)).isInfix hwithin).subset
      ((hvars hb).mem_iff.mpr (VarOrder.mem_range_iff.mpr hv))
  refine ⟨?_, upper.vars, lower.vars, mixed, moves hupper, moves hlower, hmid, heq ▸ hside,
    fun {b} hb => ?_⟩
  · rw [heq]
    exact h.perm hneat
  · refine (h.cases hneat (within_layout hf ho hblocks hb)).imp ?_
      (.imp (lies hb hupper) (lies hb hlower))
    rintro ⟨w, hw, hside⟩
    exact ⟨w, hw.trans (hvars hb), heq ▸ hside⟩

end Tears

namespace Manager

variable {m m₀ m' : Manager}

theorem Begins.forest (hb : m.Begins m₀) : m₀.forest = m.forest := by
  cases hb with
  | asked => rfl
  | @due _ _ operands p exclusive m₁ _ _ _ _ hattempt =>
    have hreleased := attempt_released operands p (m.barred exclusive)
    rw [hattempt] at hreleased
    refine hreleased.1.forest.trans ?_
    cases exclusive <;> rfl

/-- A search that runs out of room, whether it is asked for or an operator is interrupted for it, was
about to exchange two blocks.  If each configured block stood at consecutive levels, then only these two
and the blocks within them can be torn apart.  The blocks stay as they are. -/
theorem Settled.search_tears (hm : m.Settled) (hb : m.Begins m₀)
    (hblocks : ∀ b, m₀.forest.Holds b → m₀.order.Gathered b.first b.last) {method : ReorderMethod}
    (h : session (Reordering.reorderAll method) m₀ = .error (.error .nodeLimit) m') :
    m'.forest = m₀.forest ∧ m₀.forest.Tears m₀.order m'.order := by
  have hm₀ := hm.begins hb
  have hforest : m₀.forest.Nested := hb.forest ▸ hm.reachable.nested
  obtain ⟨s, s', stats, m₁, hs, hsearch, hfinish, rfl⟩ := of_session_nodeLimit h
  obtain ⟨hsound, hopens⟩ := hm₀.start (fun _ => .rfl) hs
  have hstart : s.manager.forest = m₀.forest := by rw [hopens.manager]
  have horder : s.manager.order = m₀.order := by rw [hopens.manager]
  have htears := Reordering.Ensures.reorderAll method hsound (hstart.symm ▸ hforest)
  have hadvances := (Reordering.Guided.reorderAll method).walks.safe s hsound
  rw [Reordering.Ensures, hsearch] at htears hadvances
  obtain ⟨-, upper, lower, vars, htorn, ho⟩ := htears
  obtain ⟨-, hcloses⟩ := hadvances.2.sound.finish hfinish
  rw [hstart, horder] at htorn
  refine ⟨hcloses.forest.trans (hadvances.2.keeps.forest.trans hstart), ?_⟩
  refine htorn.tears hforest hm₀.order hblocks ?_
  show m₁.order.toList = vars
  rw [hcloses.order, ho]
  simp

/-- The same of a search that is asked for. -/
theorem Settled.reorder_tears (hm : m.Settled)
    (hblocks : ∀ b, m.forest.Holds b → m.order.Gathered b.first b.last) {method : ReorderMethod}
    (h : ((Command.reorder method).run m).1 = .error (.error .nodeLimit)) :
    m.forest.Tears m.order ((Command.reorder method).run m).2.order := by
  have hfails : Action.Ensures m (Command.reorder method).perform (fun _ _ => True) fun e m' =>
      e = .nodeLimit → m.forest.Tears m.order m'.order := by
    refine Action.Ensures.bind (Q := fun _ _ => True) ?_ fun _ _ _ => trivial
    by_cases hidle : (decide (method = .off) || decide (m.varNum < 2)) = true
    · rw [Action.Ensures, show reorder method m = .ok _ _ from if_pos hidle]
      trivial
    · rw [Action.Ensures, show reorder method m = session _ _ from if_neg hidle]
      rcases hx : session (Reordering.reorderAll method) { m with pending := [] } with
        ⟨_, m'⟩ | ⟨e | _, m'⟩
      · trivial
      · rintro rfl
        exact (hm.search_tears .asked hblocks hx).2
      · trivial
  exact Command.of_error hfails h rfl

/-- The window exchanges the block of the first two variables with the third one.  The second of the two
has moved down, and for the first one there is no room. -/
theorem reorder_tears_pair :
    ∃ m, after (.small 9 9) [.setVarNum 3, .apply .and 2 6, .protect 8,
        .addVarBlock 0 1 false] = some m ∧
      m.order.Gathered 0 1 ∧
      ((Command.reorder .win2).run m).1 = .error (.error .nodeLimit) ∧
      ((Command.reorder .win2).run m).2.order.toList = [0, 2, 1] ∧
      ¬ ((Command.reorder .win2).run m).2.order.Gathered 0 1 ∧
      m.forest.Tears m.order ((Command.reorder .win2).run m).2.order := by
  have hrun : (after (.small 9 9) [.setVarNum 3, .apply .and 2 6, .protect 8,
      .addVarBlock 0 1 false]).any fun m =>
        m.forest.map (fun b => (b.first, b.last, b.children.isEmpty)) == [(0, 1, true)] &&
          m.order.toList == [0, 1, 2] &&
          (Command.reorder .win2).failure? m == some (.error .nodeLimit) &&
          ((Command.reorder .win2).run m).2.order.toList == [0, 2, 1] := by
    decide +kernel
  obtain ⟨m, hm, hfacts⟩ := (Option.any_eq_true _ _).mp hrun
  simp only [Bool.and_eq_true, beq_iff_eq] at hfacts
  obtain ⟨⟨⟨hforest, hbefore⟩, hfails⟩, hafter⟩ := hfacts
  have hfails := Command.run_of_failure? hfails
  obtain ⟨b₀, hforest, heq⟩ := List.map_eq_singleton_iff.mp hforest
  obtain ⟨hfirst, hlast, hchildren⟩ := Prod.mk.inj heq |>.imp_right Prod.mk.inj
  have hgathered : m.order.Gathered 0 1 := ⟨[0, 1], .refl _, [], [2], hbefore.symm⟩
  have hblocks : ∀ b, m.forest.Holds b → b = b₀ := by
    intro b hb
    induction hb with
    | top hb =>
      rw [hforest] at hb
      exact List.mem_singleton.mp hb
    | within _ hc ih =>
      rw [ih, List.isEmpty_iff.mp hchildren] at hc
      cases hc
  have htears := (settled_after hm).reorder_tears
    (fun b hb => by rw [hblocks b hb, hfirst, hlast]; exact hgathered) hfails
  refine ⟨m, hm, hgathered, hfails, hafter, ?_, htears⟩
  rintro ⟨vars, hperm, hside⟩
  have hmixed : ∀ vars ∈ ([0, 1] : List Var).permutations', ¬ vars <:+: [0, 2, 1] := by decide
  exact hmixed vars (List.mem_permutations'.mpr hperm) (hafter ▸ hside)

end Manager

end DecisionDiagram
