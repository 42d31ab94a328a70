/-
Orders that a caller asks for are imposed exactly.

* `Action.Ensures.rearrange` — what the work of a session does to its order, it does to that of the
  manager;
* `Action.Ensures.setVarOrder`, `.swapVar` — the two calls that ask for an order;
* `Manager.Settled.orders_imposed` — which orders are refused, and what has become of the others.
-/
import DecisionDiagram.Proofs.Meaning
import DecisionDiagram.Proofs.Totality

namespace DecisionDiagram

open Manager

namespace Action

variable {m : Manager} {P : VarOrder → Prop} {body : Reordering Unit} {vars : List Var} {v w : Var}

/-- A session ends with the order that its work has led to. -/
theorem Ensures.imposing (hm : m.Sound)
    (h : ∀ s : Session, s.Sound → s.manager.order = m.order → Reordering.Achieves s body
      (fun _ s' => Reordering.Advances s s' ∧ P s'.manager.order) (Reordering.Advances s)) :
    Ensures m (Manager.session body) (fun _ m' => m'.varNum = m.varNum ∧ P m'.order)
      fun e _ => e = .nodeLimit := by
  unfold Ensures Manager.session
  rcases hs : Session.start m m.rootNodes with _ | s
  · trivial
  · obtain ⟨hsound, hopens⟩ := hm.start (fun _ => .rfl) hs
    have horder : s.manager.order = m.order := by rw [hopens.manager]
    rcases (h s hsound horder).cases with ⟨_, s', hx, hadvances, hP⟩ | ⟨s', hx, -⟩
    · simp only [hx]
      rcases hf : s'.finish with _ | ⟨stats, m'⟩
      · trivial
      · obtain ⟨-, hcloses⟩ := hadvances.sound.finish hf
        refine ⟨?_, hcloses.order ▸ hP⟩
        rw [hcloses.varNum, hadvances.keeps.varNum, hopens.manager]
        rfl
    · simp only [hx]
      rcases hf : s'.finish with _ | ⟨stats, m'⟩
      · trivial
      · rfl

theorem Ensures.rearrange (hm : m.Ready)
    (h : ∀ s : Session, s.Sound → s.manager.order = m.order → Reordering.Achieves s body
      (fun _ s' => Reordering.Advances s s' ∧ P s'.manager.order) (Reordering.Advances s)) :
    Ensures m (Manager.rearrange body) (fun _ m' => m'.varNum = m.varNum ∧ P m'.order)
      fun e _ => e = .nodeLimit := by
  refine Ensures.bind (Q := fun _ m' => m' = { m with pending := [] }) rfl ?_
  rintro _ m' rfl
  refine (Ensures.imposing (completes_clear hm).ready.toSound h).bind fun _ _ h => ?_
  exact h

/-- An order is refused unless it is a permutation, and then the variables stand as it says. -/
theorem Ensures.setVarOrder (hm : m.Ready) (hforest : m.forest = []) (vars : List Var) :
    Ensures m (Manager.setVarOrder vars)
      (fun _ m' => vars.Perm (List.range m.varNum) ∧ m'.currentOrder = vars)
      fun e _ => if vars.Perm (List.range m.varNum) then e = .nodeLimit else e = .invalidOrder := by
  refine .get ?_
  rw [if_neg (by simp [hforest])]
  by_cases hperm : vars.Perm (List.range m.varNum)
  · have hlist := hperm.trans hm.order.toList_perm.symm
    rw [if_neg (by simpa using isPermutation_iff.mpr hperm)]
    refine (Ensures.rearrange (P := fun o => o.toList = vars) hm fun s hs ho => ?_).mono
      (fun _ _ h => ⟨hperm, h.2⟩) fun e _ he => by rwa [if_pos hperm]
    refine (Reordering.Achieves.imposeFrom (A := []) hs rfl rfl (ho ▸ hlist)).mono
      (fun _ _ h => ⟨h.advances, h.order⟩) fun _ h => h
  · rw [if_pos (by simpa using mt isPermutation_iff.mp hperm)]
    exact .fail (by rw [if_neg hperm])

/-- Two known variables exchange their levels, whichever stands above the other. -/
theorem Ensures.swapVar (hm : m.Ready) (hforest : m.forest = []) (v w : Var) :
    Ensures m (Manager.swapVar v w)
      (fun _ m' => v < m.varNum ∧ w < m.varNum ∧ m'.varNum = m.varNum ∧
        m.order.Swapped v w m'.order)
      fun e _ => v < m.varNum → w < m.varNum → e = .nodeLimit := by
  have unknown : ∀ {u : Var} {e : Error}, m.checkVar u = .error (.error e) → ¬ u < m.varNum := by
    intro u e he hu
    rw [checkVar, if_pos hu] at he
    cases he
  refine .get ?_
  rw [if_neg (by simp [hforest])]
  refine .inspect (fun e he hv => absurd hv (unknown he)) fun _ hv => ?_
  refine .inspect (fun e he _ hw => absurd hw (unknown he)) fun _ hw => ?_
  have hv := checkVar_ok hv
  have hw := checkVar_ok hw
  by_cases hvw : v = w
  · rw [if_pos hvw]
    exact .pure ⟨hv, hw, rfl, hvw ▸ ⟨rfl, rfl, fun _ _ _ => rfl⟩⟩
  · rw [if_neg hvw]
    obtain ⟨k, hk, -⟩ := hm.exists_levelOf hv
    obtain ⟨l, hl, -⟩ := hm.exists_levelOf hw
    refine .read_ok hk (.read_ok hl ?_)
    have hk := levelOf_ok hk
    have hl := levelOf_ok hl
    -- The work is told the upper variable first, and what it achieves is the same either way.
    split
    · rename_i hlt
      refine (Ensures.rearrange hm fun s hs ho => ?_).mono (fun _ _ h => ⟨hv, hw, h⟩)
        fun _ _ he _ _ => he
      exact ho ▸ Reordering.Achieves.exchangeLevels hs (ho ▸ hk) (ho ▸ hl) hlt
    · rename_i hge
      have hlt := hm.order.lt_of_not_lt hk hl hvw hge
      refine (Ensures.rearrange hm fun s hs ho => ?_).mono
        (fun _ _ h => ⟨hv, hw, h.1, VarOrder.Swapped.symm h.2⟩) fun _ _ he _ _ => he
      exact ho ▸ Reordering.Achieves.exchangeLevels hs (ho ▸ hl) (ho ▸ hk) hlt

end Action

namespace Manager

variable {m m' : Manager}

/-- Variables that exchange their levels do so in the eyes of a caller. -/
theorem varToLevel_swapped {v w : Var} (hvar : m'.varNum = m.varNum)
    (h : m.order.Swapped v w m'.order) (hv : v < m.varNum) (hw : w < m.varNum) :
    m'.varToLevel v = m.varToLevel w ∧ m'.varToLevel w = m.varToLevel v ∧
      ∀ u, u ≠ v → u ≠ w → m'.varToLevel u = m.varToLevel u := by
  have known : ∀ {u u' : Var}, u < m.varNum → u' < m.varNum →
      m'.order.levelOf[u]? = m.order.levelOf[u']? → m'.varToLevel u = m.varToLevel u' := by
    intro u u' hu hu' heq
    simp only [varToLevel, checkVar, levelOf, hvar, if_pos hu, if_pos hu', heq]
  refine ⟨known hv hw h.left, known hw hv h.right, fun u huv huw => ?_⟩
  by_cases hu : u < m.varNum
  · exact known hu hu (h.others u huv huw)
  · simp only [varToLevel, checkVar, hvar, if_neg hu]
    rfl

/-- A command with an answer that is no list of nodes answers, or the error that is reported has the
property that it is known to have. -/
theorem Settled.run_cases (hm : m.Settled) {c : Command} (hc : c.Issued m)
    {Q : Answer → Manager → Prop} {E : Error → Manager → Prop} (h : Action.Ensures m c.perform Q E) :
    (∃ answer m', c.run m = (.ok answer, m') ∧ Q answer m') ∨
      ∃ e m', c.run m = (.error (.error e), m') ∧ E e m' := by
  have hfault := c.run_ne_fault hm.ready hm.reachable.nested hc
  unfold Action.Ensures at h
  unfold Command.run at hfault ⊢
  rcases hx : c.perform m with ⟨answer, m'⟩ | ⟨e | _, m'⟩
  · rw [hx] at h
    exact .inl ⟨answer, m', rfl, h⟩
  · rw [hx] at h
    exact .inr ⟨e, m', rfl, h⟩
  · rw [hx] at hfault
    exact absurd rfl hfault

/-- Without configured blocks, an order is refused exactly if it is no permutation of the variables, and
any other one is imposed as it stands.  Two variables exchange their levels, at any distance and
whichever stands above the other, and no other variable changes its level.  Such a call fails for want
of room only. -/
theorem Settled.orders_imposed (hm : m.Settled) (hforest : m.forest = []) :
    (∀ vars : List Var,
      (((Command.setVarOrder vars).run m).1 = .error (.error .invalidOrder) ↔
        ¬ vars.Perm (List.range m.varNum)) ∧
      (∀ answer m', (Command.setVarOrder vars).run m = (.ok answer, m') → m'.currentOrder = vars) ∧
      (vars.Perm (List.range m.varNum) → ∀ e, ((Command.setVarOrder vars).run m).1 = .error e →
        e = .error .nodeLimit)) ∧
    ∀ v w : Var,
      (∀ answer m', (Command.swapVar v w).run m = (.ok answer, m') →
        v < m.varNum ∧ w < m.varNum ∧
        m'.varToLevel v = m.varToLevel w ∧ m'.varToLevel w = m.varToLevel v ∧
        ∀ u, u ≠ v → u ≠ w → m'.varToLevel u = m.varToLevel u) ∧
      (v < m.varNum → w < m.varNum → ∀ e, ((Command.swapVar v w).run m).1 = .error e →
        e = .error .nodeLimit) := by
  constructor
  · intro vars
    have hensures : Action.Ensures m (Command.setVarOrder vars).perform
        (fun _ m' => vars.Perm (List.range m.varNum) ∧ m'.currentOrder = vars)
        fun e _ => if vars.Perm (List.range m.varNum) then e = .nodeLimit else e = .invalidOrder :=
      (Action.Ensures.setVarOrder hm.ready hforest vars).bind fun _ _ h => .pure h
    rcases hm.run_cases ⟨fun _ => by simp, fun _ h => by cases h⟩ hensures with
      ⟨answer, m', hrun, hperm, horder⟩ | ⟨e, m', hrun, he⟩
    · rw [hrun]
      exact ⟨⟨fun h => (by cases h), fun h => absurd hperm h⟩,
        fun _ _ h => (Prod.mk.inj h).2 ▸ horder, fun _ _ h => (by cases h)⟩
    · rw [hrun]
      refine ⟨?_, fun _ _ h => (by cases h), fun hperm _ h => ?_⟩
      · by_cases hperm : vars.Perm (List.range m.varNum)
        · rw [if_pos hperm] at he
          simp [he, hperm]
        · rw [if_neg hperm] at he
          simp [he, hperm]
      · rw [if_pos hperm] at he
        exact (Except.error.inj h).symm.trans (congrArg Failure.error he)
  · intro v w
    have hensures : Action.Ensures m (Command.swapVar v w).perform
        (fun _ m' => v < m.varNum ∧ w < m.varNum ∧ m'.varNum = m.varNum ∧
          m.order.Swapped v w m'.order)
        fun e _ => v < m.varNum → w < m.varNum → e = .nodeLimit :=
      (Action.Ensures.swapVar hm.ready hforest v w).bind fun _ _ h => .pure h
    rcases hm.run_cases ⟨fun _ => by simp, fun _ h => by cases h⟩ hensures with
      ⟨answer, m', hrun, hv, hw, hvar, hswapped⟩ | ⟨e, m', hrun, he⟩
    · rw [hrun]
      exact ⟨fun _ _ h => (Prod.mk.inj h).2 ▸ ⟨hv, hw, varToLevel_swapped hvar hswapped hv hw⟩,
        fun _ _ _ h => by cases h⟩
    · rw [hrun]
      exact ⟨fun _ _ h => (by cases h),
        fun hv hw _ h => (Except.error.inj h).symm.trans (congrArg Failure.error (he hv hw))⟩

/-- With nodes at all of four levels, the outer two variables are exchanged, the lower one named first,
or an order is imposed that moves every variable. -/
theorem orders_imposed_across :
    ∃ m₁ m₂ m₃, ∃ answer₂ answer₃,
      after (.small 32 0) [.setVarNum 4, .apply .xor 2 4, .apply .and 10 8, .apply .or 6 11] =
        some m₁ ∧
      (Command.swapVar 3 0).run m₁ = (.ok answer₂, m₂) ∧ m₂.varToLevel 3 = .ok 0 ∧
      m₂.varToLevel 0 = .ok 3 ∧ m₂.varToLevel 1 = .ok 1 ∧ m₂.varToLevel 2 = .ok 2 ∧
      (Command.setVarOrder [1, 3, 0, 2]).run m₁ = (.ok answer₃, m₃) ∧
      m₃.currentOrder = [1, 3, 0, 2] ∧
      ((Command.setVarOrder [1, 3, 0, 3]).run m₁).1 = .error (.error .invalidOrder) := by
  have hrun : (after (.small 32 0)
      [.setVarNum 4, .apply .xor 2 4, .apply .and 10 8, .apply .or 6 11]).any fun m =>
        m.forest.isEmpty && m.varNum == 4 && m.order.levelOf == #[0, 1, 2, 3] &&
        (Command.swapVar 3 0).failure? m == none &&
        (Command.setVarOrder [1, 3, 0, 2]).failure? m == none := by
    decide +kernel
  obtain ⟨m, hm, hrun⟩ := (Option.any_eq_true _ _).mp hrun
  simp only [Bool.and_eq_true, beq_iff_eq, List.isEmpty_iff] at hrun
  obtain ⟨⟨⟨⟨hforest, hvar⟩, hlevels⟩, hswap⟩, hset⟩ := hrun
  have hlevel : ∀ {v : Var} {l : Level}, v < 4 → m.order.levelOf[v]? = some l →
      m.varToLevel v = .ok l := by
    intro v l hv hl
    simp only [varToLevel, checkVar, if_pos (hvar ▸ hv : v < m.varNum), levelOf, hl]
    rfl
  have hget : ∀ v : Var, m.order.levelOf[v]? = #[0, 1, 2, 3][v]? := fun v => by rw [hlevels]
  obtain ⟨answer₂, hranSwap⟩ := Command.ok_of_failure? hswap
  obtain ⟨answer₃, hranSet⟩ := Command.ok_of_failure? hset
  obtain ⟨hvars, hpairs⟩ := (settled_after hm).orders_imposed hforest
  have hranSwap : (Command.swapVar 3 0).run m = (.ok answer₂, _) := Prod.ext hranSwap rfl
  have hranSet : (Command.setVarOrder [1, 3, 0, 2]).run m = (.ok answer₃, _) := Prod.ext hranSet rfl
  obtain ⟨-, -, hleft, hright, hothers⟩ := (hpairs 3 0).1 _ _ hranSwap
  refine ⟨m, _, _, answer₂, answer₃, hm, hranSwap, ?_, ?_, ?_, ?_, hranSet,
    (hvars _).2.1 _ _ hranSet, ?_⟩
  · exact hleft.trans (hlevel (by decide) (hget 0))
  · exact hright.trans (hlevel (by decide) (hget 3))
  · exact (hothers 1 (by decide) (by decide)).trans (hlevel (by decide) (hget 1))
  · exact (hothers 2 (by decide) (by decide)).trans (hlevel (by decide) (hget 2))
  · rw [(hvars _).1, hvar]
    decide

end Manager

end DecisionDiagram
