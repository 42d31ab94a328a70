/-
Pairings survive whatever happens to the order and to the number of variables.

A pairing is a table by level, but what it stands for is a substitute for each variable.  So its
entries follow every exchange of levels, and there are new ones when there are new variables, even if
the store runs full on the way.

* `Manager.Settled.plain` — past the last level that was set, every variable stands for itself;
* `Manager.Settled.pairings_survive` — one call, whatever it is and however it ends, and a pairing
  that it does not edit.
-/
import DecisionDiagram.Proofs.Handles
import DecisionDiagram.Proofs.Runs
import DecisionDiagram.Proofs.Totality

namespace DecisionDiagram

namespace Manager

variable {m : Manager} {number : Nat}

/-- Every pairing has an entry for each variable. -/
theorem Aligned.exists_substitute (hm : m.Aligned) (hnumber : number < m.pairings.tables.size)
    {v : Var} (hv : v < m.varNum) : ∃ f, m.substitute? number v = some f := by
  obtain ⟨l, hlevel, -, -, hl⟩ := hm.order.getD_levelOf hv
  have ht : m.pairings.tables[number]? = some m.pairings.tables[number] :=
    Array.getElem?_eq_getElem hnumber
  have hsize := (hm.pairings.entries _ (Array.getElem_mem hnumber)).1
  exact ⟨_, substitute?_eq_some.mpr
    ⟨_, l, ht, hlevel, Array.getElem?_eq_getElem (hsize.symm ▸ hl)⟩⟩

theorem Aligned.ithVar_eq (hm : m.Aligned) {v : Var} {f : NodeId} (h : m.positive? v = some f) :
    m.ithVar v = .ok f := by
  obtain ⟨p, hp, rfl⟩ := Option.map_eq_some_iff.mp h
  exact (Manager.ithVar_eq (hm.literals_size ▸ (Array.getElem?_eq_some_iff.mp hp).1) hp).1

theorem Settled.plain (hm : m.Settled) : m.Plain := by
  induction hm with
  | create h =>
    intro t ht
    rw [(create_ok h).2.2.1] at ht
    simp [Pairings.empty] at ht
  | call c hm h _ ih => exact (c.run_passes hm.ready h).carries.plain ih

/-- Whichever call it is and however it ends, a pairing that it does not edit substitutes for every
variable the node that it did, at whatever level the variable stands then; new variables stand for
themselves.  The table has exactly one entry for each variable, and past the last level that was set
each entry is the literal of its own variable. -/
theorem Settled.pairings_survive (hm : m.Settled) {c : Command} (hc : c.Issued m)
    (hnumber : number < m.pairings.tables.size) (hedit : c.edited? ≠ some number) :
    (∀ v, v < m.varNum → ∃ f, m.substitute? number v = some f ∧
      (c.run m).2.substitute? number v = some f) ∧
    (∀ v, m.varNum ≤ v → v < (c.run m).2.varNum → ∃ f, (c.run m).2.ithVar v = .ok f ∧
      (c.run m).2.substitute? number v = some f) ∧
    ∃ t, (c.run m).2.pairings.tables[number]? = some t ∧ t.result.size = (c.run m).2.varNum ∧
      ∀ level, level < (c.run m).2.varNum → (∀ last, t.last = some last → last < level) →
        ∃ v f, (c.run m).2.levelToVar level = .ok v ∧ (c.run m).2.ithVar v = .ok f ∧
          t.result[level]? = some f := by
  have hfault := Command.run_ne_fault hm.ready hm.reachable.nested hc
  obtain ⟨-, hcarries, haligned⟩ := c.run_passes hm.ready hfault
  have hnumber' := Nat.lt_of_lt_of_le hnumber hcarries.tables
  refine ⟨fun v hv => ?_, fun v hle hv => ?_, _, Array.getElem?_eq_getElem hnumber',
    (haligned.pairings.entries _ (Array.getElem_mem hnumber')).1, fun level hlevel hlast => ?_⟩
  · obtain ⟨f, hf⟩ := hm.ready.aligned.exists_substitute hnumber hv
    exact ⟨f, hf, hcarries.kept hedit hf⟩
  · obtain ⟨f, hf⟩ := haligned.exists_substitute hnumber' hv
    have hnone : m.substitute? number v = none := by
      rcases h : m.substitute? number v with _ | g
      · rfl
      · obtain ⟨t, l, -, hl, -⟩ := substitute?_eq_some.mp h
        have hlt := (Array.getElem?_eq_some_iff.mp hl).1
        rw [hm.ready.order.size] at hlt
        exact absurd hle (Nat.not_le.mpr hlt)
    exact ⟨f, haligned.ithVar_eq (hcarries.fresh hedit hnumber hnone hf), hf⟩
  · have hsize := (haligned.pairings.entries _ (Array.getElem_mem hnumber')).1
    have hf := Array.getElem?_eq_getElem (hsize.symm ▸ hlevel :
      level < ((c.run m).2.pairings.tables[number]).result.size)
    obtain ⟨v, hv, hpositive⟩ := hcarries.plain hm.plain _ (Array.getElem_mem hnumber') hf hlast
    refine ⟨v, _, ?_, haligned.ithVar_eq hpositive, hf⟩
    rw [levelToVar, if_pos hlevel, varAt, hv]

/-- The substitute of a variable follows it down, and variables that a failing call has added stand for
themselves. -/
theorem pairings_survive_renaming :
    ∃ m, after (.small 8 8) [.setVarNum 2, .newPairing, .setPair 0 0 1] = some m ∧
      m.order.levelOf[0]? = some 0 ∧
      ((Command.swapVar 0 1).run m).2.order.levelOf[0]? = some 1 ∧
      (∃ f, m.substitute? 0 0 = some f ∧ ((Command.swapVar 0 1).run m).2.substitute? 0 0 = some f) ∧
      (Command.setVarNum 4).failure? m = some (.error .nodeLimit) ∧
      ∃ f, ((Command.setVarNum 4).run m).2.ithVar 2 = .ok f ∧
        ((Command.setVarNum 4).run m).2.substitute? 0 2 = some f := by
  have hrun : (after (.small 8 8) [.setVarNum 2, .newPairing, .setPair 0 0 1]).any fun m =>
      m.varNum == 2 && m.pairings.tables.size == 1 && m.order.levelOf[0]? == some 0 &&
      ((Command.swapVar 0 1).run m).2.order.levelOf[0]? == some 1 &&
      (Command.setVarNum 4).failure? m == some (.error .nodeLimit) &&
      ((Command.setVarNum 4).run m).2.varNum == 3 := by
    decide +kernel
  obtain ⟨m, hm, hfacts⟩ := (Option.any_eq_true _ _).mp hrun
  simp only [Bool.and_eq_true, beq_iff_eq] at hfacts
  obtain ⟨⟨⟨⟨⟨hvar, htables⟩, hbefore⟩, hafter⟩, hfail⟩, hvar'⟩ := hfacts
  have hm' := settled_after hm
  have hnumber : 0 < m.pairings.tables.size := htables.symm ▸ Nat.one_pos
  obtain ⟨hkept, -⟩ := hm'.pairings_survive (c := .swapVar 0 1) ⟨nofun, nofun⟩ hnumber nofun
  obtain ⟨-, hfresh, -⟩ := hm'.pairings_survive (c := .setVarNum 4) ⟨nofun, nofun⟩ hnumber nofun
  exact ⟨m, hm, hbefore, hafter, hkept 0 (by omega), hfail, hfresh 2 (by omega) (by omega)⟩

end Manager

end DecisionDiagram
