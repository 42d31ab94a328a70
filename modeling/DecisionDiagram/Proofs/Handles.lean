/-
Handles are stable: what a caller may hold on to keeps its id and its value.

These are the protected nodes, the literals and the entries of pairings.  It makes no difference
whether a call succeeds, nor whether it collects, grows the store or changes the order.

* `Manager.Settled.handles` — one call;
* `Manager.Settled.literals_follow` — a run, for the literals, which no call drops.
-/
import DecisionDiagram.Proofs.Commands
import DecisionDiagram.Proofs.Runs

namespace DecisionDiagram

namespace Manager

variable {m m' : Manager} {id : NodeId} {assignment : Array Bool}

/-! ### Live nodes and their values -/

theorem Sound.exists_eval (hm : m.Sound) (hid : m.diagram.Live id)
    (ha : m.varNum ≤ assignment.size) : ∃ b, m.eval id assignment = .ok b := by
  obtain ⟨b, hb⟩ := hm.exists_value hid (valuation assignment)
  exact ⟨b, (hm.eval_iff hm.order).mpr ⟨ha, hb⟩⟩

/-- Only live nodes can be evaluated. -/
theorem isLive_of_eval {b : Bool} (h : m.eval id assignment = .ok b) : m.store.isLive id = true := by
  by_contra hdead
  simp only [eval, checkNode, if_neg hdead, bind, Except.bind] at h
  cases h

theorem Sound.exists_literals (hm : m.Sound) {v : Var} (hv : v < m.varNum) :
    ∃ p, m.literals[v]? = some p :=
  ⟨_, Array.getElem?_eq_getElem (hm.literals_size ▸ hv)⟩

theorem ithVar_eq {v : Var} (hv : v < m.varNum) {p : NodeId × NodeId}
    (hp : m.literals[v]? = some p) : m.ithVar v = .ok p.1 ∧ m.nithVar v = .ok p.2 := by
  have hpair : m.literalsOf v = .ok p := by
    simp only [literalsOf, checkVar, if_pos hv, hp, bind, Except.bind]
    rfl
  simp only [ithVar, nithVar, hpair, bind, Except.bind]
  exact ⟨rfl, rfl⟩

/-- A literal has the value of its variable or of the negation. -/
theorem Sound.eval_literals (hm : m.Sound) {v : Var} {p : NodeId × NodeId}
    (hp : m.literals[v]? = some p) (ha : m.varNum ≤ assignment.size) :
    m.eval p.1 assignment = .ok (assignment.getD v false) ∧
      m.eval p.2 assignment = .ok (!assignment.getD v false) := by
  obtain ⟨hpos, hneg⟩ := hm.value_literal hp (valuation assignment)
  exact ⟨(hm.eval_iff hm.order).mpr ⟨ha, hpos⟩, (hm.eval_iff hm.order).mpr ⟨ha, hneg⟩⟩

/-- Whatever a manager names is live after a call and evaluates as before. -/
theorem Follows.eval_eq (hm : m.Sound) (h : m.Follows m') (hid : m.Named id) :
    m'.store.isLive id = true ∧ ∀ assignment : Array Bool, m'.varNum ≤ assignment.size →
      (∃ b, m.eval id assignment = .ok b) ∧ m'.eval id assignment = m.eval id assignment := by
  have keep : ∀ assignment : Array Bool, m'.varNum ≤ assignment.size →
      ∃ b, m.eval id assignment = .ok b ∧ m'.eval id assignment = .ok b := by
    intro assignment ha
    obtain ⟨b, hb⟩ := hm.exists_eval (hm.rooted hid.rooted) (Nat.le_trans h.varNum ha)
    exact ⟨b, hb, h.eval hid ha hb⟩
  refine ⟨?_, fun assignment ha => ?_⟩
  · obtain ⟨b, -, hb⟩ := keep (Array.replicate m'.varNum false) (by simp)
    exact isLive_of_eval hb
  · obtain ⟨b, hb, hb'⟩ := keep assignment ha
    exact ⟨⟨b, hb⟩, hb'.trans hb.symm⟩

/-! ### Runs -/

/-- No run changes the literals of a variable. -/
theorem Settled.literals_follow (hm : m.Settled) {commands : List Command}
    (h : m.follow commands = some m') {v : Var} {p : NodeId × NodeId}
    (hp : m.literals[v]? = some p) : m'.literals[v]? = some p := by
  induction commands generalizing m with
  | nil =>
    obtain rfl := Option.some.inj h
    exact hp
  | cons c rest ih =>
    obtain ⟨hfault, hext, hrest⟩ := follow_cons h
    exact ih (.call c hm hfault hext) hrest ((c.run_spec hm.ready hfault).1.literals hp)

/-- Handles are stable: whichever call it is and however it ends, the nodes that are protected, the
literals and the entries of pairings are live afterwards and evaluate as before.  The literals of a
variable are the same nodes for ever. -/
theorem Settled.handles (hm : m.Settled) (c : Command) (h : (c.run m).1 ≠ .error .fault) :
    (∀ id, (id ∈ m.roots.nodes ∧ id ∈ (c.run m).2.roots.nodes) ∨
        (∃ p ∈ m.literals, id = p.1 ∨ id = p.2) ∨
        (id ∈ m.pairings.nodes ∧ id ∈ (c.run m).2.pairings.nodes) →
      (c.run m).2.store.isLive id = true ∧
      ∀ assignment : Array Bool, (c.run m).2.varNum ≤ assignment.size →
        (∃ b, m.eval id assignment = .ok b) ∧
        (c.run m).2.eval id assignment = m.eval id assignment) ∧
    (∀ v, v < m.varNum → ∃ pos neg, m.ithVar v = .ok pos ∧ m.nithVar v = .ok neg ∧
      (c.run m).2.ithVar v = .ok pos ∧ (c.run m).2.nithVar v = .ok neg ∧
      (∀ assignment : Array Bool, (c.run m).2.varNum ≤ assignment.size →
        (c.run m).2.eval pos assignment = .ok (assignment.getD v false) ∧
        (c.run m).2.eval neg assignment = .ok (!assignment.getD v false)) ∧
      ∀ commands m', m.follow commands = some m' → m'.ithVar v = .ok pos ∧ m'.nithVar v = .ok neg) := by
  have hready := hm.ready
  have hfollows := (c.run_spec hready h).1
  refine ⟨fun id hid => hfollows.eval_eq hready.toSound ?_, fun v hv => ?_⟩
  · exact hid.imp And.left (Or.imp_right And.left)
  · obtain ⟨p, hp⟩ := hready.exists_literals hv
    have hliterals := ithVar_eq hv hp
    have hafter := ithVar_eq (Nat.lt_of_lt_of_le hv hfollows.varNum) (hfollows.literals hp)
    refine ⟨p.1, p.2, hliterals.1, hliterals.2, hafter.1, hafter.2, fun assignment ha => ?_,
      fun commands m' hfollow => ?_⟩
    · have hvalues := hready.eval_literals hp (Nat.le_trans hfollows.varNum ha)
      obtain ⟨hpos, hneg⟩ := named_literal hp
      exact ⟨hfollows.eval hpos ha hvalues.1, hfollows.eval hneg ha hvalues.2⟩
    · have hp' := hm.literals_follow hfollow hp
      refine ithVar_eq ?_ hp'
      rw [← (hm.follow hfollow).ready.literals_size]
      exact (Array.getElem?_eq_some_iff.mp hp').1

/-- The exchange of two variables rewrites the protected node in place. -/
theorem handles_swap :
    ∃ m, after (.small 16 16) [.setVarNum 2, .apply .and 2 4, .protect 6] = some m ∧
      (Command.swapVar 0 1).failure? m = none ∧ 6 ∈ m.roots.nodes ∧
      (∀ assignment : Array Bool, 2 ≤ assignment.size →
        ((Command.swapVar 0 1).run m).2.eval 6 assignment = m.eval 6 assignment) ∧
      ((Command.swapVar 0 1).run m).2.ithVar 1 = m.ithVar 1 := by
  have hrun : (after (.small 16 16) [.setVarNum 2, .apply .and 2 4, .protect 6]).any fun m =>
      (Command.swapVar 0 1).failure? m == none && m.roots.nodes.contains 6 && m.varNum == 2 &&
      ((Command.swapVar 0 1).run m).2.roots.nodes.contains 6 &&
      ((Command.swapVar 0 1).run m).2.varNum == 2 := by
    decide +kernel
  obtain ⟨m, hm, hfacts⟩ := (Option.any_eq_true _ _).mp hrun
  simp only [Bool.and_eq_true, beq_iff_eq, List.contains_iff_mem] at hfacts
  obtain ⟨⟨⟨⟨hok, hroot⟩, hvar⟩, hroot'⟩, hvar'⟩ := hfacts
  obtain ⟨hkeep, hliterals⟩ :=
    (settled_after hm).handles (.swapVar 0 1) (Command.ne_fault_of_failure? (by rw [hok]; simp))
  obtain ⟨pos, neg, hpos, -, hpos', -⟩ := hliterals 1 (by rw [hvar]; decide)
  refine ⟨m, hm, hok, hroot, fun assignment ha => ?_, hpos'.trans hpos.symm⟩
  exact ((hkeep 6 (.inl ⟨hroot, hroot'⟩)).2 assignment (hvar'.trans_le ha)).2

end Manager

end DecisionDiagram
