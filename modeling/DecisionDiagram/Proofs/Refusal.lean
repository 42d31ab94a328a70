/-
A call that is refused changes nothing.

Arguments are checked in several places: by the call itself, by the check of its request, when the
operands are looked at, and by a count on the way to what it counts.  At all of them the manager is
still as it was before the call, or is so again once the automatic reordering is switched on.  Past
them a call can fail for want of room, and a renaming because it would break the order.

* `Action.Refuses` — a call that is no operator has changed nothing, or there is no room;
* `Command.conflict` — a renaming that breaks off;
* `Manager.Settled.refusal` — every call, in every manager that calls lead to.
-/
import DecisionDiagram.Proofs.Frames
import DecisionDiagram.Proofs.Handles

namespace DecisionDiagram

open Manager

namespace Action

variable {α β : Type} {m : Manager}

/-- If the call fails in `m`, it has changed nothing, or there is no room. -/
def Refuses (m : Manager) (x : Action α) : Prop :=
  Ensures m x (fun _ _ => True) fun e m' => m' = m ∨ e = .nodeLimit

/-! ### Rules -/

theorem Refuses.pure (a : α) : Refuses m (Pure.pure a : Action α) := trivial

theorem Refuses.fail (e : Error) : Refuses m (Action.fail e : Action α) := .inl rfl

theorem Refuses.update (g : Manager → Manager) : Refuses m (modify g : Action Unit) := trivial

theorem Refuses.previous (f : Manager → α) (g : Manager → Manager) :
    Refuses m (Action.previous f g) := trivial

theorem Refuses.get {k : Manager → Action α} (h : Refuses m (k m)) :
    Refuses m (MonadState.get >>= k) := h

theorem Refuses.look {f : Manager → Except Failure α} {k : α → Action β}
    (h : ∀ a, Refuses m (k a)) : Refuses m (Action.read f >>= k) :=
  Ensures.read (fun _ => .inl rfl) fun a _ => h a

/-- What is answered after a call does not matter. -/
theorem Refuses.map {x : Action α} {f : α → β} (hx : Refuses m x) :
    Refuses m (do return f (← x)) := Ensures.bind hx fun _ _ _ => trivial

theorem Refuses.of_nodeLimit {x : Action α} {Q : α → Manager → Prop} {E : Error → Manager → Prop}
    (h : Ensures m x Q E) (hE : ∀ e m', E e m' → e = .nodeLimit) : Refuses m x :=
  h.mono (fun _ _ _ => trivial) fun e m' h => .inr (hE e m' h)

/-! ### Variables, garbage and pairings -/

theorem Refuses.setVarNum (hm : m.Ready) (num : Nat) : Refuses m (Manager.setVarNum num) := by
  refine .get ?_
  dsimp only
  split
  · exact .fail _
  · split
    · exact .fail _
    · split
      · exact .pure _
      · exact .of_nodeLimit (Ensures.addVariables hm _) fun _ _ h => h.1

theorem Refuses.extVarNum (hm : m.Ready) (extra : Nat) : Refuses m (Manager.extVarNum extra) := by
  refine .get ?_
  dsimp only
  split
  · exact .fail _
  · exact Ensures.bind (Refuses.setVarNum hm _) fun _ _ _ => trivial

theorem Refuses.gc : Refuses m Manager.gc := by
  unfold Refuses Ensures Manager.gc
  rcases m.collect with _ | ⟨freed, m'⟩
  · trivial
  · trivial

theorem Refuses.updatePairings (f : Manager → Option Pairings) :
    Refuses m (Manager.updatePairings f) := by
  unfold Refuses Ensures Manager.updatePairings
  rcases f m with _ | p
  · trivial
  · trivial

/-! ### The order -/

/-- Once a session is open, nothing is refused any more. -/
theorem Refuses.search (hm : m.Ready) (method : ReorderMethod) :
    Refuses m (Manager.reorder method) := by
  have hc := completes_clear hm
  by_cases hidle : (decide (method = .off) || decide (m.varNum < 2)) = true
  · have hres : Ensures { m with pending := [] }
        (Pure.pure ⟨0, m.store.usedCount, m.store.usedCount⟩ : Action ReorderStats)
        (fun _ _ => True) fun e _ => e = .nodeLimit := trivial
    exact .of_nodeLimit (hres.congr (if_pos hidle)) fun _ _ h => h
  · have hsession :=
      hc.ready.toSound.session (Reordering.Guided.reorderAll method).walks.safe
    exact .of_nodeLimit (hsession.congr (if_neg hidle)) fun _ _ h => h.1

theorem Refuses.rearrange (hm : m.Ready) {body : Reordering Unit} (hb : Reordering.Walks body) :
    Refuses m (Manager.rearrange body) := by
  have hsession := (completes_clear hm).ready.toSound.session hb.safe
  refine .of_nodeLimit (E := fun e _ => e = .nodeLimit) (Q := fun _ _ => True) ?_ fun _ _ h => h
  refine Ensures.bind (Q := fun _ m' => m' = { m with pending := [] }) rfl ?_
  rintro _ m' rfl
  exact Ensures.bind (hsession.mono (fun _ _ h => h) fun _ _ h => h.1) fun _ _ _ => trivial

theorem Refuses.swapVar (hm : m.Ready) (v w : Var) : Refuses m (Manager.swapVar v w) := by
  refine .get ?_
  split
  · exact .fail _
  · refine .look fun _ => .look fun _ => ?_
    split
    · exact .pure _
    · refine .look fun _ => .look fun _ => ?_
      split
      · exact .rearrange hm (Reordering.Guided.exchangeAcross _ _ _ _).walks
      · exact .rearrange hm (Reordering.Guided.exchangeAcross _ _ _ _).walks

theorem Refuses.setVarOrder (hm : m.Ready) (vars : List Var) :
    Refuses m (Manager.setVarOrder vars) := by
  refine .get ?_
  split
  · exact .fail _
  · split
    · exact .fail _
    · exact .rearrange hm (Reordering.Guided.imposeFrom _ _).walks

theorem Refuses.addVarBlock (first last : Var) (fixed : Bool) :
    Refuses m (Manager.addVarBlock first last fixed) := by
  refine .look fun _ => .look fun _ => .get ?_
  dsimp only
  split
  · exact .fail _
  · split
    · exact .fail _
    · exact .update _

/-! ### Settings -/

theorem Refuses.setMaxNodes (limit : Nat) : Refuses m (Manager.setMaxNodes limit) := by
  refine .get ?_
  split
  · exact .fail _
  · exact .previous _ _

theorem Refuses.setIncreaseFactor (factor : Float) :
    Refuses m (Manager.setIncreaseFactor factor) := by
  unfold Manager.setIncreaseFactor
  split
  · exact .fail _
  · exact .previous _ _

theorem Refuses.setMinFreePercent (percent : Nat) :
    Refuses m (Manager.setMinFreePercent percent) := by
  unfold Manager.setMinFreePercent
  split
  · exact .fail _
  · exact .previous _ _

theorem Refuses.setCacheBits (bits : Nat) : Refuses m (Manager.setCacheBits bits) := by
  unfold Manager.setCacheBits
  split
  · exact .fail _
  · exact .previous _ _

end Action

namespace Command

variable {m : Manager} {c : Command} {r : Request} {e : Error}

/-! ### Commands -/

open DecisionDiagram.Action in
/-- Every command that is no operator. -/
theorem refuses (hm : m.Ready) (hr : c.request? = none) : Refuses m c.perform := by
  rcases hp : c.count? with _ | p
  case some =>
    rw [perform_of_count hp]
    have hcount : Refuses m (Manager.count p) :=
      (Ensures.count hm (inert hp) (counts hp hm.toSound)).mono (fun _ _ _ => trivial)
        fun _ _ h => .inl h
    exact hcount.map
  cases c
  case setVarNum num => exact (Refuses.setVarNum hm num).map
  case extVarNum extra => exact (Refuses.extVarNum hm extra).map
  case protect f => exact (Refuses.look fun _ => (Refuses.update _).map).map
  case gc => exact Refuses.gc.map
  case setPair =>
    exact (Refuses.look fun _ => .look fun _ => .look fun _ => .updatePairings _).map
  case setPairNode =>
    exact (Refuses.look fun _ => .look fun _ => .look fun _ => .updatePairings _).map
  case resetPairing => exact (Refuses.updatePairings _).map
  case reorder method => exact (Refuses.search hm method).map
  case swapVar v w => exact (Refuses.swapVar hm v w).map
  case setVarOrder vars => exact (Refuses.setVarOrder hm vars).map
  case addVarBlock first last fixed => exact (Refuses.addVarBlock first last fixed).map
  case setMaxNodes limit => exact (Refuses.setMaxNodes limit).map
  case setIncreaseFactor factor => exact (Refuses.setIncreaseFactor factor).map
  case setMinFreePercent percent => exact (Refuses.setMinFreePercent percent).map
  case setCacheBits bits => exact (Refuses.setCacheBits bits).map
  case release | newPairing | setAutoReorder | setMaxIncrease | setCacheRatio | setCachePolicy =>
    exact (Refuses.previous _ _).map
  case disableReorder | enableReorder | clearVarBlocks | clearError =>
    exact (Refuses.update _).map
  case satCount | satCountSet | pathCount => cases hp
  case ithVar | nithVar | varToLevel | levelToVar | levelOf | varOf | low | high | eval | allSat
      | satCountExact | nodeCount | nodeCountMany | varProfile | descendants | validate
      | validateAll => exact Refuses.look fun _ => .pure _
  all_goals cases hr

/-- What holds of a call that fails holds of a run that does. -/
theorem of_error {Q : Answer → Manager → Prop} {E : Error → Manager → Prop}
    (h : Action.Ensures m c.perform Q E) (he : (c.run m).1 = .error (.error e)) :
    E e (c.run m).2 := by
  unfold Action.Ensures at h
  unfold run at he ⊢
  rcases hx : c.perform m with ⟨answer, m'⟩ | ⟨e' | _, m'⟩
  · simp [hx] at he
  · rw [hx] at h he
    obtain rfl : e' = e := by simpa using he
    exact h
  · simp [hx] at he

theorem of_call_error (hr : c.request? = some r) {Q : NodeId → Manager → Prop}
    {E : Error → Manager → Prop} (h : Action.Ensures m (Manager.call r) Q E)
    (he : (c.run m).1 = .error (.error e)) : E e (c.run m).2 := by
  have hperform : Action.Ensures m c.perform (fun _ _ => True) E := by
    rw [perform_of_request hr]
    exact h.bind fun _ _ _ => trivial
  exact of_error hperform he

/-- A failed operator has changed nothing, or its work has broken off. -/
theorem operator_error (hm : m.Ready) (hr : c.request? = some r)
    (he : (c.run m).1 = .error (.error e)) :
    m.Refused e (c.run m).2 ∧ m.Completes [] (c.run m).2 :=
  of_call_error hr (Action.Ensures.call hm (Q := fun _ _ => True) (fun _ _ _ _ => trivial)
    (fulfilled hr m hm)) he

theorem refused (hm : m.Ready) (he : (c.run m).1 = .error (.error e)) (hlimit : e ≠ .nodeLimit)
    (hconflict : e ≠ .replaceConflict) : (c.run m).2 = m := by
  rcases hr : c.request? with _ | r
  · exact (of_error (refuses hm hr) he).resolve_right hlimit
  · refine (operator_error hm hr he).1.resolve_right fun hregular => ?_
    cases hregular
    · exact hlimit rfl
    · exact hconflict rfl

/-- A renaming that breaks off keeps what the manager names.  The error that stands is the one from
before, unless there was a reordering first, and that ran out of room. -/
theorem conflict (hm : m.Ready) (he : (c.run m).1 = .error (.error .replaceConflict)) :
    m.Completes [] (c.run m).2 ∧ (c.run m).2.roots = m.roots ∧
      ((c.run m).2.error = m.error ∨ (c.run m).2.error = some .nodeLimit ∧
        ∃ r operands m₁, c.request? = some r ∧ r.Pauses m operands m₁ ∧ m₁.Exhausts operands) := by
  rcases hr : c.request? with _ | r
  · have heq := (of_error (refuses hm hr) he).resolve_right nofun
    rw [heq]
    exact ⟨.refl hm [], rfl, .inl rfl⟩
  · obtain ⟨haccounts, herror⟩ := of_call_error hr (Action.Ensures.call_accounts r m) he
    refine ⟨(operator_error hm hr he).2, haccounts.roots, (herror nofun).imp_right ?_⟩
    rintro ⟨hlimit, operands, m₁, hpauses, hexhausts⟩
    exact ⟨hlimit, r, operands, m₁, rfl, hpauses, hexhausts⟩

end Command

namespace Manager

variable {m : Manager}

/-- A call that is refused changes nothing.  Only for want of room, or when a renaming would break the
order, does a call fail in the middle of its work.  A renaming that does so leaves the error that
stands as it was, or as an automatic reordering within the call set it, and all that the manager names
is live and evaluates as before. -/
theorem Settled.refusal (hm : m.Settled) {c : Command} {e : Error}
    (he : (c.run m).1 = .error (.error e)) :
    (e ≠ .nodeLimit → e ≠ .replaceConflict → (c.run m).2 = m) ∧
    (e = .replaceConflict →
      ((c.run m).2.error = m.error ∨ (c.run m).2.error = some .nodeLimit ∧
        ∃ r operands m₁, c.request? = some r ∧ r.Pauses m operands m₁ ∧ m₁.Exhausts operands) ∧
      (c.run m).2.roots = m.roots ∧
      (∀ (v : Var) p, m.literals[v]? = some p → (c.run m).2.literals[v]? = some p) ∧
      (∀ number v f, m.substitute? number v = some f → (c.run m).2.substitute? number v = some f) ∧
      ∀ id, m.Named id → (c.run m).2.Named id ∧ (c.run m).2.store.isLive id = true ∧
        ∀ assignment : Array Bool, (c.run m).2.varNum ≤ assignment.size →
          (∃ b, m.eval id assignment = .ok b) ∧
          (c.run m).2.eval id assignment = m.eval id assignment) := by
  have hready := hm.ready
  refine ⟨Command.refused hready he, ?_⟩
  rintro rfl
  obtain ⟨hc, hroots, herror⟩ := Command.conflict hready he
  have hfollows := hc.follows hready
  exact ⟨herror, hroots, fun _ _ => hfollows.literals, fun _ _ _ => hc.retains.carries.kept nofun,
    fun id hid => ⟨hc.retains.named hid, hfollows.eval_eq hready.toSound hid⟩⟩

/-- The renaming makes a node before it breaks off at the next one.  The search for a satisfying cube has
switched the automatic reordering off when it comes upon the dead node. -/
theorem refusal_renaming :
    ∃ m, after (.small 32 32) [.setVarNum 4, .apply .and 2 4, .apply .and 10 6, .protect 12,
        .newPairing, .setPair 0 0 2, .setPair 0 1 3] = some m ∧
      (Command.replace 12 0).failure? m = some (.error .replaceConflict) ∧
      m.counters.produced < ((Command.replace 12 0).run m).2.counters.produced ∧
      (∀ assignment : Array Bool, 4 ≤ assignment.size →
        ((Command.replace 12 0).run m).2.eval 12 assignment = m.eval 12 assignment) ∧
      (Command.satOneSet 12 20 true).failure? m = some (.error (.illegalNode 20)) ∧
      ((Command.satOneSet 12 20 true).run m).2 = m := by
  have hrun : (after (.small 32 32) [.setVarNum 4, .apply .and 2 4, .apply .and 10 6, .protect 12,
      .newPairing, .setPair 0 0 2, .setPair 0 1 3]).any fun m =>
        (Command.replace 12 0).failure? m == some (.error .replaceConflict) &&
        decide (m.counters.produced < ((Command.replace 12 0).run m).2.counters.produced) &&
        ((Command.replace 12 0).run m).2.varNum == 4 && m.roots.nodes.contains 12 &&
        (Command.satOneSet 12 20 true).failure? m == some (.error (.illegalNode 20)) := by
    decide +kernel
  obtain ⟨m, hm, hfacts⟩ := (Option.any_eq_true _ _).mp hrun
  simp only [Bool.and_eq_true, beq_iff_eq, decide_eq_true_eq, List.contains_iff_mem] at hfacts
  obtain ⟨⟨⟨⟨hconflict, hproduced⟩, hvar⟩, hroot⟩, hrefused⟩ := hfacts
  obtain ⟨-, -, -, -, hnamed⟩ :=
    ((settled_after hm).refusal (Command.run_of_failure? hconflict)).2 rfl
  refine ⟨m, hm, hconflict, hproduced, fun assignment ha => ?_, hrefused, ?_⟩
  · exact ((hnamed 12 (.inl hroot)).2.2 assignment (hvar.trans_le ha)).2
  · exact ((settled_after hm).refusal (Command.run_of_failure? hrefused)).1 nofun nofun

end Manager

end DecisionDiagram
