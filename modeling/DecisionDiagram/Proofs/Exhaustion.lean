/-
When an operator reports that there is no room.

Making a node reports it, when neither a collection nor a growth step has brought a free slot.  So does
an exchange of two variables, which asks for many slots at once.  An automatic reordering that ends
like this is only noted; but the error stands from then on, and the operator that starts over fails with
it as soon as it has to make a node.

* `Manager.Full` — no slot is free, and the store cannot grow;
* `Build.mk_nodeLimit`, `Program.run_nodeLimit` — a node is refused in a full store only, and no program
  reports the want of room of its own;
* `Manager.Settled.exhaustion` — so an operator call that reports it has filled the store, or an automatic
  reordering within it has run out of room.
-/
import DecisionDiagram.Proofs.Freezing
import DecisionDiagram.Proofs.Operator.Reports

namespace DecisionDiagram

variable {m m' m₁ : Manager} {bound : Nat}

namespace Manager

/-! ### A full store -/

/-- No slot is free, and the store cannot grow. -/
structure Full (m : Manager) : Prop where
  free : m.store.freeCount = 0
  fixed : m.nextCapacity? = none

theorem Full.congr (h : m.Full) (hs : m'.store = m.store) (hc : m'.config = m.config) : m'.Full := by
  refine ⟨hs ▸ h.free, ?_⟩
  rw [nextCapacity?, hs, hc]
  exact h.fixed

theorem store_grow {capacity : Nat} (hcap : m.nextCapacity? = some capacity)
    (h : m.grow = some m') : m'.store = m.store.grow capacity := by
  rw [grow, hcap] at h
  obtain ⟨m₁, hrehash, rfl⟩ := Option.map_eq_some_iff.mp h
  obtain ⟨table, -, rfl⟩ := Option.map_eq_some_iff.mp hrehash
  unfold fitComputed
  dsimp only
  split
  · rfl
  · split <;> rfl

/-- A growth step brings slots, unless the store cannot grow. -/
theorem full_of_grow (hs : m.store.Valid) (h : m.grow = some m') (hfree : m'.store.freeCount = 0) :
    m'.Full := by
  rcases hcap : m.nextCapacity? with _ | capacity
  · rw [grow, hcap] at h
    obtain rfl := Option.some.inj h
    exact ⟨hfree, hcap⟩
  · obtain ⟨hlt, -⟩ := nextCapacity?_spec hs.small hcap
    rw [store_grow hcap h, Store.freeCount_grow hs hlt] at hfree
    omega

end Manager

open Manager

/-! ### Making a node -/

namespace Build

variable {n : Node}

/-- A store without a free slot has to grow, whatever share of it is to be kept free. -/
theorem isTight_of_freeCount (h : m.store.freeCount = 0) : isTight m = true := by
  simp [isTight, h]

theorem createAnew_nodeLimit (hs : m.store.Valid)
    (h : createAnew n m = .error (.error .nodeLimit) m') :
    m.store.freeCount = 0 ∧ m' = { m with error := some .nodeLimit } := by
  unfold createAnew at h
  split at h
  · rename_i hnext
    refine ⟨?_, (EStateM.Result.error.inj h).2.symm⟩
    by_contra hfree
    obtain ⟨id, hid⟩ := hs.slots.next?_isSome (Nat.pos_of_ne_zero hfree)
    rw [hnext] at hid
    cases hid
  · split at h
    · cases h
    · cases (EStateM.Result.error.inj h).1

theorem createInFull_nodeLimit (hm : m.Shared bound)
    (h : createInFull n m = .error (.error .nodeLimit) m') :
    m'.Full ∧ m'.error = some .nodeLimit := by
  obtain ⟨freed, m₁, hcollect, hc⟩ := exists_collect hm.store hm.reduced hm.rootNodes_live
  have hs := hm.collected hc
  simp only [createInFull, hcollect] at h
  split at h
  · cases (EStateM.Result.error.inj h).1
  · split at h
    · obtain ⟨m₂, hgrow, hg⟩ := exists_grow hs
      simp only [hgrow] at h
      obtain ⟨hfree, rfl⟩ := createAnew_nodeLimit hg.store h
      exact ⟨(full_of_grow hs.store hgrow hfree).congr rfl rfl, rfl⟩
    · rename_i htight
      obtain ⟨hfree, -⟩ := createAnew_nodeLimit hs.store h
      exact absurd (isTight_of_freeCount hfree) htight

/-- A node is refused in a full store, or because the error stands already. -/
theorem mk_nodeLimit (hm : m.Coherent bound) {level : Level} {low high : NodeId}
    (h : mk level low high m = .error (.error .nodeLimit) m') :
    m'.error = some .nodeLimit ∧ (m.error = some .nodeLimit ∨ m'.Full) := by
  unfold mk at h
  split at h
  · cases h
  split at h
  · cases (EStateM.Result.error.inj h).1
  · cases h
  split at h
  · rename_i e he
    obtain ⟨hi, rfl⟩ := EStateM.Result.error.inj h
    cases hi
    exact ⟨he, .inl he⟩
  split at h
  · cases h
  · obtain ⟨hfull, herror⟩ := createInFull_nodeLimit hm.shared h
    exact ⟨herror, .inr hfull⟩

end Build

/-! ### Programs -/

namespace Inspects

variable {α β : Type}

theorem levelOf (v : Var) : Inspects (·.levelOf v) := by
  refine ⟨fun _ => rfl, fun {m e} h => ?_⟩
  unfold Manager.levelOf at h
  split at h <;> cases h

theorem descendants (ids : List NodeId) : Inspects (·.descendants ids) := by
  have reachable : Inspects (·.reachable ids) := by
    refine ⟨fun _ => rfl, fun {m e} h => ?_⟩
    unfold Manager.reachable at h
    split at h <;> cases h
  exact reachable.bind fun marks => .ok marks.toList

theorem mapM {f : α → Manager → Except Failure β} (hf : ∀ a, Inspects (f a)) (as : List α) :
    Inspects fun m => as.mapM fun a => f a m := by
  induction as with
  | nil => exact .ok []
  | cons a as ih =>
    refine ((hf a).bind fun b => ih.bind fun bs => .ok (b :: bs)).congr fun m => ?_
    rw [List.mapM_cons]
    rfl

theorem levelsBelow (f : NodeId) : Inspects (·.levelsBelow f) :=
  (descendants [f]).bind <| mapM fun id => (node id).bind fun n => .ok n.level

/-- A reading does not find that there is no room. -/
theorem read_ne_nodeLimit {f : Manager → Except Failure α} (hf : Inspects f) :
    Build.read f m ≠ .error (.error .nodeLimit) m' := by
  intro h
  unfold Build.read at h
  split at h
  · cases h
  · rename_i hx
    cases (EStateM.Result.error.inj h).1
    cases hf.refusal hx

end Inspects

theorem Step.exec_nodeLimit {s : Step} (hs : s.Honest) (hm : m.Coherent bound)
    (h : s.exec m = .error (.error .nodeLimit) m') :
    m'.error = some .nodeLimit ∧ (m.error = some .nodeLimit ∨ m'.Full) := by
  cases s with
  | mk level low high => exact Build.mk_nodeLimit hm h
  | fail e =>
    cases (EStateM.Result.error.inj h).1
    cases hs
  | check f => exact absurd h (Inspects.checkNode f).read_ne_nodeLimit
  | levelOf v => exact absurd h (Inspects.levelOf v).read_ne_nodeLimit
  | levelsBelow f => exact absurd h (Inspects.levelsBelow f).read_ne_nodeLimit
  | pairing number => exact absurd h (Inspects.pairing number).read_ne_nodeLimit
  | node f => exact absurd h (Inspects.node f).read_ne_nodeLimit
  | pop =>
    rcases hp : m.pending with _ | ⟨id, rest⟩
    · cases (Build.pop_eq_fault hp).symm.trans h
    · cases (Build.pop_eq hp).symm.trans h
  | _ => cases h

namespace Program

variable {α : Type} {p : Program α}

theorem At.quiet {s : Step} {rest : s.Answer → Program α} (h : p.At m s rest m') : m.Quiet m' := by
  induction h with
  | one s m => exact .refl m
  | first _ ih => exact ih
  | @second α β p next m m₁ m' a s rest hp _ ih =>
    have hsteady := p.steady m
    rw [hp] at hsteady
    exact hsteady.trans ih

/-- A run that reports the want of room ends in a full store, unless it began with the error. -/
theorem run_nodeLimit {T : Scope → α → Prop} {Q : α → Manager → Prop}
    (h : p.Ensures bound m₁ T m Q) (hp : p.Honest)
    (hrun : p.run m = .error (.error .nodeLimit) m') :
    m'.error = some .nodeLimit ∧ (m.error = some .nodeLimit ∨ m'.Full) := by
  obtain ⟨s, rest, m₂, hat, hexec⟩ := exists_of_run_error hrun
  rw [← hat.quiet.error]
  exact Step.exec_nodeLimit (hp.at hat) (h.at hat).2.1 hexec

end Program

/-! ### Calls -/

namespace Action

/-- An attempt begins without an error, if the call does, unless an automatic reordering has run out of
room before it. -/
theorem Attempts.error {r : Request} {p : Program NodeId} (h : Attempts r m p m')
    (herror : m.error = none) :
    m'.error = none ∨ ∃ operands m₁, r.Pauses m operands m₁ ∧ m₁.Exhausts operands := by
  have barred : ∀ exclusive, (m.barred exclusive).error = none := fun exclusive => by
    cases exclusive <;> exact herror
  cases h with
  | first => exact .inl (barred _)
  | @again operands p exclusive m₁ m₂ hcheck htask hnodes hfirst hreorder =>
    have hreleased := attempt_released operands p (m.barred exclusive)
    rw [hfirst] at hreleased
    have haccounts := Ensures.autoReorder_accounts operands m₁
    rw [Ensures, hreorder] at haccounts
    rcases haccounts.2 with hkept | ⟨-, hexhausts⟩
    · exact .inl (hkept.trans ((hreleased.2.2 Interrupt.noConfusion).trans (barred _)))
    · refine .inr ⟨operands, m₁, ⟨hcheck, htask, ?_, hfirst⟩, hexhausts⟩
      exact (checkNodes_barred m exclusive operands).trans hnodes

end Action

/-- A program is interrupted only when a reordering may start. -/
theorem Request.Pauses.reorderReady {r : Request} {operands : List NodeId} (hm : m.Ready)
    (hr : r.Fulfilled) (h : r.Pauses m operands m₁) : m.reorderReady = true := by
  obtain @⟨p, exclusive, hcheck, htask, hnodes, hfirst⟩ := h
  have hmeets := hr m hm hcheck
  rw [htask] at hmeets
  cases exclusive with
  | false =>
    have ho := checkNodes_ok hm.toSound hnodes
    exact (Action.attempt_error hm ho (hmeets ho m (.refl hm _) nofun) hfirst).2.2 rfl
  | true => exact absurd hfirst (attempt_ne_reorder operands p (AutoReorder.isArmed_disable m.auto))

namespace Command

variable {c : Command} {r : Request}

/-- An operator that reports the want of room has come to it in an attempt at its program. -/
theorem breaksOff_of_nodeLimit (hr : c.request? = some r)
    (he : (c.run m).1 = .error (.error .nodeLimit)) :
    ∃ operands p exclusive, r.task = .perform operands p exclusive ∧
      Action.BreaksOff r m p .nodeLimit (c.run m).2 :=
  (of_call_error hr (Action.Ensures.call_cases (inspects hr)) he).resolve_left nofun

end Command

namespace Manager

/-- The want of room is real, or due to a reordering.  An operator call that begins without an error and
reports that there is no room leaves a store without a free slot, which cannot grow; or it was interrupted
for an automatic reordering, and that ran out of room.  The error stands in either case.  The former is
the only case if no automatic reordering may start. -/
theorem Settled.exhaustion (hm : m.Settled) (herror : m.error = none) {c : Command} {r : Request}
    (hr : c.request? = some r) (he : (c.run m).1 = .error (.error .nodeLimit)) :
    (c.run m).2.error = some .nodeLimit ∧
    ((c.run m).2.Full ∨ ∃ operands m₁, r.Pauses m operands m₁ ∧ m₁.Exhausts operands) ∧
    (m.reorderReady = false → (c.run m).2.Full) := by
  have hready := hm.ready
  have hends : (c.run m).2.error = some .nodeLimit ∧
      ((c.run m).2.Full ∨ ∃ operands m₁, r.Pauses m operands m₁ ∧ m₁.Exhausts operands) := by
    obtain ⟨operands, p, exclusive, htask, hattempt, hrun, hleft⟩ :=
      Command.breaksOff_of_nodeLimit hr he
    have hhonest : p.Honest := by
      have hhonest := Command.honest hr
      rwa [Request.Honest, htask] at hhonest
    have hensures := (hattempt.ensures hready (Command.fulfilled hr m hready)).2
    obtain ⟨hlimit, hfull⟩ := Program.run_nodeLimit hensures hhonest hrun
    rw [hleft]
    refine ⟨hlimit, ?_⟩
    rcases hattempt.error herror with hnone | hpauses
    · rw [hnone] at hfull
      exact .inl ((hfull.resolve_left nofun).congr rfl rfl)
    · exact .inr hpauses
  refine ⟨hends.1, hends.2, fun hnot => hends.2.resolve_right ?_⟩
  rintro ⟨operands, m₁, hpauses, -⟩
  cases hnot.symm.trans (hpauses.reorderReady hready (Command.fulfilled hr))

/-- The conjunction fills the store, which may not have more than seven slots. -/
theorem exhaustion_conjunction :
    ∃ m, after (.small 7 7) [.setVarNum 2, .apply .and 2 4, .protect 6] = some m ∧
      m.error = none ∧ m.reorderReady = false ∧
      ((Command.apply .xor 6 2).run m).1 = .error (.error .nodeLimit) ∧
      ((Command.apply .xor 6 2).run m).2.Full := by
  have hrun : (after (.small 7 7) [.setVarNum 2, .apply .and 2 4, .protect 6]).any fun m =>
      m.error == none && m.reorderReady == false &&
        (Command.apply .xor 6 2).failure? m == some (.error .nodeLimit) := by
    decide +kernel
  obtain ⟨m, hm, hfacts⟩ := (Option.any_eq_true _ _).mp hrun
  simp only [Bool.and_eq_true, beq_iff_eq] at hfacts
  obtain ⟨⟨herror, hready⟩, hfails⟩ := hfacts
  have hfails := Command.run_of_failure? hfails
  exact ⟨m, hm, herror, hready, hfails,
    ((settled_after hm).exhaustion herror (c := .apply .xor 6 2) rfl hfails).2.2 hready⟩

/-- The exchange of the two variables asks for more slots than the store may have.  The exclusive
disjunction would need one, and one is free. -/
theorem exhaustion_session :
    ∃ m, after (.small 7 8) [.setVarNum 2, .setAutoReorder .win2 none, .apply .and 2 4] = some m ∧
      m.error = none ∧ ((Command.apply .xor 6 2).run m).1 = .error (.error .nodeLimit) ∧
      ((Command.apply .xor 6 2).run m).2.store.freeCount = 1 ∧
      ∃ operands m₁, (Request.apply .xor 6 2).Pauses m operands m₁ ∧ m₁.Exhausts operands := by
  have hrun : (after (.small 7 8) [.setVarNum 2, .setAutoReorder .win2 none, .apply .and 2 4]).any
      fun m => m.error == none && (Command.apply .xor 6 2).failure? m == some (.error .nodeLimit) &&
        ((Command.apply .xor 6 2).run m).2.store.freeCount == 1 := by
    decide +kernel
  obtain ⟨m, hm, hfacts⟩ := (Option.any_eq_true _ _).mp hrun
  simp only [Bool.and_eq_true, beq_iff_eq] at hfacts
  obtain ⟨⟨herror, hfails⟩, hfree⟩ := hfacts
  have hfails := Command.run_of_failure? hfails
  obtain ⟨-, hends, -⟩ :=
    (settled_after hm).exhaustion herror (c := .apply .xor 6 2) (r := .apply .xor 6 2) rfl hfails
  refine ⟨m, hm, herror, hfails, hfree, hends.resolve_left fun hfull => ?_⟩
  rw [hfull.free] at hfree
  cases hfree

end Manager

end DecisionDiagram
