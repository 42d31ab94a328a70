/-
No node comes into being while an error stands.

Making a node first looks for one with the record, and an error that stands keeps it from going on:
nothing is collected, grown or reordered.  So a program that runs while an error stands either fails with
this error, or every node that it makes is there already, and then it does what it would do without the
error.

* `Manager.Browsed` — the computed tables and the pending nodes may differ, and nothing else;
* `Build.Frozen` — the specification of a piece of work while an error stands, and `Program.frozen`, that
  every program meets it;
* `Inspects` — the checks of arguments, which do not look at the error;
* `Command.run_frozen` — every operator call, with what its outcome is without the error;
* `Command.operator_errors` — the errors of operators;
* `Manager.Settled.frozen_operator` — an operator call while the want of room stands.
-/
import DecisionDiagram.Proofs.Meaning
import DecisionDiagram.Proofs.Refusal
import DecisionDiagram.Proofs.Totality

namespace DecisionDiagram

open Manager

variable {α β : Type} {m m' m'' : Manager} {e : Error}

/-! ### Steps -/

namespace Manager

/-- The managers differ in the computed tables and the pending nodes at most. -/
def Browsed (m m' : Manager) : Prop := ∃ computed pending, m' = { m with computed, pending }

/-- The manager after `clearError`. -/
def cleared (m : Manager) : Manager := { m with error := none }

theorem Browsed.refl (m : Manager) : m.Browsed m := ⟨m.computed, m.pending, rfl⟩

theorem Browsed.trans (h : m.Browsed m') (h' : m'.Browsed m'') : m.Browsed m'' := by
  obtain ⟨_, _, rfl⟩ := h
  obtain ⟨computed, pending, rfl⟩ := h'
  exact ⟨computed, pending, rfl⟩

theorem Browsed.error (h : m.Browsed m') : m'.error = m.error := by
  obtain ⟨_, _, rfl⟩ := h
  rfl

end Manager

namespace Build

/-- While an error stands, the work fails with it or ends as it would without it.  Either way it has not
touched but the computed tables and the pending nodes, and it is not interrupted for a reordering. -/
def Frozen (x : Build α) : Prop := ∀ (m : Manager) (e : Error), m.error = some e →
  match x m with
  | .ok a m' => m.Browsed m' ∧ x m.cleared = .ok a m'.cleared
  | .error i m' =>
    m.Browsed m' ∧ i ≠ .reorder ∧ (i = .error e ∨ x m.cleared = .error i m'.cleared)

theorem Frozen.pure (a : α) : Frozen (Pure.pure a : Build α) := fun m _ _ => ⟨.refl m, rfl⟩

theorem Frozen.throw {i : Interrupt} (hi : i ≠ .reorder) : Frozen (throw i : Build α) :=
  fun m _ _ => ⟨.refl m, hi, .inr rfl⟩

theorem Frozen.read {f : Manager → Except Failure α} (hf : ∀ m : Manager, f m.cleared = f m) :
    Frozen (Build.read f) := by
  intro m e _
  rcases hx : f m with failure | a
  · simp only [Build.read, hf, hx]
    exact ⟨.refl m, by simp, .inr trivial⟩
  · simp only [Build.read, hf, hx]
    exact ⟨.refl m, trivial⟩

theorem Frozen.bind {x : Build α} {f : α → Build β} (hx : Frozen x) (hf : ∀ a, Frozen (f a)) :
    Frozen (x >>= f) := by
  intro m e he
  have hx := hx m e he
  rcases hm : x m with ⟨a, m₁⟩ | ⟨i, m₁⟩
  · rw [hm] at hx
    obtain ⟨hbrowsed, hclear⟩ := hx
    have hf := hf a m₁ e (hbrowsed.error.trans he)
    rw [bind_ok hm, bind_ok hclear]
    rcases hm₁ : f a m₁ with ⟨b, m₂⟩ | ⟨i, m₂⟩
    · rw [hm₁] at hf
      exact ⟨hbrowsed.trans hf.1, hf.2⟩
    · rw [hm₁] at hf
      exact ⟨hbrowsed.trans hf.1, hf.2⟩
  · rw [hm] at hx
    rw [bind_error hm]
    exact ⟨hx.1, hx.2.1, hx.2.2.imp_right bind_error⟩

theorem Frozen.pop : Frozen pop := by
  intro m e _
  rcases hp : m.pending with _ | ⟨id, rest⟩
  · rw [pop_eq_fault hp, pop_eq_fault (m := m.cleared) hp]
    exact ⟨.refl m, nofun, .inr rfl⟩
  · rw [pop_eq hp, pop_eq (m := m.cleared) hp]
    exact ⟨⟨m.computed, rest, rfl⟩, rfl⟩

/-- The error comes before all that could change the nodes, but after the search for the record. -/
theorem Frozen.mk (level : Level) (low high : NodeId) : Frozen (Build.mk level low high) := by
  intro m e he
  unfold Build.mk
  by_cases heq : low = high
  · rw [if_pos heq]
    exact ⟨.refl m, if_pos heq⟩
  · simp only [if_neg heq]
    have htable : m.cleared.table.find m.cleared.store.nodes ⟨level, low, high⟩ =
        m.table.find m.store.nodes ⟨level, low, high⟩ := rfl
    rcases hfind : m.table.find m.store.nodes ⟨level, low, high⟩ with _ | _ | slot
    · simp only [htable, hfind]
      exact ⟨.refl m, nofun, .inr trivial⟩
    · simp only [htable, hfind]
      exact ⟨.refl m, trivial⟩
    · -- There is no such node, and without the error one would be made here.
      simp only [he]
      exact ⟨.refl m, nofun, .inl trivial⟩

end Build

theorem Step.frozen (s : Step) : Build.Frozen s.exec := by
  cases s with
  | fault => exact .throw nofun
  | fail => exact .throw nofun
  | lookup q => exact fun m _ _ => ⟨⟨_, m.pending, rfl⟩, rfl⟩
  | remember => exact fun m _ _ => ⟨⟨_, m.pending, rfl⟩, rfl⟩
  | lookupCount => exact fun m _ _ => ⟨⟨_, m.pending, rfl⟩, rfl⟩
  | rememberCount => exact fun m _ _ => ⟨⟨_, m.pending, rfl⟩, rfl⟩
  | push => exact fun m _ _ => ⟨⟨m.computed, _, rfl⟩, rfl⟩
  | pop => exact .pop
  | keepOnly => exact fun m _ _ => ⟨⟨m.computed, _, rfl⟩, rfl⟩
  | mk level low high => exact .mk level low high
  | depth => exact .read (f := fun m => .ok m.depth) fun _ => rfl
  | varNum => exact .read (f := fun m => .ok m.varNum) fun _ => rfl
  | check => exact .read fun _ => rfl
  | levelOf => exact .read fun _ => rfl
  | levelsBelow => exact .read fun _ => rfl
  | pairing => exact .read fun _ => rfl
  | node => exact .read fun _ => rfl

theorem Program.frozen (p : Program α) : Build.Frozen p.run := by
  induction p with
  | done a => exact .pure a
  | one s => exact s.frozen
  | bind p next ihp ihn =>
    have hbind := Build.Frozen.bind ihp ihn
    rwa [← funext fun m => Program.run_bind (m := m) p next] at hbind

/-! ### Arguments -/

/-- The error says that an argument is wrong. -/
def Error.isRefusal : Error → Bool
  | unknownVariable _ => true
  | illegalNode _ => true
  | illegalVarSet _ => true
  | _ => false

/-- The check does not look at the error that stands, and what it reports is that an argument is wrong. -/
structure Inspects (f : Manager → Except Failure α) : Prop where
  cleared : ∀ m : Manager, f m.cleared = f m
  refusal : ∀ {m : Manager} {e : Error}, f m = .error (.error e) → e.isRefusal = true

namespace Inspects

theorem ok (a : α) : Inspects fun _ => .ok a := ⟨fun _ => rfl, nofun⟩

theorem error {e : Error} (he : e.isRefusal = true) :
    Inspects fun _ => (.error (.error e) : Except Failure α) :=
  ⟨fun _ => rfl, fun h => by cases h; exact he⟩

theorem bind {f : Manager → Except Failure α} {k : α → Manager → Except Failure β}
    (hf : Inspects f) (hk : ∀ a, Inspects (k a)) : Inspects fun m => f m >>= fun a => k a m := by
  refine ⟨fun m => ?_, fun {m e} h => ?_⟩
  · show f m.cleared >>= _ = _
    rw [hf.cleared]
    exact bind_congr fun a => (hk a).cleared m
  · rcases hx : f m with failure | a
    · rw [hx] at h
      cases h
      exact hf.refusal hx
    · rw [hx] at h
      exact (hk a).refusal h

theorem congr {f g : Manager → Except Failure α} (hf : Inspects f) (h : ∀ m, g m = f m) :
    Inspects g := funext h ▸ hf

theorem checkVar (v : Var) : Inspects (·.checkVar v) := by
  refine ⟨fun _ => rfl, fun {m e} h => ?_⟩
  unfold Manager.checkVar at h
  split at h <;> cases h
  rfl

theorem checkNode (f : NodeId) : Inspects (·.checkNode f) := by
  refine ⟨fun _ => rfl, fun {m e} h => ?_⟩
  unfold Manager.checkNode at h
  split at h <;> cases h
  rfl

theorem node (f : NodeId) : Inspects (·.node f) := by
  refine ⟨fun _ => rfl, fun {m e} h => ?_⟩
  unfold Manager.node at h
  split at h <;> cases h

theorem pairing (number : Nat) : Inspects (·.pairing number) := by
  refine ⟨fun _ => rfl, fun {m e} h => ?_⟩
  unfold Manager.pairing at h
  split at h <;> cases h

theorem checkVars (vars : List Var) : Inspects (·.checkVars vars) := by
  induction vars with
  | nil => exact .ok ()
  | cons v vars ih =>
    refine ((checkVar v).bind fun _ => ih).congr fun m => ?_
    rw [Manager.checkVars]
    cases m.checkVar v <;> rfl

theorem checkNodes (ids : List NodeId) : Inspects (·.checkNodes ids) := by
  induction ids with
  | nil => exact .ok ()
  | cons id ids ih =>
    refine ((checkNode id).bind fun _ => ih).congr fun m => ?_
    rw [Manager.checkNodes]
    cases m.checkNode id <;> rfl

theorem checkChild (level : Level) (f : NodeId) : Inspects (·.checkChild level f) := by
  refine (checkNode f).bind fun _ => (node f).bind fun n => ?_
  split
  · exact .error rfl
  · exact .ok ()

end Inspects

/-- The check of the arguments of an operator. -/
theorem Command.inspects {c : Command} {r : Request} (h : c.request? = some r) : Inspects r.check := by
  cases c <;> cases h
  case makeNode level low high =>
    refine ⟨fun _ => rfl, fun h => ?_⟩
    unfold Request.makeNode at h
    dsimp only at h
    split at h
    · cases h
      rfl
    · exact ((Inspects.checkChild level low).bind fun _ => .checkChild level high).refusal h
  case makeSet vars => exact .checkVars vars
  case compose f g v => exact .checkVar v
  case vecCompose f number | replace f number =>
    exact (Inspects.checkNode f).bind fun _ => (Inspects.pairing number).bind fun _ => .ok ()
  case quantify q f cube =>
    unfold Request.quantify
    split
    · exact .checkNode f
    · exact .ok ()
  case appQuantify q op f g cube =>
    unfold Request.appQuantify
    split <;> exact .ok ()
  case restrict f cube =>
    unfold Request.restrict
    split
    · exact .checkNode f
    · exact .ok ()
  case satOne f =>
    unfold Request.satOne
    split <;> exact .ok ()
  case satOneSet f cube polarity =>
    have check : Inspects (fun m => do
        m.checkNode cube
        if cube.isBot then throw (Failure.error (.illegalVarSet cube))) :=
      (Inspects.checkNode cube).bind fun _ => by
        split
        · exact .error rfl
        · exact .ok ()
    unfold Request.satOneSet
    dsimp only
    split <;> exact check
  case fullSatOne f =>
    unfold Request.fullSatOne
    split
    · exact .checkNode f
    · exact .ok ()
  all_goals exact .ok ()

/-! ### Calls -/

namespace Action

/-- While the error `e` stands in `m`, the call fails with it or ends as it would without it.  Either way
it has not touched but the computed tables. -/
def Frozen (m : Manager) (e : Error) (x : Action α) : Prop :=
  match x m with
  | .ok a m' => m.Recomputed m' ∧ x m.cleared = .ok a m'.cleared
  | .error failure m' =>
    m.Recomputed m' ∧ (failure = .error e ∨ x m.cleared = .error failure m'.cleared)

theorem Frozen.pure (a : α) : Frozen m e (Pure.pure a : Action α) := ⟨.refl m, rfl⟩

theorem Frozen.bind {x : Action α} {f : α → Action β} (hx : Frozen m e x)
    (hf : ∀ a m', x m = .ok a m' → Frozen m' e (f a)) : Frozen m e (x >>= f) := by
  unfold Frozen at hx ⊢
  rcases hm : x m with ⟨a, m₁⟩ | ⟨failure, m₁⟩
  · rw [hm] at hx
    obtain ⟨hrecomputed, hclear⟩ := hx
    have hf := hf a m₁ hm
    unfold Frozen at hf
    rw [bind_ok hm, bind_ok hclear]
    rcases hm₁ : f a m₁ with ⟨b, m₂⟩ | ⟨failure, m₂⟩
    · rw [hm₁] at hf
      exact ⟨hrecomputed.trans hf.1, hf.2⟩
    · rw [hm₁] at hf
      exact ⟨hrecomputed.trans hf.1, hf.2⟩
  · rw [hm] at hx
    rw [bind_error hm]
    exact ⟨hx.1, hx.2.imp_right bind_error⟩

theorem Frozen.read {f : Manager → Except Failure α} {k : α → Action β} (hf : f m.cleared = f m)
    (h : ∀ a, f m = .ok a → Frozen m e (k a)) : Frozen m e (Action.read f >>= k) := by
  have hread : Frozen m e (Action.read f) := by
    unfold Frozen Action.read
    rw [hf]
    rcases f m with failure | a
    · exact ⟨.refl m, .inr rfl⟩
    · exact ⟨.refl m, rfl⟩
  refine hread.bind fun a m' ha => ?_
  obtain ⟨rfl, ha⟩ := of_read_eq_ok ha
  exact h a ha

theorem Frozen.withoutReorder {x : Action α} (h : Frozen { m with auto := m.auto.disable } e x) :
    Frozen m e (Action.withoutReorder x) := by
  have henable : ∀ {m'}, Recomputed { m with auto := m.auto.disable } m' →
      m.Recomputed { m' with auto := m'.auto.enable } := by
    rintro _ ⟨computed, rfl⟩
    exact ⟨computed, by rw [AutoReorder.enable_disable]⟩
  unfold Frozen Action.withoutReorder
  unfold Frozen at h
  rcases hx : x { m with auto := m.auto.disable } with ⟨a, m'⟩ | ⟨failure, m'⟩
  · rw [hx] at h
    have hclear : x { m.cleared with auto := m.cleared.auto.disable } = .ok a m'.cleared := h.2
    simp only [hclear]
    exact ⟨henable h.1, rfl⟩
  · rw [hx] at h
    refine ⟨henable h.1, h.2.imp_right fun hclear => ?_⟩
    have hclear : x { m.cleared with auto := m.cleared.auto.disable } = .error failure m'.cleared :=
      hclear
    simp only [hclear]
    rfl

end Action

namespace Manager

variable {operands : List NodeId} {p : Program NodeId} {r : Request}

/-- An attempt lets go of all that it kept. -/
theorem attempt_frozen (operands : List NodeId) (p : Program NodeId) (hm : m.Idle)
    (he : m.error = some e) :
    match attempt operands p m with
    | .ok res m' => m.Recomputed m' ∧ attempt operands p m.cleared = .ok res m'.cleared
    | .error i m' => m.Recomputed m' ∧ i ≠ .reorder ∧
        (i = .error e ∨ attempt operands p m.cleared = .error i m'.cleared) := by
  have hunequip : ∀ {m'}, (m.equip operands).Browsed m' → m.Recomputed m'.unequip := by
    rintro _ ⟨computed, pending, rfl⟩
    -- Nothing was kept before, so nothing is missed.
    refine ⟨computed, ?_⟩
    show { m with computed, pending := [], operands := [] } = { m with computed }
    rw [hm.1, hm.2]
  have hrun := p.frozen (m.equip operands) e he
  unfold attempt
  rcases hx : p.run (m.equip operands) with ⟨res, m'⟩ | ⟨i, m'⟩
  · rw [hx] at hrun
    have hclear : p.run (m.cleared.equip operands) = .ok res m'.cleared := hrun.2
    simp only [hclear]
    exact ⟨hunequip hrun.1, rfl⟩
  · rw [hx] at hrun
    refine ⟨hunequip hrun.1, hrun.2.1, hrun.2.2.imp_right fun hclear => ?_⟩
    have hclear : p.run (m.cleared.equip operands) = .error i m'.cleared := hclear
    simp only [hclear]
    rfl

/-- No program is interrupted, so none starts over. -/
theorem perform_frozen (hm : m.Idle) (he : m.error = some e) :
    Action.Frozen m e (perform operands p) := by
  refine .read ((Inspects.checkNodes operands).cleared m) fun _ _ => ?_
  have hattempt := attempt_frozen operands p hm he
  unfold Action.Frozen
  rcases hx : attempt operands p m with ⟨res, m'⟩ | ⟨_ | failure, m'⟩
  · rw [hx] at hattempt
    simp only [hx, hattempt.2]
    exact ⟨hattempt.1, trivial⟩
  · rw [hx] at hattempt
    exact absurd rfl hattempt.2.1
  · rw [hx] at hattempt
    simp only [hx]
    refine ⟨hattempt.1, hattempt.2.2.imp (fun h => Interrupt.failure.inj h) fun hclear => ?_⟩
    simp only [hclear]

theorem call_frozen (hm : m.Idle) (he : m.error = some e) (hcheck : Inspects r.check) :
    Action.Frozen m e (call r) := by
  refine .read (hcheck.cleared m) fun _ _ => ?_
  rcases r.task with f | ⟨operands, p, exclusive⟩
  · exact ⟨.refl m, rfl⟩
  · cases exclusive
    · exact perform_frozen hm he
    · exact .withoutReorder (perform_frozen hm he)

/-- No attempt at the program is interrupted. -/
theorem not_pauses (hm : m.Idle) (he : m.error = some e) {m₁ : Manager} : ¬ r.Pauses m operands m₁ := by
  rintro @⟨p, exclusive, -, -, -, hfirst⟩
  have hbarred : (m.barred exclusive).Idle ∧ (m.barred exclusive).error = some e := by
    cases exclusive <;> exact ⟨hm, he⟩
  have hattempt := attempt_frozen operands p hbarred.1 hbarred.2
  rw [hfirst] at hattempt
  exact hattempt.2.1 rfl

end Manager

/-! ### Errors of calls -/

namespace Action

/-- An operator fails because an argument is wrong, or where its program breaks off. -/
theorem Ensures.call_cases {r : Request} (hcheck : Inspects r.check) :
    Ensures m (Manager.call r) (fun _ _ => True) fun e m' =>
      e.isRefusal = true ∨ ∃ operands p exclusive, r.task = .perform operands p exclusive ∧
        BreaksOff r m p e m' := by
  rcases htask : r.task with f | ⟨operands, p, exclusive⟩
  · refine .inspect (fun _ he => .inl (hcheck.refusal he)) fun _ _ => ?_
    rw [htask]
    trivial
  by_cases haccepts : r.check m = .ok () ∧ m.checkNodes operands = .ok ()
  · exact (Ensures.call_error haccepts.1 htask haccepts.2).mono (fun _ _ h => h) fun _ _ h =>
      .inr ⟨operands, p, exclusive, rfl, h⟩
  · -- The check of the operands is what fails.
    refine .inspect (fun _ he => .inl (hcheck.refusal he)) fun _ hok => ?_
    have hperform : Ensures (m.barred exclusive) (Manager.perform operands p) (fun _ _ => True)
        fun e _ => e.isRefusal = true :=
      .inspect (fun _ he => (Inspects.checkNodes operands).refusal he) fun _ hnodes =>
        absurd ⟨hok, (checkNodes_barred m exclusive operands).symm.trans hnodes⟩ haccepts
    rw [htask]
    cases exclusive
    · exact hperform.mono (fun _ _ h => h) fun _ _ => .inl
    · exact .withoutReorder hperform (fun _ _ h => h) fun _ _ => .inl

theorem Ensures.call_errors (hm : m.Ready) {r : Request} (hr : r.Fulfilled)
    (hcheck : Inspects r.check) :
    Ensures m (Manager.call r) (fun _ _ => True) fun e _ =>
      e.isRefusal = true ∨ (Interrupt.error e).Regular := by
  refine (Ensures.call_cases hcheck).mono (fun _ _ h => h) fun e m' => .imp_right ?_
  rintro ⟨operands, p, exclusive, -, hattempt, hrun, -⟩
  have hensures := Program.Ensures.run (hattempt.ensures hm (hr m hm)).2
  rw [Build.Ensures, hrun] at hensures
  exact hensures.1

end Action

namespace Command

variable {c : Command} {r : Request}

theorem operator_errors (hm : m.Ready) (hr : c.request? = some r)
    (he : (c.run m).1 = .error (.error e)) :
    e.isRefusal = true ∨ e = .nodeLimit ∨ e = .replaceConflict := by
  have hkind := of_call_error hr (Action.Ensures.call_errors hm (fulfilled hr) (inspects hr)) he
  refine hkind.imp_right fun hregular => ?_
  cases hregular
  · exact .inl rfl
  · exact .inr rfl

/-- While an error stands, an operator fails with it or does what it would do without it, and leaves the
nodes as they are. -/
theorem run_frozen (hm : m.Idle) (he : m.error = some e) (hr : c.request? = some r) :
    m.Recomputed (c.run m).2 ∧
      ((c.run m).1 = .error (.error e) ∨ c.run m.cleared = ((c.run m).1, (c.run m).2.cleared)) := by
  have hfrozen : Action.Frozen m e c.perform := by
    rw [perform_of_request hr]
    exact (call_frozen hm he (inspects hr)).bind fun _ _ _ => .pure _
  unfold Action.Frozen at hfrozen
  unfold run
  rcases hx : c.perform m with ⟨answer, m'⟩ | ⟨failure, m'⟩
  · rw [hx] at hfrozen
    simp only [hfrozen.2]
    exact ⟨hfrozen.1, .inr trivial⟩
  · rw [hx] at hfrozen
    refine ⟨hfrozen.1, hfrozen.2.imp (fun h => ?_) fun h => ?_⟩
    · rw [h]
    · simp only [h]

/-- What the right answer is does not depend on the computed tables, on what is kept or on the automatic
reordering. -/
theorem Tells.aside {t : Tree} (h : c.Tells m t) (computed : ComputedTable)
    (pending operands : List NodeId) (auto : AutoReorder) :
    c.Tells { m with computed, pending, operands, auto } t := by
  cases c <;> exact h

end Command

/-! ### Answers -/

namespace Manager

/-- While the want of room stands, an operator changes nothing but the computed tables: no node, slot or
entry of the table, no count and no setting.  No attempt at its program is interrupted for a reordering.
Its answer is a node that there was before, and the right one; it is what the call answers once the error
is cleared.  A failure that is not for want of room is what happens without the error, too, and says that an
argument is wrong or that a renaming would break the order. -/
theorem Settled.frozen_operator (hm : m.Settled) (herror : m.error = some .nodeLimit) {c : Command}
    {r : Request} (hr : c.request? = some r) (hc : c.Issued m) :
    (∃ computed, (c.run m).2 = { m with computed }) ∧
    (∀ operands m₁, ¬ r.Pauses m operands m₁) ∧
    ((c.run m).1 = .error (.error .nodeLimit) ∨
      c.run m.cleared = ((c.run m).1, (c.run m).2.cleared)) ∧
    ((∃ res, (c.run m).1 = .ok (.node res) ∧ m.store.isLive res = true ∧
        c.Tells m (m.diagram.tree res)) ∨
      ∃ e, (c.run m).1 = .error (.error e) ∧
        (e.isRefusal = true ∨ e = .nodeLimit ∨ e = .replaceConflict)) := by
  have hready := hm.ready
  have hidle := hm.reachable.idle
  obtain ⟨⟨computed, hrecomputed⟩, hclear⟩ := Command.run_frozen hidle herror hr
  refine ⟨⟨computed, hrecomputed⟩, fun _ _ => not_pauses hidle herror, hclear, ?_⟩
  rcases hrun : (c.run m).1 with (e | _) | answer
  · exact .inr ⟨e, rfl, Command.operator_errors hready hr hrun⟩
  · exact absurd hrun (Command.run_ne_fault hready hm.reachable.nested hc)
  · obtain ⟨res, rfl, -, -, hlive, htells⟩ := Command.answered hready hr
      (Q := fun res m' => c.Tells m' (m'.diagram.tree res)) (fun h _ _ _ => h.aside _ _ _ _)
      (Command.delivers hr m hready) (Prod.ext hrun hrecomputed)
    exact .inl ⟨res, rfl, hready.store.live_iff.mp hlive, htells.aside m.computed [] [] m.auto⟩

/-- The node 6 has been released.  The failing disjunction does not collect it, as it does once the error is
cleared. -/
theorem frozen_released :
    ∃ m, after (.small 8 8) [.setVarNum 2, .apply .and 2 4, .protect 6, .apply .xor 2 4, .protect 7,
        .apply .imp 2 4, .release 6] = some m ∧
      m.error = some .nodeLimit ∧
      (∃ computed, ((Command.ite 2 5 4).run m).2 = { m with computed }) ∧
      ((Command.ite 2 5 4).run m).1 = .ok (.node 7) ∧ m.store.isLive 7 = true ∧
      m.diagram.tree 7 = .ite (m.diagram.tree 2) (m.diagram.tree 5) (m.diagram.tree 4) ∧
      (∃ computed, ((Command.apply .or 2 4).run m).2 = { m with computed }) ∧
      ((Command.apply .or 2 4).run m).1 = .error (.error .nodeLimit) ∧
      ((Command.apply .or 2 4).run m.cleared).1 = .ok (.node 6) := by
  have hrun : (after (.small 8 8) [.setVarNum 2, .apply .and 2 4, .protect 6, .apply .xor 2 4,
      .protect 7, .apply .imp 2 4, .release 6]).any fun m =>
        m.error == some .nodeLimit &&
        (Command.ite 2 5 4).node? m == some 7 &&
        (Command.apply .or 2 4).failure? m == some (.error .nodeLimit) &&
        (Command.apply .or 2 4).node? m.cleared == some 6 := by
    decide +kernel
  obtain ⟨m, hm, hfacts⟩ := (Option.any_eq_true _ _).mp hrun
  simp only [Bool.and_eq_true, beq_iff_eq] at hfacts
  obtain ⟨⟨⟨herror, hite⟩, hor⟩, hclear⟩ := hfacts
  have hsettled := settled_after hm
  obtain ⟨hleft, -, -, hanswer⟩ :=
    hsettled.frozen_operator herror (c := .ite 2 5 4) rfl ⟨nofun, nofun⟩
  obtain ⟨hleft', -, -, -⟩ :=
    hsettled.frozen_operator herror (c := .apply .or 2 4) rfl ⟨nofun, nofun⟩
  have hite := Command.run_of_node? hite
  obtain ⟨res, hres, hlive, htells⟩ | ⟨e, he, -⟩ := hanswer
  · obtain rfl : res = 7 := Answer.node.inj (Except.ok.inj (hres.symm.trans hite))
    exact ⟨m, hm, herror, hleft, hite, hlive, htells, hleft', Command.run_of_failure? hor,
      Command.run_of_node? hclear⟩
  · rw [hite] at he
    cases he

end Manager

end DecisionDiagram
