/-
What a call leaves as it is, whatever happens in it.

Nothing here depends on the manager being sound.

* `Build.Steady` — no step of an operator touches the automatic reordering or the blocks; a step is
  interrupted only when the automatic reordering is armed, and the error that stands is the same unless
  the step fails for want of room;
* `Action.Within` — what a call does, for each of its outcomes but a fault;
* `Manager.Accounts` — the account that an operator call leaves: at most one session, taken off the
  number of times;
* `Command.restful` — no session starts by itself in any other call, and the blocks stay as they are
  unless the call is about them (`Command.regroups_run`);
* `Manager.Reachable.idle`, `.nested` — so between two calls, nothing is pending and the blocks are
  nested.
-/
import DecisionDiagram.Proofs.Blocks
import DecisionDiagram.Proofs.Commands

namespace DecisionDiagram

variable {α β : Type} {m m' m'' : Manager}

/-! ### Steps of operators -/

namespace Manager

/-- What no step of an operator touches. -/
structure Steady (m m' : Manager) : Prop where
  auto : m'.auto = m.auto
  operands : m'.operands = m.operands
  reorders : m'.counters.reorders = m.counters.reorders
  forest : m'.forest = m.forest
  roots : m'.roots = m.roots
  updates : m'.pairings.updates = m.pairings.updates
  bits : m.computed.bits ≤ Config.maxCacheBits → m'.computed.bits ≤ Config.maxCacheBits

theorem Steady.refl (m : Manager) : m.Steady m := ⟨rfl, rfl, rfl, rfl, rfl, rfl, fun h => h⟩

theorem Steady.trans (h : m.Steady m') (h' : m'.Steady m'') : m.Steady m'' :=
  ⟨h'.auto.trans h.auto, h'.operands.trans h.operands, h'.reorders.trans h.reorders,
    h'.forest.trans h.forest, h'.roots.trans h.roots, h'.updates.trans h.updates,
    fun hm => h'.bits (h.bits hm)⟩

/-- The same for a step that does not fail. -/
structure Quiet (m m' : Manager) : Prop extends Steady m m' where
  error : m'.error = m.error

theorem Quiet.refl (m : Manager) : m.Quiet m := ⟨.refl m, rfl⟩

theorem Quiet.trans (h : m.Quiet m') (h' : m'.Quiet m'') : m.Quiet m'' :=
  ⟨h.toSteady.trans h'.toSteady, h'.error.trans h.error⟩

theorem Quiet.refreshComputed (m : Manager) : m.Quiet m.refreshComputed := by
  unfold Manager.refreshComputed
  split <;> exact ⟨⟨rfl, rfl, rfl, rfl, rfl, rfl, fun h => h⟩, rfl⟩

theorem Quiet.fitComputed (m : Manager) : m.Quiet m.fitComputed := by
  unfold Manager.fitComputed
  dsimp only
  split
  · exact .refl m
  · split
    · exact .refl m
    · exact ⟨⟨rfl, rfl, rfl, rfl, rfl, rfl, fun _ => Nat.min_le_right _ _⟩, rfl⟩

theorem Quiet.collect {freed : Nat} (h : m.collect = some (freed, m')) : m.Quiet m' := by
  unfold Manager.collect at h
  split at h
  · cases h
  · dsimp only at h
    split at h
    · cases h
    · obtain ⟨-, rfl⟩ := Prod.mk.inj (Option.some.inj h)
      obtain ⟨⟨hauto, hoperands, hreorders, hforest, hroots, hupdates, hbits⟩, herror⟩ :=
        Quiet.refreshComputed { m with store := _, table := _ }
      exact ⟨⟨hauto, hoperands, hreorders, hforest, hroots, hupdates, hbits⟩, herror⟩

theorem Quiet.grow (h : m.grow = some m') : m.Quiet m' := by
  unfold Manager.grow at h
  split at h
  · obtain rfl := Option.some.inj h
    exact .refl m
  · obtain ⟨m₁, hm₁, rfl⟩ := Option.map_eq_some_iff.mp h
    obtain ⟨table, -, rfl⟩ := Option.map_eq_some_iff.mp hm₁
    obtain ⟨⟨hauto, hoperands, hreorders, hforest, hroots, hupdates, hbits⟩, herror⟩ :=
      Quiet.fitComputed { m with store := _, table, counters := _ }
    exact ⟨⟨hauto, hoperands, hreorders, hforest, hroots, hupdates, hbits⟩, herror⟩

end Manager

namespace Build

open Manager

/-- However the work ends, it has left the automatic reordering alone.  It is interrupted only if that
is armed, and it touches the error that stands only if it fails for want of room. -/
def Steady (x : Build α) : Prop := ∀ m : Manager,
  match x m with
  | .ok _ m' => m.Quiet m'
  | .error i m' => m.Steady m' ∧ (i = .reorder → m.auto.isArmed = true) ∧
      (i ≠ Interrupt.error .nodeLimit → m'.error = m.error)

theorem Steady.pure (a : α) : Steady (Pure.pure a : Build α) := fun m => .refl m

theorem Steady.throw {i : Interrupt} (hi : i ≠ .reorder) : Steady (throw i : Build α) := fun m =>
  ⟨.refl m, fun h => absurd h hi, fun _ => rfl⟩

theorem Steady.after {x : Build α} (hx : Steady x) (h : m.Quiet m') :
    match x m' with
    | .ok _ m'' => m.Quiet m''
    | .error i m'' => m.Steady m'' ∧ (i = .reorder → m.auto.isArmed = true) ∧
        (i ≠ Interrupt.error .nodeLimit → m''.error = m.error) := by
  have hx := hx m'
  rcases hm : x m' with ⟨a, m₁⟩ | ⟨i, m₁⟩
  · rw [hm] at hx
    exact h.trans hx
  · rw [hm] at hx
    obtain ⟨hsteady, harmed, herror⟩ := hx
    exact ⟨h.toSteady.trans hsteady, fun hi => h.auto ▸ harmed hi, fun hi => (herror hi).trans h.error⟩

theorem Steady.bind {x : Build α} {f : α → Build β} (hx : Steady x) (hf : ∀ a, Steady (f a)) :
    Steady (x >>= f) := by
  intro m
  have hx := hx m
  rcases h : x m with ⟨a, m₁⟩ | ⟨i, m₁⟩
  · rw [h] at hx
    rw [bind_ok h]
    exact (hf a).after hx
  · rw [h] at hx
    rw [bind_error h]
    exact hx

theorem Steady.update {g : Manager → Manager} (hg : ∀ m : Manager, m.Quiet (g m)) :
    Steady (modify g : Build Unit) := hg

theorem Steady.read (f : Manager → Except Failure α) : Steady (read f) := by
  intro m
  unfold Build.read
  rcases f m with e | a
  · exact ⟨.refl m, nofun, fun _ => rfl⟩
  · exact .refl m

theorem Steady.get : Steady (MonadState.get : Build Manager) := fun m => .refl m

theorem Steady.push (id : NodeId) : Steady (push id) := fun _ =>
  ⟨⟨rfl, rfl, rfl, rfl, rfl, rfl, fun h => h⟩, rfl⟩

theorem Steady.pop : Steady pop := by
  refine Steady.get.bind fun m => ?_
  split
  · exact .throw nofun
  · exact .update fun _ => ⟨⟨rfl, rfl, rfl, rfl, rfl, rfl, fun h => h⟩, rfl⟩

theorem Steady.createAnew (n : Node) : Steady (createAnew n) := by
  intro m
  unfold Build.createAnew
  rcases m.store.slots.next? with _ | id
  · -- The only place where an error comes to stand.
    exact ⟨⟨rfl, rfl, rfl, rfl, rfl, rfl, fun h => h⟩, nofun, fun hi => absurd rfl hi⟩
  · dsimp only
    rcases m.table.find m.store.nodes n with _ | _ | slot
    · exact ⟨.refl m, nofun, fun _ => rfl⟩
    · exact ⟨.refl m, nofun, fun _ => rfl⟩
    · exact ⟨⟨rfl, rfl, rfl, rfl, rfl, rfl, fun h => h⟩, rfl⟩

theorem Steady.createInFull (n : Node) : Steady (createInFull n) := by
  intro m
  unfold Build.createInFull
  rcases hc : m.collect with _ | ⟨freed, m₁⟩
  · exact ⟨.refl m, nofun, fun _ => rfl⟩
  · have h₁ := Quiet.collect hc
    dsimp only
    by_cases hready : (decide (m₁.auto.threshold ≤ m₁.store.usedCount) && m₁.reorderReady) = true
    · -- The only place where an operator is interrupted.
      rw [if_pos hready]
      refine ⟨h₁.toSteady, fun _ => ?_, fun _ => h₁.error⟩
      rw [← h₁.auto]
      exact (Bool.and_eq_true_iff.mp (Bool.and_eq_true_iff.mp hready).2).1
    · rw [if_neg hready]
      by_cases htight : isTight m₁ = true
      · rw [if_pos htight]
        rcases hg : m₁.grow with _ | m₂
        · exact ⟨h₁.toSteady, nofun, fun _ => h₁.error⟩
        · exact (Steady.createAnew n).after (h₁.trans (.grow hg))
      · rw [if_neg htight]
        exact (Steady.createAnew n).after h₁

theorem Steady.mk (level : Level) (low high : NodeId) : Steady (mk level low high) := by
  intro m
  unfold Build.mk
  by_cases heq : low = high
  · rw [if_pos heq]
    exact .refl m
  · rw [if_neg heq]
    rcases m.table.find m.store.nodes ⟨level, low, high⟩ with _ | _ | slot
    · exact ⟨.refl m, nofun, fun _ => rfl⟩
    · exact .refl m
    · rcases herror : m.error with _ | e
      · rcases m.store.slots.next? with _ | id
        · have hfull := Steady.createInFull ⟨level, low, high⟩ m
          rwa [herror] at hfull
        · exact ⟨⟨rfl, rfl, rfl, rfl, rfl, rfl, fun h => h⟩, rfl⟩
      · exact ⟨.refl m, nofun, fun _ => herror⟩

theorem Steady.addVariable : Steady addVariable :=
  Steady.get.bind fun _ => (Steady.mk _ _ _).bind fun pos => (Steady.push pos).bind fun _ =>
    (Steady.mk _ _ _).bind fun _ => Steady.pop.bind fun _ =>
      .update fun _ => ⟨⟨rfl, rfl, rfl, rfl, rfl, rfl, fun h => h⟩, rfl⟩

theorem Steady.addVariables (n : Nat) : Steady (addVariables n) := by
  induction n with
  | zero => exact .pure _
  | succ n ih => exact Steady.addVariable.bind fun _ => ih

/-- Nothing is interrupted while the automatic reordering is switched off. -/
theorem Steady.ne_reorder {x : Build α} (hx : Steady x) (h : m.auto.isArmed = false) :
    x m ≠ .error .reorder m' := by
  intro hm
  have hx := hx m
  rw [hm, h] at hx
  exact Bool.false_ne_true (hx.2.1 rfl)

end Build

theorem AutoReorder.isArmed_disable (a : AutoReorder) : a.disable.isArmed = false := by
  simp [isArmed, disable]

theorem Step.steady (s : Step) : Build.Steady s.exec := by
  cases s with
  | fault => exact .throw nofun
  | fail => exact .throw nofun
  | lookup => exact fun _ => ⟨⟨rfl, rfl, rfl, rfl, rfl, rfl, fun h => h⟩, rfl⟩
  | remember => exact .update fun _ => ⟨⟨rfl, rfl, rfl, rfl, rfl, rfl, fun h => h⟩, rfl⟩
  | lookupCount => exact fun _ => ⟨⟨rfl, rfl, rfl, rfl, rfl, rfl, fun h => h⟩, rfl⟩
  | rememberCount => exact .update fun _ => ⟨⟨rfl, rfl, rfl, rfl, rfl, rfl, fun h => h⟩, rfl⟩
  | push f => exact .push f
  | pop => exact .pop
  | keepOnly => exact .update fun _ => ⟨⟨rfl, rfl, rfl, rfl, rfl, rfl, fun h => h⟩, rfl⟩
  | mk level low high => exact .mk level low high
  | depth => exact .read fun m => .ok m.depth
  | varNum => exact .read fun m => .ok m.varNum
  | _ => exact .read _

theorem Program.steady (p : Program α) : Build.Steady p.run := by
  induction p with
  | done a => exact .pure a
  | one s => exact s.steady
  | bind p next ihp ihn =>
    intro m
    rw [run_bind]
    exact (ihp.bind ihn) m

/-! ### Calls -/

namespace Manager

variable {operands : List NodeId} {body : Reordering Unit}

/-- No call is running. -/
def Idle (m : Manager) : Prop := m.pending = [] ∧ m.operands = []

/-- A session has taken place, of which nothing is left but its count. -/
structure Resumes (m m' : Manager) : Prop where
  auto : m'.auto = m.auto
  pending : m'.pending = m.pending
  operands : m'.operands = m.operands
  reorders : m'.counters.reorders = m.counters.reorders + 1
  forest : m'.forest = m.forest
  roots : m'.roots = m.roots
  updates : m'.pairings.updates = m.pairings.updates
  bits : m.computed.bits ≤ Config.maxCacheBits → m'.computed.bits ≤ Config.maxCacheBits

theorem resumes_start {roots : List NodeId} {s s' : Session} {stats : ReorderStats}
    (hs : Session.start m roots = some s) (hw : s.Walk s') (hf : s'.finish = some (stats, m')) :
    m.Resumes m' ∧ m'.error = m.error := by
  simp only [Session.start, Option.bind_eq_bind, Option.bind_eq_some_iff, Option.pure_def,
    Option.some.injEq] at hs
  obtain ⟨store₁, -, ⟨marks, rows⟩, -, ⟨store₂, refs, counts⟩, -, table, -, rfl⟩ := hs
  have hstays := hw.stays
  simp only [Session.finish, Option.bind_eq_bind, Option.bind_eq_some_iff, Option.pure_def,
    Option.some.injEq, Prod.mk.injEq] at hf
  obtain ⟨store, -, ⟨freed, m₁⟩, hcollect, -, rfl⟩ := hf
  have hc := Quiet.collect hcollect
  have hp := pending_collect hcollect
  have herror := hc.error
  have hauto := hc.auto
  have hoperands := hc.operands
  have hreorders := hc.reorders
  have hforest := hc.forest
  have hroots := hc.roots
  have hupdates := hc.updates
  have hbits := hc.bits
  rw [hstays.manager] at hp herror hauto hoperands hreorders hforest hroots hbits
  exact ⟨⟨hauto, hp, hoperands, congrArg (· + 1) (hreorders.trans hstays.reorders), hforest, hroots,
    hupdates.trans hstays.updates, hbits⟩, herror⟩

/-- A session is counted, however it ends.  If it fails, the want of room stands from then on. -/
theorem session_resumes (hb : Reordering.Walks body) (m : Manager) :
    Action.Ensures m (session body) (fun _ m' => m.Resumes m' ∧ m'.error = m.error) fun e m' =>
      e = .nodeLimit ∧ m.Resumes m' ∧ m'.error = some .nodeLimit := by
  unfold Action.Ensures session
  rcases hs : Session.start m m.rootNodes with _ | s
  · trivial
  · have hbody := hb s
    unfold Reordering.Ensures at hbody
    dsimp only
    rcases hx : body s with ⟨_, s'⟩ | ⟨e | _, s'⟩
    · rw [hx] at hbody
      dsimp only
      rcases hf : s'.finish with _ | ⟨stats, m'⟩
      · trivial
      · exact resumes_start hs hbody hf
    · rw [hx] at hbody
      dsimp only
      rcases hf : s'.finish with _ | ⟨stats, m'⟩
      · trivial
      · obtain ⟨rfl, hw⟩ := hbody
        obtain ⟨hr, -⟩ := resumes_start hs hw hf
        exact ⟨rfl, ⟨hr.auto, hr.pending, hr.operands, hr.reorders, hr.forest, hr.roots, hr.updates,
          hr.bits⟩, rfl⟩
    · trivial

/-- What an operator call leaves of the automatic reordering. -/
structure Accounts (m m' : Manager) : Prop where
  idle : m.Idle → m'.Idle
  disabled : m'.auto.disabled = m.auto.disabled
  sessions : m'.counters.reorders = m.counters.reorders ∧ m'.auto.times = m.auto.times ∨
    m'.counters.reorders = m.counters.reorders + 1 ∧ m.auto.times ≠ some 0 ∧
      m'.auto.times = m.auto.times.map (· - 1)
  forest : m'.forest = m.forest
  roots : m'.roots = m.roots
  updates : m'.pairings.updates = m.pairings.updates
  bits : m.computed.bits ≤ Config.maxCacheBits → m'.computed.bits ≤ Config.maxCacheBits

theorem Accounts.refl (m : Manager) : m.Accounts m := ⟨fun h => h, rfl, .inl ⟨rfl, rfl⟩, rfl, rfl,
  rfl, fun h => h⟩

/-- An attempt has been made, of which nothing is left. -/
structure Released (m m' : Manager) : Prop where
  idle : m'.Idle
  auto : m'.auto = m.auto
  reorders : m'.counters.reorders = m.counters.reorders
  forest : m'.forest = m.forest
  roots : m'.roots = m.roots
  updates : m'.pairings.updates = m.pairings.updates
  bits : m.computed.bits ≤ Config.maxCacheBits → m'.computed.bits ≤ Config.maxCacheBits

theorem Released.accounts (h : m.Released m') : m.Accounts m' :=
  ⟨fun _ => h.idle, by rw [h.auto], .inl ⟨h.reorders, by rw [h.auto]⟩, h.forest, h.roots,
    h.updates, h.bits⟩

theorem Released.trans (h : m.Released m') (h' : m'.Accounts m'') : m.Accounts m'' := by
  obtain ⟨hidle, hdisabled, hsessions, hforest, hroots, hupdates, hbits⟩ := h'
  rw [h.auto, h.reorders] at hsessions
  exact ⟨fun _ => hidle h.idle, hdisabled.trans (by rw [h.auto]), hsessions,
    hforest.trans h.forest, hroots.trans h.roots, hupdates.trans h.updates,
    fun hm => hbits (h.bits hm)⟩

theorem Accounts.trans (h : m.Accounts m') (h' : m'.Released m'') : m.Accounts m'' := by
  refine ⟨fun _ => h'.idle, (by rw [h'.auto]; exact h.disabled), ?_, h'.forest.trans h.forest,
    h'.roots.trans h.roots, h'.updates.trans h.updates, fun hm => h'.bits (h.bits hm)⟩
  rw [h'.auto, h'.reorders]
  exact h.sessions

/-- Nothing is left of an attempt.  It is interrupted only if the automatic reordering is armed, and it
touches the error that stands only if it fails for want of room. -/
theorem attempt_released (operands : List NodeId) (p : Program NodeId) (m : Manager) :
    match attempt operands p m with
    | .ok _ m' => m.Released m'
    | .error i m' => m.Released m' ∧ (i = .reorder → m.auto.isArmed = true) ∧
        (i ≠ Interrupt.error .nodeLimit → m'.error = m.error) := by
  have hp := p.steady (m.equip operands)
  unfold attempt
  rcases hx : p.run (m.equip operands) with ⟨res, m'⟩ | ⟨i, m'⟩
  · rw [hx] at hp
    exact ⟨⟨rfl, rfl⟩, hp.auto, hp.reorders, hp.forest, hp.roots, hp.updates, hp.bits⟩
  · rw [hx] at hp
    exact ⟨⟨⟨rfl, rfl⟩, hp.1.auto, hp.1.reorders, hp.1.forest, hp.1.roots, hp.1.updates, hp.1.bits⟩,
      hp.2⟩

/-- No attempt is interrupted while the automatic reordering is switched off. -/
theorem attempt_ne_reorder (operands : List NodeId) (p : Program NodeId)
    (h : m.auto.isArmed = false) : attempt operands p m ≠ .error .reorder m' := by
  intro hx
  have hreleased := attempt_released operands p m
  rw [hx, h] at hreleased
  exact Bool.false_ne_true (hreleased.2.1 rfl)

/-- An automatic reordering that starts in the manager, while the operands are kept, runs out of
room. -/
def Exhausts (operands : List NodeId) (m : Manager) : Prop :=
  ∃ m', session (Reordering.reorderAll m.auto.method) (m.equip operands) = .error (.error .nodeLimit) m'

end Manager

/-- The first attempt at the program of a request is interrupted and leaves the manager `m₁`. -/
inductive Request.Pauses (r : Request) (m : Manager) (operands : List NodeId) (m₁ : Manager) : Prop
  | intro {p : Program NodeId} {exclusive : Bool} (hcheck : r.check m = .ok ())
    (htask : r.task = .perform operands p exclusive)
    (hnodes : (m.barred exclusive).checkNodes operands = .ok ())
    (hfirst : Manager.attempt operands p (m.barred exclusive) = .error .reorder m₁)

namespace Action

open Manager

variable {Q : Manager → Manager → Prop}

/-- What holds between the managers before and after a call, in each of its outcomes but a fault. -/
def Within (Q : Manager → Manager → Prop) (x : Action α) : Prop :=
  ∀ m : Manager, Ensures m x (fun _ m' => Q m m') fun _ m' => Q m m'

theorem Within.get {k : Manager → Action α}
    (h : ∀ m : Manager, Ensures m (k m) (fun _ m' => Q m m') fun _ m' => Q m m') :
    Within Q (MonadState.get >>= k) := h

theorem Ensures.attemptOnce_released (operands : List NodeId) (p : Program NodeId) (m : Manager) :
    Ensures m (Manager.attemptOnce operands p) (fun _ m' => m.Released m') fun e m' =>
      m.Released m' ∧ (e ≠ .nodeLimit → m'.error = m.error) := by
  have h := attempt_released operands p m
  unfold Ensures Manager.attemptOnce
  rcases hx : attempt operands p m with ⟨res, m'⟩ | ⟨_ | e | _, m'⟩
  · rw [hx] at h
    exact h
  · trivial
  · rw [hx] at h
    exact ⟨h.1, fun he => h.2.2 (by rintro ⟨⟩; exact he rfl)⟩
  · trivial

theorem released_enable (h : Released { m with auto := m.auto.disable } m') :
    m.Released { m' with auto := m'.auto.enable } :=
  ⟨h.idle, by rw [h.auto, AutoReorder.enable_disable], h.reorders, h.forest, h.roots, h.updates,
    h.bits⟩

theorem accounts_enable (h : Accounts { m with auto := m.auto.disable } m') :
    m.Accounts { m' with auto := m'.auto.enable } := by
  refine ⟨h.idle, ?_, h.sessions, h.forest, h.roots, h.updates, h.bits⟩
  show m'.auto.disabled - 1 = _
  rw [h.disabled]
  rfl

/-- The automatic reordering takes one session off the times that are left, if it starts one.  If that
runs out of room, the error stands from then on. -/
theorem Ensures.autoReorder_accounts (operands : List NodeId) (m : Manager) :
    Action.Ensures m (Manager.autoReorder operands) (fun _ m' => m.Accounts m' ∧
      (m'.error = m.error ∨ m'.error = some .nodeLimit ∧ m.Exhausts operands))
      fun _ _ => False := by
  unfold Action.Ensures Manager.autoReorder
  by_cases hready : m.reorderReady = true
  · rw [if_pos hready]
    have htimes : m.auto.times ≠ some 0 := by
      have harmed := (Bool.and_eq_true_iff.mp hready).1
      simp only [AutoReorder.isArmed, Bool.and_eq_true, bne_iff_ne] at harmed
      exact harmed.1.2
    have hsession :=
      session_resumes (Reordering.Guided.reorderAll m.auto.method).walks (m.equip operands)
    unfold Action.Ensures at hsession
    -- The end of the call is the same whether or not the session failed.
    have close : ∀ {m' : Manager} (gain : Nat), (m.equip operands).Resumes m' → m.Accounts
        { m' with operands := [], auto := m'.auto.spend.rearm m'.store.usedCount gain } := by
      intro m' gain h
      refine ⟨fun _ => ⟨h.pending, rfl⟩, ?_, .inr ⟨h.reorders, htimes, ?_⟩, h.forest, h.roots,
        h.updates, h.bits⟩
      · show m'.auto.disabled = _
        rw [h.auto]
        rfl
      · show m'.auto.times.map _ = _
        rw [h.auto]
        rfl
    rcases hx : session (Reordering.reorderAll m.auto.method) { m with pending := [], operands } with
      ⟨stats, m'⟩ | ⟨e | _, m'⟩
    · rw [equip, hx] at hsession
      exact ⟨close _ hsession.1, .inl hsession.2⟩
    · rw [equip, hx] at hsession
      obtain ⟨rfl, hresumes, herror⟩ := hsession
      exact ⟨close _ hresumes, .inr ⟨herror, m', hx⟩⟩
    · trivial
  · rw [if_neg hready]
    exact ⟨⟨fun h => h, rfl, .inl ⟨rfl, rfl⟩, rfl, rfl, rfl, fun h => h⟩, .inl rfl⟩

/-- Every attempt of a call begins with the stamps of the pairings as they were before the call. -/
theorem Attempts.updates {r : Request} {p : Program NodeId} (h : Attempts r m p m') :
    m'.pairings.updates = m.pairings.updates := by
  have barred : ∀ exclusive, (m.barred exclusive).pairings = m.pairings := fun exclusive => by
    cases exclusive <;> rfl
  cases h with
  | first => exact congrArg _ (barred _)
  | @again operands p exclusive m₁ m₂ _ _ _ hfirst hreorder =>
    have hreleased := attempt_released operands p (m.barred exclusive)
    rw [hfirst] at hreleased
    have haccounts := Ensures.autoReorder_accounts operands m₁
    rw [Ensures, hreorder] at haccounts
    exact haccounts.1.updates.trans (hreleased.1.updates.trans (by rw [barred]))

/-- A program starts over at most once, after one session at most. -/
theorem Ensures.perform_accounts (operands : List NodeId) (p : Program NodeId) (m : Manager) :
    Ensures m (Manager.perform operands p) (fun _ m' => m.Accounts m') fun e m' =>
      m.Accounts m' ∧ (e ≠ .nodeLimit → m'.error = m.error ∨ m'.error = some .nodeLimit ∧
        ∃ m₁, m.checkNodes operands = .ok () ∧ attempt operands p m = .error .reorder m₁ ∧
          m₁.Exhausts operands) := by
  refine Ensures.read (fun _ => ⟨.refl m, fun _ => .inl rfl⟩) fun _ hnodes => ?_
  have hfirst := attempt_released operands p m
  rcases hx : attempt operands p m with ⟨res, m₁⟩ | ⟨_ | e | _, m₁⟩
  · rw [hx] at hfirst
    unfold Ensures
    simp only [hx]
    exact hfirst.accounts
  · rw [hx] at hfirst
    obtain ⟨hreleased, -, herror⟩ := hfirst
    have herror := herror nofun
    refine (((Ensures.autoReorder_accounts operands m₁).mono (fun _ _ h => h) fun _ _ =>
      False.elim).bind fun _ m₂ h₂ => ?_).congr (by simp only [hx]; rfl)
    -- The attempt that gave way left the error flag alone, so a new flag is that of reordering.
    obtain ⟨haccounts, hreorder⟩ := h₂
    refine Ensures.withoutReorder (Ensures.attemptOnce_released operands p _)
      (fun _ m' h => hreleased.trans (haccounts.trans (released_enable h))) fun e m' h => ?_
    refine ⟨hreleased.trans (haccounts.trans (released_enable h.1)), fun he => ?_⟩
    rw [show m'.error = m₂.error from h.2 he, ← herror]
    exact hreorder.imp_right fun ⟨hlimit, hfail⟩ => ⟨hlimit, m₁, hnodes, rfl, hfail⟩
  · rw [hx] at hfirst
    unfold Ensures
    simp only [hx]
    exact ⟨hfirst.1.accounts, fun he => .inl (hfirst.2.2 (by rintro ⟨⟩; exact he rfl))⟩
  · simp only [Ensures, hx]

/-- An error that stands after a failed call stood before it, unless it is the error of the call or of
an automatic reordering in it. -/
theorem Ensures.call_accounts (r : Request) (m : Manager) :
    Ensures m (Manager.call r) (fun _ m' => m.Accounts m') fun e m' =>
      m.Accounts m' ∧ (e ≠ .nodeLimit → m'.error = m.error ∨ m'.error = some .nodeLimit ∧
        ∃ operands m₁, r.Pauses m operands m₁ ∧ m₁.Exhausts operands) := by
  refine Ensures.read (fun _ => ⟨.refl m, fun _ => .inl rfl⟩) fun _ hcheck => ?_
  rcases htask : r.task with f | ⟨operands, p, exclusive⟩
  · exact .pure (.refl m)
  · cases exclusive
    · refine (Ensures.perform_accounts operands p m).mono (fun _ _ h => h) fun e m' h => ?_
      refine ⟨h.1, fun he => (h.2 he).imp_right ?_⟩
      rintro ⟨hlimit, m₁, hnodes, hfirst, hfail⟩
      exact ⟨hlimit, operands, m₁, ⟨hcheck, htask, hnodes, hfirst⟩, hfail⟩
    · refine Ensures.withoutReorder (Ensures.perform_accounts operands p _)
        (fun _ _ => accounts_enable) fun e m' h => ?_
      refine ⟨accounts_enable h.1, fun he => (h.2 he).imp_right ?_⟩
      rintro ⟨hlimit, m₁, hnodes, hfirst, hfail⟩
      exact ⟨hlimit, operands, m₁, ⟨hcheck, htask, hnodes, hfirst⟩, hfail⟩

theorem Within.call (r : Request) : Within Accounts (Manager.call r) := fun m =>
  (Ensures.call_accounts r m).mono (fun _ _ h => h) fun _ _ h => h.1

end Action

/-! ### Other calls -/

namespace Manager

/-- No session has started by itself, and none at all unless one was asked for.  The same nodes are
protected as often as before, and the blocks are as before, unless it was asked for something else. -/
structure Rests (asked registers regroups : Bool) (m m' : Manager) : Prop where
  idle : m.Idle → m'.Idle
  times : m'.auto.times = m.auto.times
  reorders : asked = false → m'.counters.reorders = m.counters.reorders
  roots : registers = false → m'.roots = m.roots
  forest : regroups = false → m'.forest = m.forest
  bits : m.computed.bits ≤ Config.maxCacheBits → m'.computed.bits ≤ Config.maxCacheBits

variable {asked registers regroups : Bool}

theorem Rests.refl (asked registers regroups : Bool) (m : Manager) :
    m.Rests asked registers regroups m :=
  ⟨fun h => h, rfl, fun _ => rfl, fun _ => rfl, fun _ => rfl, fun h => h⟩

theorem Rests.trans (h : m.Rests asked registers regroups m')
    (h' : m'.Rests asked registers regroups m'') : m.Rests asked registers regroups m'' :=
  ⟨fun hm => h'.idle (h.idle hm), h'.times.trans h.times,
    fun ha => (h'.reorders ha).trans (h.reorders ha), fun hr => (h'.roots hr).trans (h.roots hr),
    fun hg => (h'.forest hg).trans (h.forest hg), fun hm => h'.bits (h.bits hm)⟩

/-- The blocks are as before, or there are none, or there is one more, of known variables. -/
inductive Regroups (m m' : Manager) : Prop
  | keep (h : m'.forest = m.forest)
  | clear (h : m'.forest = [])
  | add {first last : Var} {fixed : Bool} (hlast : last < m.varNum)
    (hadd : m.forest.add first last fixed = .ok m'.forest)

end Manager

namespace Action

open Manager

/-- No session starts by itself in the call, and none at all unless it is asked for; no protection is
added or dropped, and no block, unless that is what the call is for. -/
abbrev Restful (asked registers regroups : Bool) (x : Action α) : Prop :=
  Within (Rests asked registers regroups) x

variable {asked registers regroups : Bool}

theorem Restful.pure (a : α) : Restful asked registers regroups (Pure.pure a : Action α) := fun m =>
  .pure (.refl _ _ _ m)

theorem Restful.fail (e : Error) : Restful asked registers regroups (Action.fail e : Action α) := fun m =>
  .fail (.refl _ _ _ m)

theorem Restful.bind {x : Action α} {f : α → Action β} (hx : Restful asked registers regroups x)
    (hf : ∀ a, Restful asked registers regroups (f a)) : Restful asked registers regroups (x >>= f) := fun m =>
  (hx m).bind fun a m' h => (hf a m').mono (fun _ _ h' => h.trans h') fun _ _ h' => h.trans h'

theorem Restful.get : Restful asked registers regroups (MonadState.get : Action Manager) := fun m =>
  Rests.refl _ _ _ m

theorem Restful.read (f : Manager → Except Failure α) : Restful asked registers regroups (Action.read f) := by
  intro m
  unfold Ensures Action.read
  rcases f m with (e | _) | a
  · exact .refl _ _ _ m
  · trivial
  · exact .refl _ _ _ m

theorem Restful.update {g : Manager → Manager} (h : ∀ m : Manager, m.Rests asked registers regroups (g m)) :
    Restful asked registers regroups (modify g : Action Unit) := h

theorem Restful.previous {f : Manager → α} {g : Manager → Manager}
    (h : ∀ m : Manager, m.Rests asked registers regroups (g m)) :
    Restful asked registers regroups (Action.previous f g) := h

theorem Restful.setting {f : Manager → α} {g : Manager → Manager}
    (h : ∀ m : Manager, g m = { m with config := (g m).config, pairings := (g m).pairings }) :
    Restful asked registers regroups (Action.previous f g) := by
  refine .previous fun m => ?_
  rw [h]
  exact ⟨fun h => h, rfl, fun _ => rfl, fun _ => rfl, fun _ => rfl, fun h => h⟩

theorem Restful.addVariables (count : Nat) : Restful asked registers regroups (Manager.addVariables count) := by
  intro m
  have h := Build.Steady.addVariables count { m with pending := [], auto := m.auto.disable }
  have settle : ∀ {m' : Manager}, Steady { m with pending := [], auto := m.auto.disable } m' →
      m.Rests asked registers regroups (Manager.settle { m' with auto := m'.auto.enable }) := by
    intro m' h
    refine ⟨fun hm => ⟨rfl, h.operands.trans hm.2⟩, ?_, fun _ => h.reorders, fun _ => h.roots,
      fun _ => h.forest, h.bits⟩
    show m'.auto.times = _
    rw [h.auto]
    rfl
  unfold Ensures Manager.addVariables
  rcases hx : Build.addVariables count { m with pending := [], auto := m.auto.disable } with
    ⟨_, m'⟩ | ⟨_ | e | _, m'⟩
  · rw [hx] at h
    exact settle h.toSteady
  · trivial
  · rw [hx] at h
    exact settle h.1
  · trivial

theorem Restful.setVarNum (num : Nat) : Restful asked registers regroups (Manager.setVarNum num) := by
  refine Restful.get.bind fun m => ?_
  dsimp only
  split
  · exact .fail _
  · split
    · exact .fail _
    · split
      · exact .pure _
      · exact .addVariables _

theorem Restful.extVarNum (extra : Nat) : Restful asked registers regroups (Manager.extVarNum extra) := by
  refine Restful.get.bind fun m => ?_
  dsimp only
  split
  · exact .fail _
  · exact (Restful.setVarNum _).bind fun _ => .pure _

theorem Restful.protect (f : NodeId) : Restful asked true regroups (Manager.protect f) := by
  have hprotect : Restful asked true regroups
      (modify fun m => { m with roots := m.roots.protect f } : Action Unit) := fun _ =>
    ⟨fun h => h, rfl, fun _ => rfl, nofun, fun _ => rfl, fun h => h⟩
  exact (Restful.read _).bind fun _ => hprotect.bind fun _ => .pure _

theorem Restful.gc : Restful asked registers regroups Manager.gc := by
  intro m
  unfold Ensures Manager.gc
  rcases hc : m.collect with _ | ⟨freed, m'⟩
  · trivial
  · have h := Quiet.collect hc
    exact ⟨fun hm => ⟨(pending_collect hc).trans hm.1, h.operands.trans hm.2⟩, by rw [h.auto],
      fun _ => h.reorders, fun _ => h.roots, fun _ => h.forest, h.bits⟩

theorem Restful.count {p : Program Float} (hp : p.Inert) :
    Restful asked registers regroups (Manager.count p) := by
  intro m
  have h := hp.spares m
  have hsteady := p.steady m
  have rests : ∀ {m'}, m.Recomputed m' → m.Steady m' → m.Rests asked registers regroups m' := by
    rintro m' ⟨computed, rfl⟩ hs
    exact ⟨fun h => h, rfl, fun _ => rfl, fun _ => rfl, fun _ => rfl, hs.bits⟩
  unfold Ensures Manager.count
  rcases hx : p.run m with ⟨x, m'⟩ | ⟨_ | e | _, m'⟩
  · rw [hx] at h hsteady
    exact rests h hsteady.toSteady
  · trivial
  · rw [hx] at h hsteady
    exact rests h hsteady.1
  · trivial

theorem Restful.updatePairings (f : Manager → Option Pairings) :
    Restful asked registers regroups (Manager.updatePairings f) := by
  intro m
  unfold Ensures Manager.updatePairings
  rcases f m with _ | p
  · trivial
  · exact ⟨fun h => h, rfl, fun _ => rfl, fun _ => rfl, fun _ => rfl, fun h => h⟩

theorem Restful.setPair (number : Nat) (old new : Var) :
    Restful asked registers regroups (Manager.setPair number old new) :=
  (Restful.read _).bind fun _ => (Restful.read _).bind fun _ => (Restful.read _).bind fun _ =>
    .updatePairings _

theorem Restful.setPairNode (number : Nat) (old : Var) (g : NodeId) :
    Restful asked registers regroups (Manager.setPairNode number old g) :=
  (Restful.read _).bind fun _ => (Restful.read _).bind fun _ => (Restful.read _).bind fun _ =>
    .updatePairings _

theorem Restful.setMaxNodes (limit : Nat) : Restful asked registers regroups (Manager.setMaxNodes limit) := by
  refine Restful.get.bind fun _ => ?_
  split
  · exact .fail _
  · exact .setting fun _ => rfl

theorem Restful.setIncreaseFactor (factor : Float) :
    Restful asked registers regroups (Manager.setIncreaseFactor factor) := by
  unfold Manager.setIncreaseFactor
  split
  · exact .fail _
  · exact .setting fun _ => rfl

theorem Restful.setMinFreePercent (percent : Nat) :
    Restful asked registers regroups (Manager.setMinFreePercent percent) := by
  unfold Manager.setMinFreePercent
  split
  · exact .fail _
  · exact .setting fun _ => rfl

theorem Restful.setCacheBits (bits : Nat) :
    Restful asked registers regroups (Manager.setCacheBits bits) := by
  unfold Manager.setCacheBits
  split
  · exact .fail _
  · rename_i hbits
    exact .previous fun _ => ⟨fun h => h, rfl, fun _ => rfl, fun _ => rfl, fun _ => rfl,
      fun _ => Nat.le_of_not_lt hbits⟩

theorem Restful.addVarBlock (first last : Var) (fixed : Bool) :
    Restful asked registers true (Manager.addVarBlock first last fixed) := by
  refine (Restful.read _).bind fun _ => (Restful.read _).bind fun _ => Within.get fun m => ?_
  dsimp only
  split
  · exact Restful.fail _ m
  · split
    · exact Restful.fail _ m
    · rename_i forest _
      exact (⟨fun h => h, rfl, fun _ => rfl, fun _ => rfl, nofun, fun h => h⟩ :
        m.Rests asked registers true { m with forest })

theorem Within.addVarBlock (first last : Var) (fixed : Bool) :
    Within Regroups (Manager.addVarBlock first last fixed) := by
  intro m
  refine .read (fun _ => .keep rfl) fun _ _ => .read (fun _ => .keep rfl) fun _ hlast => .get ?_
  dsimp only
  split
  · exact .fail (.keep rfl)
  · split
    · exact .fail (.keep rfl)
    · rename_i forest hadd
      exact (Regroups.add (checkVar_ok hlast) hadd : m.Regroups { m with forest })

/-! ### Sessions that are asked for -/

theorem Restful.session {body : Reordering Unit} (hb : Reordering.Walks body) :
    Restful true registers regroups (Manager.session body) := fun m =>
  have rests : ∀ {m' : Manager}, m.Resumes m' → m.Rests true registers regroups m' := fun h =>
    ⟨fun hm => ⟨h.pending.trans hm.1, h.operands.trans hm.2⟩, by rw [h.auto], nofun,
      fun _ => h.roots, fun _ => h.forest, h.bits⟩
  (session_resumes hb m).mono (fun _ _ h => rests h.1) fun _ _ h => rests h.2.1

theorem Restful.reorder (method : ReorderMethod) : Restful true registers regroups (Manager.reorder method) := by
  intro m
  have hclear : m.Rests true registers regroups { m with pending := [] } :=
    ⟨fun h => ⟨rfl, h.2⟩, rfl, nofun, fun _ => rfl, fun _ => rfl, fun h => h⟩
  by_cases hidle : (decide (method = .off) || decide (m.varNum < 2)) = true
  · have hres : Ensures { m with pending := [] }
        (Pure.pure ⟨0, m.store.usedCount, m.store.usedCount⟩ : Action ReorderStats)
        (fun _ m' => m.Rests true registers regroups m') fun _ m' => m.Rests true registers regroups m' := hclear
    exact hres.congr (if_pos hidle)
  · exact ((Restful.session (Reordering.Guided.reorderAll method).walks _).mono
      (fun _ _ h => hclear.trans h) fun _ _ h => hclear.trans h).congr (if_neg hidle)

theorem Restful.rearrange {body : Reordering Unit} (hb : Reordering.Walks body) :
    Restful true registers regroups (Manager.rearrange body) := by
  have hclear :
      Restful true registers regroups (modify fun m => { m with pending := [] } : Action Unit) := fun _ =>
    ⟨fun h => ⟨rfl, h.2⟩, rfl, fun _ => rfl, fun _ => rfl, fun _ => rfl, fun h => h⟩
  exact hclear.bind fun _ => (Restful.session hb).bind fun _ => .pure _

theorem Restful.swapVar (v w : Var) : Restful true registers regroups (Manager.swapVar v w) := by
  refine Restful.get.bind fun _ => ?_
  split
  · exact .fail _
  · refine (Restful.read _).bind fun _ => (Restful.read _).bind fun _ => ?_
    split
    · exact .pure _
    · refine (Restful.read _).bind fun _ => (Restful.read _).bind fun _ => ?_
      split
      · exact .rearrange (Reordering.Guided.exchangeAcross _ _ _ _).walks
      · exact .rearrange (Reordering.Guided.exchangeAcross _ _ _ _).walks

theorem Restful.setVarOrder (vars : List Var) : Restful true registers regroups (Manager.setVarOrder vars) := by
  refine Restful.get.bind fun _ => ?_
  split
  · exact .fail _
  · split
    · exact .fail _
    · exact .rearrange (Reordering.Guided.imposeFrom _ _).walks

end Action

namespace Command

/-- Whether the command sets up the automatic reordering. -/
def arms : Command → Bool
  | setAutoReorder _ _ => true
  | _ => false

/-- Whether the command asks for a change of the order. -/
def asks : Command → Bool
  | reorder _ => true
  | swapVar _ _ => true
  | setVarOrder _ => true
  | _ => false

/-- Whether the command adds or drops a protection. -/
def registers : Command → Bool
  | protect _ => true
  | release _ => true
  | _ => false

/-- Whether the command adds or drops blocks. -/
def regroups : Command → Bool
  | addVarBlock _ _ _ => true
  | clearVarBlocks => true
  | _ => false

/-- No session starts by itself in a command that is no operator. -/
theorem restful {c : Command} (hr : c.request? = none) (ha : c.arms = false) :
    Action.Restful c.asks c.registers c.regroups c.perform := by
  have answer : ∀ {γ : Type} {asked registers regroups : Bool} {x : Action γ} {f : γ → Answer},
      Action.Restful asked registers regroups x →
        Action.Restful asked registers regroups (do return f (← x)) :=
    fun hx => hx.bind fun _ => .pure _
  rcases hp : c.count? with _ | p
  case some =>
    rw [perform_of_count hp]
    exact answer (.count (inert hp))
  cases c with
  | setVarNum num => exact answer (.setVarNum num)
  | extVarNum extra => exact answer (.extVarNum extra)
  | protect f => exact answer (.protect f)
  | release f =>
    exact answer (.previous fun _ =>
      ⟨fun h => h, rfl, fun _ => rfl, nofun, fun _ => rfl, fun h => h⟩)
  | gc => exact answer .gc
  | newPairing => exact answer (.setting fun _ => rfl)
  | setPair number old new => exact answer (.setPair number old new)
  | setPairNode number old g => exact answer (.setPairNode number old g)
  | resetPairing number => exact answer (.updatePairings _)
  | reorder method => exact answer (.reorder method)
  | swapVar v w => exact answer (.swapVar v w)
  | setVarOrder vars => exact answer (.setVarOrder vars)
  | setAutoReorder => cases ha
  | disableReorder =>
    exact answer (.update fun _ =>
      ⟨fun h => h, rfl, fun _ => rfl, fun _ => rfl, fun _ => rfl, fun h => h⟩)
  | enableReorder =>
    exact answer (.update fun _ =>
      ⟨fun h => h, rfl, fun _ => rfl, fun _ => rfl, fun _ => rfl, fun h => h⟩)
  | addVarBlock first last fixed => exact answer (.addVarBlock first last fixed)
  | clearVarBlocks =>
    exact answer (.update fun _ =>
      ⟨fun h => h, rfl, fun _ => rfl, fun _ => rfl, nofun, fun h => h⟩)
  | clearError =>
    exact answer (.update fun _ =>
      ⟨fun h => h, rfl, fun _ => rfl, fun _ => rfl, fun _ => rfl, fun h => h⟩)
  | setMaxNodes limit => exact answer (.setMaxNodes limit)
  | setMaxIncrease increase => exact answer (.setting fun _ => rfl)
  | setIncreaseFactor factor => exact answer (.setIncreaseFactor factor)
  | setMinFreePercent percent => exact answer (.setMinFreePercent percent)
  | setCacheRatio ratio => exact answer (.setting fun _ => rfl)
  | setCachePolicy policy => exact answer (.setting fun _ => rfl)
  | setCacheBits bits => exact answer (.setCacheBits bits)
  | satCount => cases hp
  | satCountSet => cases hp
  | pathCount => cases hp
  | ithVar => exact answer (.read _)
  | nithVar => exact answer (.read _)
  | varToLevel => exact answer (.read _)
  | levelToVar => exact answer (.read _)
  | levelOf => exact answer (.read _)
  | varOf => exact answer (.read _)
  | low => exact answer (.read _)
  | high => exact answer (.read _)
  | eval => exact answer (.read _)
  | allSat => exact answer (.read _)
  | satCountExact => exact answer (.read _)
  | nodeCount => exact answer (.read _)
  | nodeCountMany => exact answer (.read _)
  | varProfile => exact answer (.read _)
  | descendants => exact answer (.read _)
  | validate => exact answer (.read _)
  | validateAll => exact answer (.read _)
  | _ => cases hr

/-- What holds of a command in each of its outcomes but a fault. -/
theorem within_run {c : Command} {Q : Manager → Manager → Prop} (hc : Action.Within Q c.perform)
    (h : (c.run m).1 ≠ .error .fault) : Q m (c.run m).2 := by
  have hens := hc m
  unfold Action.Ensures at hens
  unfold run at h ⊢
  rcases hx : c.perform m with ⟨answer, m'⟩ | ⟨e | _, m'⟩
  · rw [hx] at hens
    exact hens
  · rw [hx] at hens
    exact hens
  · simp [hx] at h

theorem within_operator {c : Command} {r : Request} (hr : c.request? = some r) :
    Action.Within Manager.Accounts c.perform := by
  intro m
  rw [perform_of_request hr]
  exact (Action.Within.call r m).bind fun _ _ h => h

theorem regroups_run {c : Command} (h : (c.run m).1 ≠ .error .fault) : m.Regroups (c.run m).2 := by
  rcases hr : c.request? with _ | r
  · cases hg : c.regroups
    · cases ha : c.arms
      · exact .keep ((within_run (restful hr ha) h).forest hg)
      · cases c <;> cases ha
        exact .keep rfl
    · cases c with
      | addVarBlock first last fixed =>
        have hadd : Action.Within Manager.Regroups (Command.addVarBlock first last fixed).perform := fun m =>
          (Action.Within.addVarBlock first last fixed m).bind fun _ _ h => h
        exact within_run hadd h
      | clearVarBlocks => exact .clear rfl
      | _ => cases hg
  · exact .keep (within_run (within_operator hr) h).forest

end Command

namespace Manager

/-- Between two calls, no call is running. -/
theorem Reachable.idle (hm : m.Reachable) : m.Idle := by
  induction hm with
  | create h => exact ⟨(ready_create h).pending, (ready_create h).operands⟩
  | @call m c hm h ih =>
    rcases hr : c.request? with _ | r
    · cases ha : c.arms
      · exact (Command.within_run (Command.restful hr ha) h).idle ih
      · cases c <;> cases ha
        exact ih
    · exact (Command.within_run (Command.within_operator hr) h).idle ih

/-- A new manager has no blocks and no pairings, and computed tables of the size that is configured. -/
theorem create_ok {config : Config} (h : Manager.create config = .ok m) :
    config.validate = .ok () ∧ m.forest = [] ∧ m.pairings = .empty ∧
      m.computed = .ofBits config.cacheBits := by
  unfold Manager.create at h
  split at h
  · cases h
  · rename_i hconfig
    split at h
    · cases h
    · obtain rfl := Except.ok.inj h
      exact ⟨hconfig, rfl, rfl, rfl⟩

/-- Between two calls, all blocks are nested. -/
theorem Reachable.nested (hm : m.Reachable) : m.forest.Nested := by
  induction hm with
  | create h =>
    rw [(create_ok h).2.1]
    exact VarForest.nested_nil
  | call c hm h ih =>
    cases Command.regroups_run h with
    | keep hf => exact hf ▸ ih
    | clear hf => exact hf ▸ VarForest.nested_nil
    | add _ hadd => exact ih.add hadd

end Manager

end DecisionDiagram
