/-
Every call has an answer.

A call ends in a fault only where an invariant of the manager is broken, and none ever is.

* `Action.Answers` — the call ends with a result or with an error that is reported;
* `Answers.session` — a session can be opened and closed, so it has an answer if its work has one;
* `Answers.call` — an operator is interrupted once at most, and starts over with the automatic
  reordering switched off;
* `Command.Issued` — the command names no pairing but those that there are;
* `Command.answers` — all commands but the one that lists nodes without a look at its arguments.
-/
import DecisionDiagram.Proofs.Frames
import DecisionDiagram.Proofs.PathSearch
import DecisionDiagram.Proofs.Reorder.Imposition
import DecisionDiagram.Proofs.Reorder.Opening
import DecisionDiagram.Proofs.Reorder.Termination

namespace DecisionDiagram

open Manager

namespace Action

variable {α β : Type} {m : Manager} {operands : List NodeId} {p : Program NodeId}

/-- The call, made in `m`, has an answer: a result, or an error that is reported. -/
def Answers (m : Manager) (x : Action α) : Prop := ∀ m', x m ≠ .error .fault m'

/-! ### Rules -/

theorem Answers.pure (a : α) : Answers m (Pure.pure a : Action α) := fun _ h => by cases h

theorem Answers.fail (e : Error) : Answers m (Action.fail e : Action α) := fun _ h => by cases h

theorem Answers.bind {x : Action α} {f : α → Action β} (hx : Answers m x)
    (hf : ∀ a m', x m = .ok a m' → Answers m' (f a)) : Answers m (x >>= f) := by
  intro m'' h
  rcases hrun : x m with ⟨a, m'⟩ | ⟨e, m'⟩
  · rw [bind_ok hrun] at h
    exact hf a m' hrun m'' h
  · rw [bind_error hrun] at h
    obtain ⟨rfl, rfl⟩ := EStateM.Result.error.inj h
    exact hx m' hrun

/-- What is answered after a call does not matter. -/
theorem Answers.map {x : Action α} {f : α → β} (hx : Answers m x) :
    Answers m (do return f (← x)) := hx.bind fun _ _ _ => .pure _

theorem Answers.get {k : Manager → Action α} (h : Answers m (k m)) :
    Answers m (MonadState.get >>= k) := h

theorem Answers.read {f : Manager → Except Failure α} (h : Answered (f m)) :
    Answers m (Action.read f) := by
  intro m' hrun
  rw [Action.read] at hrun
  split at hrun
  · cases hrun
  · rename_i e he
    obtain ⟨rfl, -⟩ := EStateM.Result.error.inj hrun
    exact h he

theorem Answers.look {f : Manager → Except Failure α} {k : α → Action β} (h : Answered (f m))
    (hk : ∀ a, f m = .ok a → Answers m (k a)) : Answers m (Action.read f >>= k) := by
  refine (Answers.read h).bind fun a m' hrun => ?_
  obtain ⟨rfl, ha⟩ := of_read_eq_ok hrun
  exact hk a ha

theorem Answers.update (g : Manager → Manager) : Answers m (modify g : Action Unit) :=
  fun _ h => by cases h

theorem Answers.previous (f : Manager → α) (g : Manager → Manager) :
    Answers m (Action.previous f g) := fun _ h => by cases h

theorem Answers.withoutReorder {x : Action α} (h : Answers { m with auto := m.auto.disable } x) :
    Answers m (Action.withoutReorder x) := by
  intro m' hrun
  rw [Action.withoutReorder] at hrun
  split at hrun
  · cases hrun
  · rename_i e m₁ hx
    obtain ⟨rfl, -⟩ := EStateM.Result.error.inj hrun
    exact h _ hx

/-! ### Sessions -/

theorem Answers.session (hm : m.Sound) {body : Reordering Unit} (hwalks : Reordering.Walks body)
    (h : ∀ s, s.Sound → Session.Opens m s → Reordering.Answers s body) :
    Answers m (Manager.session body) := by
  obtain ⟨s, hs⟩ := hm.exists_start m.rootNodes fun _ => .rfl
  obtain ⟨hsound, hopens⟩ := hm.start (fun _ => .rfl) hs
  have hbody := hwalks.safe s hsound
  intro m' hrun
  rw [Manager.session, hs] at hrun
  dsimp only at hrun
  rcases hx : body s with ⟨_, s'⟩ | ⟨e | _, s'⟩
  · rw [Reordering.Ensures, hx] at hbody
    obtain ⟨stats, m₁, hf, -⟩ := hbody.sound.exists_finish
    rw [hx] at hrun
    simp only [hf] at hrun
    cases hrun
  · rw [Reordering.Ensures, hx] at hbody
    obtain ⟨stats, m₁, hf, -⟩ := hbody.2.sound.exists_finish
    rw [hx] at hrun
    simp only [hf] at hrun
    cases hrun
  · exact h s hsound hopens s' hx

/-- A search in a session has an answer. -/
theorem Answers.search (hm : m.Sound) (hforest : m.forest.Nested) (method : ReorderMethod) :
    Answers m (Manager.session (Reordering.reorderAll method)) :=
  .session hm (Reordering.Guided.reorderAll method).walks fun _ hs ho =>
    .reorderAll hs (by rw [ho.manager]; exact hforest)

theorem Answers.reorder (hm : m.Ready) (hforest : m.forest.Nested) (method : ReorderMethod) :
    Answers m (Manager.reorder method) := by
  intro m' hrun
  unfold Manager.reorder at hrun
  dsimp only at hrun
  split at hrun
  · cases hrun
  · exact Answers.search (completes_clear hm).ready.toSound hforest method m' hrun

theorem Answers.rearrange (hm : m.Ready) {body : Reordering Unit} (hwalks : Reordering.Walks body)
    (h : ∀ s, s.Sound → s.manager.order = m.order → Reordering.Answers s body) :
    Answers m (Manager.rearrange body) := by
  refine (Answers.update _).bind fun _ m₁ hclear => ?_
  obtain ⟨-, rfl⟩ := EStateM.Result.ok.inj hclear
  exact (Answers.session (completes_clear hm).ready.toSound hwalks fun s hs ho =>
    h s hs (by rw [ho.manager])).map

theorem Answers.swapVar (hm : m.Ready) (v w : Var) : Answers m (Manager.swapVar v w) := by
  refine .get ?_
  split
  · exact .fail _
  · refine .look (answered_checkVar m v) fun _ hv => .look (answered_checkVar m w) fun _ hw => ?_
    have hv := checkVar_ok hv
    have hw := checkVar_ok hw
    split
    · exact .pure _
    · rename_i hne
      refine .look (hm.answered_levelOf hv) fun k hk => .look (hm.answered_levelOf hw) fun l hl => ?_
      have hk := levelOf_ok hk
      have hl := levelOf_ok hl
      split
      · rename_i hlt
        exact .rearrange hm (Reordering.Guided.exchangeAcross _ _ _ _).walks fun _ hs ho =>
          (Reordering.Achieves.exchangeLevels hs (ho ▸ hk) (ho ▸ hl) hlt).answers
      · rename_i hge
        have hlt := hm.order.lt_of_not_lt hk hl hne hge
        exact .rearrange hm (Reordering.Guided.exchangeAcross _ _ _ _).walks fun _ hs ho =>
          (Reordering.Achieves.exchangeLevels hs (ho ▸ hl) (ho ▸ hk) hlt).answers

theorem Answers.setVarOrder (hm : m.Ready) (vars : List Var) :
    Answers m (Manager.setVarOrder vars) := by
  refine .get ?_
  split
  · exact .fail _
  · split
    · exact .fail _
    · rename_i hperm
      have hperm := isPermutation_iff.mp (by simpa using hperm)
      have hperm := hperm.trans hm.order.toList_perm.symm
      exact .rearrange hm (Reordering.Guided.imposeFrom _ _).walks fun _ hs ho =>
        (Reordering.Achieves.imposeFrom (A := []) hs rfl rfl (ho ▸ hperm)).answers

/-! ### Operator calls -/

theorem Answers.autoReorder (hm : m.Ready) (hforest : m.forest.Nested)
    (ho : ∀ id ∈ operands, m.diagram.Live id) : Answers m (Manager.autoReorder operands) := by
  have hsearch := Answers.search (hm.equip ho) hforest m.auto.method
  intro m' hrun
  unfold Manager.autoReorder at hrun
  split at hrun
  · dsimp only at hrun
    split at hrun
    · cases hrun
    · rename_i hx
      exact hsearch _ hx
    · cases hrun
  · cases hrun

/-- An attempt that nothing interrupts has an answer. -/
theorem Answers.attemptOnce (hm : m.Ready) (ho : ∀ id ∈ operands, m.diagram.Live id)
    {Q : NodeId → Manager → Prop} (hp : p.Works operands Q m) (harmed : m.auto.isArmed = false) :
    Answers m (Manager.attemptOnce operands p) := by
  intro m' hrun
  unfold Manager.attemptOnce at hrun
  split at hrun
  · cases hrun
  · rename_i e m₁ hx
    obtain ⟨rfl, -⟩ := EStateM.Result.error.inj hrun
    exact (attempt_error hm ho hp hx).1.ne_fault rfl
  · rename_i m₁ hx
    exact attempt_ne_reorder operands p harmed hx

theorem Answers.perform (hm : m.Ready) (hforest : m.forest.Nested) {Q : NodeId → Manager → Prop}
    (hp : (∀ id ∈ operands, m.diagram.Live id) → p.Works operands Q m)
    (again : m.reorderReady = true → (∀ id ∈ operands, m.diagram.Live id) →
      ∀ m', Completes m operands m' → p.Works operands Q m') :
    Answers m (Manager.perform operands p) := by
  refine .look (answered_checkNodes m operands) fun _ hcheck => ?_
  have ho := checkNodes_ok hm.toSound hcheck
  have hp := hp ho
  intro m' hrun
  dsimp only at hrun
  rcases hx : attempt operands p m with ⟨res, m₁⟩ | ⟨_ | e, m₁⟩
  · simp only [hx] at hrun
    cases hrun
  · simp only [hx] at hrun
    obtain ⟨-, hc₁, hready⟩ := attempt_error hm ho hp hx
    have hreleased := attempt_released operands p m
    rw [hx] at hreleased
    -- The attempt gave way to reordering, after which the program runs once more.
    have hrestart := Ensures.restart hm ho hp hx
    have hrest : Answers m₁ (do
        Manager.autoReorder operands
        Action.withoutReorder (Manager.attemptOnce operands p)) := by
      refine (Answers.autoReorder hc₁.ready (hreleased.1.forest ▸ hforest)
        (hc₁.live hm ho)).bind fun _ m₂ hm₂ => ?_
      rw [Ensures, hm₂] at hrestart
      obtain ⟨hc₂, ho₂⟩ := hrestart
      exact .withoutReorder (.attemptOnce hc₂.ready ho₂ (again (hready rfl) ho _ hc₂)
        (AutoReorder.isArmed_disable _))
    exact hrest m' hrun
  · simp only [hx] at hrun
    obtain ⟨rfl, -⟩ := EStateM.Result.error.inj hrun
    exact (attempt_error hm ho hp hx).1.ne_fault rfl

/-- An operator call has an answer if the check of its arguments has one. -/
theorem Answers.call (hm : m.Ready) (hforest : m.forest.Nested) {r : Request} (hr : r.Fulfilled)
    (hcheck : Answered (r.check m)) : Answers m (Manager.call r) := by
  refine .look hcheck fun _ hcheck => ?_
  have hr := hr m hm hcheck
  rcases htask : r.task with f | ⟨operands, p, exclusive⟩
  · exact .pure _
  · rw [htask] at hr
    cases exclusive
    · exact .perform hm hforest (fun ho => hr ho m (.refl hm _) nofun)
        fun _ ho m' hc => hr ho m' hc nofun
    · have hc : Completes m operands { m with auto := m.auto.disable } :=
        (Completes.refl hm operands).setAuto _
      refine .withoutReorder (.perform hc.ready hforest (fun ho => hr ho _ hc fun _ => ⟨_, rfl⟩)
        fun hready => ?_)
      rw [reorderReady_disable] at hready
      cases hready

/-! ### Variables, garbage and counts -/

theorem Answers.addVariables (hm : m.Ready) (count : Nat) :
    Answers m (Manager.addVariables count) := by
  have hadds := Build.Adds.addVariables hm.extendable.extending count
  intro m' hrun
  unfold Manager.addVariables at hrun
  split at hrun
  · cases hrun
  · rename_i e m₁ hx
    obtain ⟨rfl, -⟩ := EStateM.Result.error.inj hrun
    rw [Build.Adds, hx] at hadds
    rcases hadds.1 with h | h <;> cases h
  · rename_i m₁ hx
    exact (Build.Steady.addVariables count).ne_reorder (AutoReorder.isArmed_disable _) hx

theorem Answers.setVarNum (hm : m.Ready) (num : Nat) : Answers m (Manager.setVarNum num) := by
  refine .get ?_
  dsimp only
  split
  · exact .fail _
  · split
    · exact .fail _
    · split
      · exact .pure _
      · exact .addVariables hm _

theorem Answers.extVarNum (hm : m.Ready) (extra : Nat) : Answers m (Manager.extVarNum extra) := by
  refine .get ?_
  dsimp only
  split
  · exact .fail _
  · exact (Answers.setVarNum hm _).bind fun _ _ _ => .pure _

theorem Answers.protect (f : NodeId) : Answers m (Manager.protect f) :=
  .look (answered_checkNode m f) fun _ _ => (Answers.update _).bind fun _ _ _ => .pure _

theorem Answers.gc (hm : m.Ready) : Answers m Manager.gc := by
  obtain ⟨freed, m₁, hcollect, -⟩ := exists_collect hm.store hm.reduced
    fun r hr => hm.rooted (mem_rootNodes.mp hr).2
  intro m' hrun
  rw [Manager.gc, hcollect] at hrun
  cases hrun

theorem Answers.count {p : Program Float} (h : p.Declines m ∨ ∃ x, p.Counts m x) :
    Answers m (Manager.count p) := by
  intro m' hcount
  unfold Manager.count at hcount
  rcases h with h | ⟨x, hx⟩
  · obtain ⟨e, he⟩ := h.run
    rw [he] at hcount
    cases hcount
  · obtain ⟨m₁, hrun⟩ := hx.ends
    rw [hrun] at hcount
    cases hcount

/-! ### Pairings and blocks -/

theorem Answers.updatePairings {f : Manager → Option Pairings} {p : Pairings} (h : f m = some p) :
    Answers m (Manager.updatePairings f) := by
  intro m' hrun
  rw [Manager.updatePairings, h] at hrun
  cases hrun

theorem Answers.setPair (hm : m.Ready) {number : Nat} (hnumber : number < m.pairings.tables.size)
    (old new : Var) : Answers m (Manager.setPair number old new) := by
  refine .look (answered_checkVar m old) fun _ hold => .look (answered_checkVar m new) fun _ hnew =>
    .look (hm.answered_levelOf (checkVar_ok hold)) fun level _ => ?_
  obtain ⟨q, hq⟩ := hm.exists_literals (checkVar_ok hnew)
  obtain ⟨p, hp⟩ := Pairings.exists_update hnumber _
  exact .updatePairings (by rw [hq]; exact hp)

theorem Answers.setPairNode (hm : m.Ready) {number : Nat}
    (hnumber : number < m.pairings.tables.size) (old : Var) (g : NodeId) :
    Answers m (Manager.setPairNode number old g) := by
  refine .look (answered_checkVar m old) fun _ hold => .look (answered_checkNode m g) fun _ _ =>
    .look (hm.answered_levelOf (checkVar_ok hold)) fun level _ => ?_
  obtain ⟨p, hp⟩ := Pairings.exists_update hnumber _
  exact .updatePairings hp

theorem Answers.addVarBlock (first last : Var) (fixed : Bool) :
    Answers m (Manager.addVarBlock first last fixed) := by
  refine .look (answered_checkVar m first) fun _ _ => .look (answered_checkVar m last) fun _ _ =>
    .get ?_
  dsimp only
  split
  · exact .fail _
  · split
    · exact .fail _
    · exact .update _

/-! ### Settings -/

theorem Answers.setMaxNodes (limit : Nat) : Answers m (Manager.setMaxNodes limit) := by
  refine .get ?_
  split
  · exact .fail _
  · exact .previous _ _

theorem Answers.setIncreaseFactor (factor : Float) : Answers m (Manager.setIncreaseFactor factor) := by
  unfold Manager.setIncreaseFactor
  split
  · exact .fail _
  · exact .previous _ _

theorem Answers.setMinFreePercent (percent : Nat) :
    Answers m (Manager.setMinFreePercent percent) := by
  unfold Manager.setMinFreePercent
  split
  · exact .fail _
  · exact .previous _ _

theorem Answers.setCacheBits (bits : Nat) : Answers m (Manager.setCacheBits bits) := by
  unfold Manager.setCacheBits
  split
  · exact .fail _
  · exact .previous _ _

end Action

namespace Command

variable {m : Manager} {c : Command} {r : Request}

/-- The pairing that a command names. -/
def pairing? : Command → Option Nat
  | vecCompose _ number => some number
  | replace _ number => some number
  | setPair number _ _ => some number
  | setPairNode number _ _ => some number
  | resetPairing number => some number
  | _ => none

/-- The command is not the one that lists nodes without a look at its arguments, and it names no pairing
but one that there is. -/
structure Issued (m : Manager) (c : Command) : Prop where
  looks : ∀ fs, c ≠ descendants fs
  pairing : ∀ number, c.pairing? = some number → number < m.pairings.tables.size

/-- The check of the arguments has an answer for every operator. -/
theorem answered_check (hm : m.Ready) (hc : c.Issued m) (h : c.request? = some r) :
    Answered (r.check m) := by
  have paired : ∀ f number, c.pairing? = some number →
      Answered (do m.checkNode f; let _ ← m.pairing number) := fun f number hnumber =>
    (answered_checkNode m f).bind fun _ _ =>
      (answered_pairing (hc.pairing number hnumber)).bind fun _ _ => .ok _
  -- Each request has a check of its own; the rest have none.
  cases c <;> cases h
  case makeNode level low high =>
    have child : ∀ f, Answered (m.checkChild level f) := fun f =>
      (answered_checkNode m f).bind fun _ hf =>
        (hm.answered_node ((checkNode_eq hm.store).mp hf)).bind fun _ _ => by
          split
          · exact .error _
          · exact .ok _
    unfold Request.makeNode
    dsimp only
    split
    · exact .error _
    · exact (child low).bind fun _ _ => child high
  case makeSet vars => exact answered_checkVars m vars
  case compose f g v => exact answered_checkVar m v
  case vecCompose f number => exact paired f number rfl
  case replace f number => exact paired f number rfl
  case quantify q f cube =>
    unfold Request.quantify
    split
    · exact answered_checkNode m f
    · exact .ok _
  case appQuantify q op f g cube =>
    unfold Request.appQuantify
    split
    · exact .ok _
    · exact .ok _
  case restrict f cube =>
    unfold Request.restrict
    split
    · exact answered_checkNode m f
    · exact .ok _
  case satOne f =>
    unfold Request.satOne
    split
    · exact .ok _
    · exact .ok _
  case satOneSet f cube polarity =>
    have check : Answered (do
        m.checkNode cube
        if cube.isBot then throw (Failure.error (.illegalVarSet cube))) :=
      (answered_checkNode m cube).bind fun _ _ => by
        split
        · exact .error _
        · exact .ok _
    unfold Request.satOneSet
    dsimp only
    split
    · exact check
    · exact check
  case fullSatOne f =>
    unfold Request.fullSatOne
    split
    · exact answered_checkNode m f
    · exact .ok _
  all_goals exact .ok _

open DecisionDiagram.Action in
/-- Every command has an answer. -/
theorem answers (hm : m.Ready) (hforest : m.forest.Nested) (hc : c.Issued m) :
    Action.Answers m c.perform := by
  rcases hr : c.request? with _ | r
  case some =>
    rw [perform_of_request hr]
    exact (Answers.call hm hforest (fulfilled hr) (answered_check hm hc hr)).map
  rcases hp : c.count? with _ | p
  case some =>
    rw [perform_of_count hp]
    exact (Answers.count (counts hp hm.toSound)).map
  have hsound := hm.toSound
  cases c with
  | setVarNum num => exact (Answers.setVarNum hm num).map
  | extVarNum extra => exact (Answers.extVarNum hm extra).map
  | ithVar v => exact (Answers.read ((hsound.answered_literalsOf v).bind fun _ _ => .ok _)).map
  | nithVar v => exact (Answers.read ((hsound.answered_literalsOf v).bind fun _ _ => .ok _)).map
  | varToLevel v => exact (Answers.read (hsound.answered_varToLevel v)).map
  | levelToVar level => exact (Answers.read (hsound.answered_levelToVar level)).map
  | levelOf f => exact (Answers.read (hsound.answered_levelOfNode f)).map
  | varOf f => exact (Answers.read (hsound.answered_varOf f)).map
  | low f => exact (Answers.read (hsound.answered_low f)).map
  | high f => exact (Answers.read (hsound.answered_high f)).map
  | protect f => exact (Answers.protect f).map
  | release f => exact (Answers.previous _ _).map
  | gc => exact (Answers.gc hm).map
  | newPairing => exact (Answers.previous _ _).map
  | setPair number old new => exact (Answers.setPair hm (hc.pairing number rfl) old new).map
  | setPairNode number old g => exact (Answers.setPairNode hm (hc.pairing number rfl) old g).map
  | resetPairing number =>
    obtain ⟨p, hp⟩ := Pairings.exists_update (hc.pairing number rfl) _
    exact (Answers.updatePairings hp).map
  | eval f assignment => exact (Answers.read (hsound.answered_eval f assignment)).map
  | allSat f limit => exact (Answers.read (hsound.answered_allSat f limit)).map
  | satCountExact f => exact (Answers.read (hsound.answered_satCountExact f)).map
  | nodeCount f => exact (Answers.read (hsound.answered_nodeCount f)).map
  | nodeCountMany fs => exact (Answers.read (hsound.answered_nodeCountMany fs)).map
  | varProfile f => exact (Answers.read (hsound.answered_varProfile f)).map
  | descendants fs => exact absurd rfl (hc.looks fs)
  | validate f => exact (Answers.read (hsound.answered_validate f)).map
  | validateAll => exact (Answers.read (.of_eq hsound.validateAll_eq_ok)).map
  | reorder method => exact (Answers.reorder hm hforest method).map
  | setAutoReorder method times => exact (Answers.previous _ _).map
  | disableReorder => exact (Answers.update _).map
  | enableReorder => exact (Answers.update _).map
  | swapVar v w => exact (Answers.swapVar hm v w).map
  | setVarOrder vars => exact (Answers.setVarOrder hm vars).map
  | addVarBlock first last fixed => exact (Answers.addVarBlock first last fixed).map
  | clearVarBlocks => exact (Answers.update _).map
  | clearError => exact (Answers.update _).map
  | setMaxNodes limit => exact (Answers.setMaxNodes limit).map
  | setMaxIncrease increase => exact (Answers.previous _ _).map
  | setIncreaseFactor factor => exact (Answers.setIncreaseFactor factor).map
  | setMinFreePercent percent => exact (Answers.setMinFreePercent percent).map
  | setCacheRatio ratio => exact (Answers.previous _ _).map
  | setCachePolicy policy => exact (Answers.previous _ _).map
  | setCacheBits bits => exact (Answers.setCacheBits bits).map
  | satCount => cases hp
  | satCountSet => cases hp
  | pathCount => cases hp
  | _ => cases hr

theorem run_ne_fault (hm : m.Ready) (hforest : m.forest.Nested) (hc : c.Issued m) :
    (c.run m).1 ≠ .error .fault := by
  intro h
  rw [run] at h
  split at h
  · cases h
  · rename_i e m' hx
    obtain rfl := Except.error.inj h
    exact answers hm hforest hc m' hx

end Command

end DecisionDiagram
