/-
What every call achieves.

Between two calls nothing is pending and there are no operands (`Manager.Ready`).

* `Manager.Retains` — what a call leaves as it is, above all the values of the nodes that the manager
  names;
* `Action.Ensures` — the specification of a call, for each of its outcomes but a fault;
* `Action.Ensures.session` — a session with safe work;
* `Action.Ensures.call` — an operator call, whatever collection, growth or reordering it goes through;
  if it fails, it has changed nothing or its work has broken off (`Manager.Refused`);
* `Action.Attempts` — the runs of its program in the course of a call.
-/
import DecisionDiagram.Call
import DecisionDiagram.Proofs.Program
import DecisionDiagram.Proofs.Evaluation
import DecisionDiagram.Proofs.Reorder.Search
import DecisionDiagram.Proofs.Reorder.Start
import DecisionDiagram.Proofs.Substitutes

namespace DecisionDiagram

namespace Manager

variable {m m' m'' : Manager} {R : NodeId → Prop} {operands : List NodeId}

/-! ### Between two calls -/

theorem Sound.aligned (h : m.Sound) : m.Aligned := ⟨h.order, h.literals_size, h.pairings⟩

/-- What holds of a manager before and after every call. -/
structure Ready (m : Manager) : Prop extends Sound m where
  pending : m.pending = []
  operands : m.operands = []

/-- A call that fails has changed nothing, or its work has broken off. -/
def Refused (m : Manager) (e : Error) (m' : Manager) : Prop := m' = m ∨ (Interrupt.error e).Regular

theorem Refused.refl (m : Manager) (e : Error) : m.Refused e m := .inl rfl

/-- What a piece of a call leaves as it is; `R` are nodes that it has to keep besides. -/
structure Retains (R : NodeId → Prop) (m m' : Manager) : Prop where
  varNum : m.varNum ≤ m'.varNum
  literals : ∀ {v : Var} {p}, m.literals[v]? = some p → m'.literals[v]? = some p
  named : ∀ {id}, m.Named id → m'.Named id
  carries : m.Carries none m'
  value : ∀ {id a b}, R id ∨ m.Named id → m.Value a id b → m'.Value a id b

/-- Nothing matters but the nodes, the order and the names. -/
theorem Retains.of_eq (hs : m'.store = m.store) (ho : m'.order = m.order)
    (hl : m'.literals = m.literals) (hr : m'.roots = m.roots) (hp : m'.pairings = m.pairings) :
    m.Retains R m' where
  varNum := Nat.le_of_eq (congrArg VarOrder.size ho.symm)
  literals hq := by rwa [hl]
  named hid := by rwa [Named, hr, hl, hp]
  carries := .of_eq ho hp hl
  value _ hb := by rwa [Value, diagram, hs, ho]

theorem Retains.refl (R : NodeId → Prop) (m : Manager) : m.Retains R m := .of_eq rfl rfl rfl rfl rfl

theorem Retains.trans (h : m.Retains R m') (h' : m'.Retains R m'') : m.Retains R m'' where
  varNum := Nat.le_trans h.varNum h'.varNum
  literals hp := h'.literals (h.literals hp)
  named hid := h'.named (h.named hid)
  carries := h.carries.trans h'.carries h'.literals
  value hid hb := h'.value (hid.imp_right h.named) (h.value hid hb)

theorem Retains.mono {S : NodeId → Prop} (h : m.Retains R m') (hS : ∀ id, S id → R id) :
    m.Retains S m' :=
  ⟨h.varNum, h.literals, h.named, h.carries, fun hid => h.value (hid.imp_left (hS _))⟩

/-- Nodes with the same values evaluate to the same. -/
theorem Retains.follows (h : m.Retains R m') (hc : m.Coherent m.varNum) (ho : m.order.Valid)
    (hc' : m'.Coherent m'.varNum) (ho' : m'.order.Valid) : m.Follows m' where
  varNum := h.varNum
  literals := h.literals
  eval hid ha hb :=
    (hc'.eval_iff ho').mpr ⟨ha, h.value (.inr hid) ((hc.eval_iff ho).mp hb).2⟩

/-- Kept nodes keep their values while a manager evolves. -/
theorem Evolves.value (h : m.Evolves m') {id : NodeId} (hid : m.Kept id) {a : Var → Bool} {b : Bool}
    (hb : m.Value a id b) : m'.Value a id b := by
  rw [Value, h.order]
  exact h.eval hid hb

theorem Evolves.follows {bound bound' : Nat} (h : m.Evolves m') (hc : m.Coherent bound)
    (hc' : m'.Coherent bound') : m.Follows m' where
  varNum := Nat.le_of_eq h.varNum.symm
  literals hp := by rwa [h.literals]
  eval hid _ hb := by
    rwa [eval_congr (kept_closed m) (fun _ => hc.kept_live) h.kept h.order hc.store hc'.store
      (kept_of_rooted hid.rooted)]

theorem Evolves.retains (h : m.Evolves m') (hR : ∀ id, R id → m.Kept id) : m.Retains R m' where
  varNum := Nat.le_of_eq h.varNum.symm
  literals hp := by rwa [h.literals]
  named hid := by rwa [Named, h.roots, h.literals, h.pairings]
  carries := .of_eq h.order h.pairings h.literals
  value hid hb := h.value (hid.elim (hR _) fun hn => kept_of_rooted hn.rooted) hb

/-- A manager stays sound when other nodes are pending and operands, as long as they are live. -/
theorem Sound.setKept (h : m.Sound) (pending operands : List NodeId)
    (hp : ∀ id ∈ pending, m.diagram.Live id) (ho : ∀ id ∈ operands, m.diagram.Live id) :
    Sound { m with pending, operands } where
  store := h.store
  reduced := h.reduced
  table := h.table
  rooted hid := by
    rcases hid with hid | hid | hid
    · exact hp _ hid
    · exact ho _ hid
    · exact h.rooted (.inr (.inr hid))
  computed := h.computed
  error := h.error
  order := h.order
  terminals := h.terminals
  literals_size := h.literals_size
  literals := h.literals
  pairings := h.pairings

theorem Sound.ready (h : m.Sound) : Ready { m with pending := [], operands := [] } :=
  ⟨h.setKept [] [] (by simp) (by simp), rfl, rfl⟩

/-- Nothing else depends on the automatic reordering. -/
theorem Sound.setAuto (h : m.Sound) (auto : AutoReorder) : Sound { m with auto } :=
  ⟨⟨h.store, h.reduced, h.table, h.rooted, h.computed, h.error⟩, h.order, h.terminals,
    h.literals_size, h.literals, h.pairings⟩

theorem Ready.setAuto (h : m.Ready) (auto : AutoReorder) : Ready { m with auto } :=
  ⟨h.toSound.setAuto auto, h.pending, h.operands⟩

end Manager

/-! ### Specifications of calls -/

namespace Action

open Manager

variable {α β : Type} {m : Manager} {Q : α → Manager → Prop} {E : Error → Manager → Prop}

theorem bind_ok {x : Action α} {f : α → Action β} {m' : Manager} {a : α} (h : x m = .ok a m') :
    (x >>= f) m = f a m' := by
  show EStateM.bind x f m = _
  rw [EStateM.bind, h]

theorem bind_error {x : Action α} {f : α → Action β} {m' : Manager} {e : Failure}
    (h : x m = .error e m') : (x >>= f) m = .error e m' := by
  show EStateM.bind x f m = _
  rw [EStateM.bind, h]

theorem of_read_eq_ok {f : Manager → Except Failure α} {m' : Manager} {a : α}
    (h : Action.read f m = .ok a m') : m' = m ∧ f m = .ok a := by
  rw [Action.read] at h
  split at h
  · rename_i ha
    obtain ⟨rfl, rfl⟩ := EStateM.Result.ok.inj h
    exact ⟨rfl, ha⟩
  · cases h

/-- A call with a result satisfies `Q`, and a failed one satisfies `E`, unless there is a fault. -/
def Ensures (m : Manager) (x : Action α) (Q : α → Manager → Prop) (E : Error → Manager → Prop) :
    Prop :=
  match x m with
  | .ok a m' => Q a m'
  | .error (.error e) m' => E e m'
  | .error .fault _ => True

theorem Ensures.congr {x y : Action α} {m' : Manager} (h : Ensures m' y Q E) (hxy : x m = y m') :
    Ensures m x Q E := by
  rw [Ensures, hxy]
  exact h

theorem Ensures.pure {a : α} (h : Q a m) : Ensures m (Pure.pure a) Q E := h

theorem Ensures.bind {x : Action α} {f : α → Action β} {P : β → Manager → Prop}
    (h : Ensures m x Q E) (hf : ∀ a m', Q a m' → Ensures m' (f a) P E) :
    Ensures m (x >>= f) P E := by
  rcases hx : x m with ⟨a, m'⟩ | ⟨e, m'⟩
  · rw [Ensures, hx] at h
    exact (hf a m' h).congr (bind_ok hx)
  · rw [Ensures, hx] at h
    rw [Ensures, bind_error hx]
    cases e with
    | error e => exact h
    | fault => trivial

theorem Ensures.mono {x : Action α} {Q' : α → Manager → Prop} {E' : Error → Manager → Prop}
    (h : Ensures m x Q E) (hQ : ∀ a m', Q a m' → Q' a m') (hE : ∀ e m', E e m' → E' e m') :
    Ensures m x Q' E' := by
  unfold Ensures at h ⊢
  split <;> rename_i hx <;> rw [hx] at h
  · exact hQ _ _ h
  · exact hE _ _ h
  · trivial

theorem Ensures.get {k : Manager → Action α} (h : Ensures m (k m) Q E) :
    Ensures m (MonadState.get >>= k) Q E := h.congr rfl

theorem Ensures.inspect {f : Manager → Except Failure α} {k : α → Action β} {P : β → Manager → Prop}
    (hE : ∀ e, f m = .error (.error e) → E e m) (h : ∀ a, f m = .ok a → Ensures m (k a) P E) :
    Ensures m (Action.read f >>= k) P E := by
  have hread : Ensures m (Action.read f) (fun a m' => m' = m ∧ f m = .ok a) E := by
    unfold Ensures Action.read
    rcases hf : f m with (e | _) | a
    · exact hE e hf
    · trivial
    · exact ⟨rfl, rfl⟩
  refine hread.bind fun a m' hok => ?_
  rw [hok.1]
  exact h a hok.2

theorem Ensures.read {f : Manager → Except Failure α} {k : α → Action β} {P : β → Manager → Prop}
    (hE : ∀ e, E e m) (h : ∀ a, f m = .ok a → Ensures m (k a) P E) :
    Ensures m (Action.read f >>= k) P E := .inspect (fun e _ => hE e) h

theorem Ensures.read_ok {f : Manager → Except Failure α} {k : α → Action β} {P : β → Manager → Prop}
    {a : α} (ha : f m = .ok a) (h : Ensures m (k a) P E) : Ensures m (Action.read f >>= k) P E :=
  .inspect (fun _ he => by rw [ha] at he; cases he) fun _ ha' => Except.ok.inj (ha.symm.trans ha') ▸ h

theorem Ensures.fail {e : Error} (h : E e m) : Ensures m (Action.fail e : Action α) Q E := h

/-- The work is done with the automatic reordering switched off, which nothing depends on. -/
theorem Ensures.withoutReorder {x : Action α} {Q' : α → Manager → Prop}
    {E' : Error → Manager → Prop} (h : Ensures { m with auto := m.auto.disable } x Q E)
    (hQ : ∀ a m', Q a m' → Q' a { m' with auto := m'.auto.enable })
    (hE : ∀ e m', E e m' → E' e { m' with auto := m'.auto.enable }) :
    Ensures m (Action.withoutReorder x) Q' E' := by
  unfold Ensures at h ⊢
  rcases hx : x { m with auto := m.auto.disable } with ⟨a, m'⟩ | ⟨e, m'⟩
  · rw [hx] at h
    simp only [Action.withoutReorder, hx]
    exact hQ a m' h
  · rw [hx] at h
    simp only [Action.withoutReorder, hx]
    cases e with
    | error e => exact hE e m' h
    | fault => trivial

end Action

namespace Manager

variable {m m' : Manager} {operands : List NodeId} {body : Reordering Unit}

/-! ### Sessions -/

/-- What a session achieves: all nodes that the manager names, or that a call holds, keep their
values. -/
structure Rearranged (m m' : Manager) : Prop where
  sound : m'.Sound
  retains : m.Retains m.Rooted m'
  pending : m'.pending = m.pending
  operands : m'.operands = m.operands

theorem Rearranged.setError (h : m.Rearranged m') :
    m.Rearranged { m' with error := some .nodeLimit } :=
  ⟨⟨⟨h.sound.store, h.sound.reduced, h.sound.table, h.sound.rooted, h.sound.computed, .inr rfl⟩,
    h.sound.order, h.sound.terminals, h.sound.literals_size, h.sound.literals, h.sound.pairings⟩,
    h.retains.trans (.of_eq rfl rfl rfl rfl rfl), h.pending, h.operands⟩

/-- A session is opened, its work advances, and it is closed. -/
theorem Sound.rearranged (hm : m.Sound) {roots : List NodeId}
    (hroots : ∀ r, r ∈ roots ↔ r ∈ m.rootNodes) {s s' : Session} {stats : ReorderStats}
    (hs : Session.start m roots = some s)
    (ha : s.Sound → Reordering.Advances s s') (hf : s'.finish = some (stats, m')) :
    m.Rearranged m' := by
  obtain ⟨hsound, hopen⟩ := hm.start hroots hs
  obtain ⟨hsound', hkeeps⟩ := ha hsound
  obtain ⟨hm', hclose⟩ := hsound'.finish hf
  have hmanager := hopen.manager
  have hliterals : m'.literals = m.literals := by
    rw [hclose.literals, hkeeps.literals, hmanager]
  have hroots : m'.roots = m.roots := by
    rw [hclose.roots, hkeeps.roots, hmanager]
  have hpairings : ∀ id, id ∈ m'.pairings.nodes ↔ id ∈ m.pairings.nodes := by
    intro id
    rw [hclose.pairings, hkeeps.pairings, hmanager]
  have hvar : m'.varNum = m.varNum := by
    have hv := hkeeps.varNum
    rw [hmanager] at hv
    rw [varNum, hclose.order]
    exact hv
  -- Names and values go through the opening, the moves and the closing in turn.
  refine ⟨hm', ⟨Nat.le_of_eq hvar.symm, fun hp => by rwa [hliterals], fun {id} hid => ?_, ?_,
    fun {id a b} hid hb => ?_⟩, ?_, ?_⟩
  · rwa [Named, hroots, hliterals, hpairings]
  · refine .of_carried ?_ hliterals
    have hcarried := hkeeps.carried
    rw [hmanager] at hcarried
    rw [hclose.order, hclose.pairings]
    exact hcarried
  · have hid : m.Rooted id := hid.elim (fun h => h) Named.rooted
    have hrooted := hopen.rooted.mpr hid
    exact hclose.value (hkeeps.rooted.mpr hrooted) (hkeeps.value hrooted (hopen.value hid hb))
  · rw [hclose.pending, hkeeps.pending, hmanager]
  · rw [hclose.operands, hkeeps.operands, hmanager]

/-- A session fails for want of room only. -/
theorem Sound.session (hm : m.Sound) (hb : Reordering.Safe body) :
    Action.Ensures m (session body) (fun _ m' => m.Rearranged m') fun e m' =>
      e = .nodeLimit ∧ m.Rearranged m' := by
  unfold Action.Ensures Manager.session
  rcases hs : Session.start m m.rootNodes with _ | s
  · trivial
  · dsimp only
    have hbody : s.Sound → _ := fun h => hb s h
    rcases hx : body s with ⟨_, s'⟩ | ⟨e | _, s'⟩
    · have ha : s.Sound → Reordering.Advances s s' := fun h => by
        have := hbody h
        rwa [Reordering.Ensures, hx] at this
      dsimp only
      rcases hf : s'.finish with _ | ⟨stats, m'⟩
      · trivial
      · exact hm.rearranged (fun _ => .rfl) hs ha hf
    · have ha : s.Sound → e = .nodeLimit ∧ Reordering.Advances s s' := fun h => by
        have := hbody h
        rwa [Reordering.Ensures, hx] at this
      obtain rfl := (ha (hm.start (fun _ => .rfl) hs).1).1
      dsimp only
      rcases hf : s'.finish with _ | ⟨stats, m'⟩
      · trivial
      · exact ⟨rfl, (hm.rearranged (fun _ => .rfl) hs (fun h => (ha h).2) hf).setError⟩
    · trivial

/-! ### Operator calls -/

/-- What an operator call achieves, up to its answer. -/
structure Completes (m : Manager) (operands : List NodeId) (m' : Manager) : Prop where
  ready : m'.Ready
  retains : m.Retains (· ∈ operands) m'

theorem Completes.refl (hm : m.Ready) (operands : List NodeId) : Completes m operands m :=
  ⟨hm, .refl _ m⟩

theorem Completes.follows (hm : m.Ready) (h : Completes m operands m') : m.Follows m' :=
  h.retains.follows hm.toCoherent hm.order h.ready.toCoherent h.ready.order

/-- What every call hands on, even one that ends early. -/
structure Passes (edited : Option Nat) (m m' : Manager) : Prop where
  follows : m.Follows m'
  carries : m.Carries edited m'
  aligned : m'.Aligned

theorem Completes.passes (hm : m.Ready) (h : Completes m operands m') (edited : Option Nat) :
    m.Passes edited m' :=
  ⟨h.follows hm, h.retains.carries.mono edited, h.ready.aligned⟩

theorem Completes.forget (h : Completes m operands m') : Completes m [] m' :=
  ⟨h.ready, h.retains.mono fun _ hid => by cases hid⟩

theorem Completes.setAuto (h : Completes m operands m') (auto : AutoReorder) :
    Completes m operands { m' with auto } :=
  ⟨h.ready.setAuto auto, h.retains.trans (.of_eq rfl rfl rfl rfl rfl)⟩

theorem Completes.trans {m'' : Manager} (h : Completes m operands m')
    (h' : Completes m' operands m'') : Completes m operands m'' :=
  ⟨h'.ready, h.retains.trans h'.retains⟩

theorem Sound.equip (hm : m.Sound) (ho : ∀ id ∈ operands, m.diagram.Live id) :
    (m.equip operands).Sound := hm.setKept [] operands (by simp) ho

theorem retains_equip (operands : List NodeId) : m.Retains R (m.equip operands) :=
  .of_eq rfl rfl rfl rfl rfl

theorem kept_equip {id : NodeId} (h : id ∈ operands) : (m.equip operands).Kept id :=
  kept_of_rooted (.inr (.inl h))

theorem Completes.live (h : Completes m operands m') (hm : m.Ready)
    (ho : ∀ id ∈ operands, m.diagram.Live id) : ∀ id ∈ operands, m'.diagram.Live id := by
  intro id hid
  obtain ⟨b, hb⟩ := hm.exists_value (ho id hid) fun _ => false
  exact (h.retains.value (.inl hid) hb).live

/-- No reordering may start while the automatic reordering is switched off. -/
theorem reorderReady_disable (m : Manager) :
    Manager.reorderReady { m with auto := m.auto.disable } = false := by
  simp [reorderReady, AutoReorder.isArmed, AutoReorder.disable]

/-- What the operator evolves into is what the call leaves, when the operands are dropped. -/
theorem Evolves.completes (hm : m.Sound) (ho : ∀ id ∈ operands, m.diagram.Live id)
    (he : (m.equip operands).Evolves m') (hc : m'.Coherent m.varNum) :
    Completes m operands { m' with pending := [], operands := [] } := by
  have hr := he.retains (R := (· ∈ operands)) fun id hid => kept_equip hid
  exact ⟨((hm.equip ho).evolves he hc).ready,
    ((retains_equip operands).trans hr).trans (.of_eq rfl rfl rfl rfl rfl)⟩

/-- The manager in which a call that no reordering may interrupt performs its program. -/
def barred (exclusive : Bool) (m : Manager) : Manager :=
  if exclusive then { m with auto := m.auto.disable } else m

theorem completes_barred (hm : m.Ready) (operands : List NodeId) (exclusive : Bool) :
    m.Completes operands (m.barred exclusive) ∧
      (exclusive = true → ∃ auto, m.barred exclusive = { m with auto }) := by
  cases exclusive
  · exact ⟨.refl hm _, nofun⟩
  · exact ⟨(Completes.refl hm operands).setAuto _, fun _ => ⟨_, rfl⟩⟩

theorem checkNodes_ok (hm : m.Sound) {ids : List NodeId} (h : m.checkNodes ids = .ok ()) :
    ∀ id ∈ ids, m.diagram.Live id := by
  induction ids with
  | nil => simp
  | cons id ids ih =>
    rw [checkNodes] at h
    split at h
    · cases h
    · rename_i hid
      intro j hj
      rcases List.mem_cons.mp hj with rfl | hj
      · refine hm.store.live_iff.mpr ?_
        unfold checkNode at hid
        split at hid
        · assumption
        · cases hid
      · exact ih h j hj

end Manager

/-- The program, attempted in the manager while the operands are kept, does its work: its answer is
live, and `Q` holds of it. -/
def Program.Works (p : Program NodeId) (operands : List NodeId) (Q : NodeId → Manager → Prop)
    (m : Manager) : Prop :=
  Program.Ensures m.varNum (m.equip operands) p (fun _ _ => True) (m.equip operands) fun res m' =>
    m'.diagram.Live res ∧ Q res m'

/-- Once the arguments have passed their check in the manager, the call has a live answer or a program
that does its work, also after a reordering, if one may interrupt it. -/
def Request.Meets (r : Request) (Q : NodeId → Manager → Prop) (m : Manager) : Prop :=
  r.check m = .ok () →
    match r.task with
    | .answer f => m.diagram.Live f ∧ Q f m
    | .perform operands p exclusive =>
      (∀ id ∈ operands, m.diagram.Live id) → ∀ m', m.Completes operands m' →
        (exclusive = true → ∃ auto, m' = { m with auto }) → p.Works operands Q m'

/-- Whenever the program of the request comes to be attempted, it does its work. -/
def Request.Fulfilled (r : Request) : Prop := ∀ m : Manager, m.Ready → r.Meets (fun _ _ => True) m

namespace Action

open Manager

variable {m m' : Manager} {operands : List NodeId} {p : Program NodeId}
  {Q : NodeId → Manager → Prop}

/-- The automatic reordering, while the operands are kept. -/
theorem Ensures.autoReorder (hm : m.Ready) (ho : ∀ id ∈ operands, m.diagram.Live id) :
    Ensures m (autoReorder operands) (fun _ m' => Completes m operands m') fun _ _ => False := by
  have hsession := (hm.equip ho).session (Reordering.Guided.reorderAll m.auto.method).walks.safe
  have hclose : ∀ {m'}, (m.equip operands).Rearranged m' → ∀ auto,
      Completes m operands { m' with operands := [], auto } := by
    intro m' h auto
    have hr := h.retains.mono (S := (· ∈ operands)) fun id hid => .inr (.inl hid)
    refine ⟨⟨(h.sound.setKept m'.pending [] ?_ (by simp)).setAuto auto,
      h.pending, rfl⟩, ((retains_equip operands).trans hr).trans (.of_eq rfl rfl rfl rfl rfl)⟩
    exact fun id hid => h.sound.rooted (.inl hid)
  unfold Ensures Manager.autoReorder
  by_cases hready : m.reorderReady = true
  · rw [if_pos hready]
    rcases hx : Manager.session (Reordering.reorderAll m.auto.method)
      { m with pending := [], operands } with ⟨stats, m'⟩ | ⟨e | _, m'⟩
    · rw [Ensures, Manager.equip, hx] at hsession
      exact hclose hsession _
    · rw [Ensures, Manager.equip, hx] at hsession
      exact hclose hsession.2 _
    · trivial
  · rw [if_neg hready]
    exact (Completes.refl hm _).setAuto _

/-- The postcondition does not depend on what is kept, nor on the automatic reordering. -/
def Unkept (Q : NodeId → Manager → Prop) : Prop :=
  ∀ {res : NodeId} {m : Manager}, Q res m → ∀ pending operands auto,
    Q res { m with pending, operands, auto }

theorem attempt_ok (hm : m.Ready) (ho : ∀ id ∈ operands, m.diagram.Live id)
    (hp : p.Works operands Q m) (hQ : Unkept Q) {res : NodeId}
    (h : attempt operands p m = .ok res m') :
    Completes m operands m' ∧ m'.diagram.Live res ∧ Q res m' := by
  have hrun := Program.Ensures.run hp
  unfold attempt at h
  rcases hx : p.run (m.equip operands) with ⟨res', m₁⟩ | ⟨i, m₁⟩
  · rw [hx] at h
    rw [Build.Ensures, hx] at hrun
    obtain ⟨rfl, rfl⟩ := EStateM.Result.ok.inj h
    obtain ⟨he, hc, hlive, hres⟩ := hrun
    exact ⟨Evolves.completes hm.toSound ho he hc, hlive, hQ hres _ _ _⟩
  · rw [hx] at h
    cases h

/-- An attempt that fails has broken off, and it is interrupted only when a reordering may start. -/
theorem attempt_error (hm : m.Ready) (ho : ∀ id ∈ operands, m.diagram.Live id)
    (hp : p.Works operands Q m) {i : Interrupt} (h : attempt operands p m = .error i m') :
    i.Regular ∧ Completes m operands m' ∧ (i = .reorder → m.reorderReady = true) := by
  have hrun := Program.Ensures.run hp
  unfold attempt at h
  rcases hx : p.run (m.equip operands) with ⟨res', m₁⟩ | ⟨i, m₁⟩
  · rw [hx] at h
    cases h
  · rw [hx] at h
    rw [Build.Ensures, hx] at hrun
    obtain ⟨rfl, rfl⟩ := EStateM.Result.error.inj h
    refine ⟨hrun.1, Evolves.completes hm.toSound ho hrun.2.1 hrun.2.2, ?_⟩
    rintro rfl
    have hready := Program.Ensures.interrupted hp hx
    exact hready

theorem Ensures.attemptOnce (hm : m.Ready) (ho : ∀ id ∈ operands, m.diagram.Live id)
    (hp : p.Works operands Q m) (hQ : Unkept Q) :
    Ensures m (attemptOnce operands p)
      (fun res m' => Completes m operands m' ∧ m'.diagram.Live res ∧ Q res m')
      fun e m' => (Interrupt.error e).Regular ∧ Completes m operands m' := by
  unfold Ensures Manager.attemptOnce
  rcases hx : attempt operands p m with ⟨res, m'⟩ | ⟨i, m'⟩
  · exact attempt_ok hm ho hp hQ hx
  · rcases i with _ | _ | _
    · trivial
    · obtain ⟨hregular, hc, -⟩ := attempt_error hm ho hp hx
      exact ⟨hregular, hc⟩
    · trivial

/-- After an interruption and a reordering, the program is attempted again in such a manager. -/
theorem Ensures.restart (hm : m.Ready) (ho : ∀ id ∈ operands, m.diagram.Live id)
    (hp : p.Works operands Q m) {m₁ : Manager} (hx : attempt operands p m = .error .reorder m₁) :
    Ensures m₁ (Manager.autoReorder operands)
      (fun _ m₂ => Completes m operands { m₂ with auto := m₂.auto.disable } ∧
        ∀ id ∈ operands, m₂.diagram.Live id) fun _ _ => False := by
  obtain ⟨-, hc, -⟩ := attempt_error hm ho hp hx
  refine (Ensures.autoReorder hc.ready (hc.live hm ho)).mono (fun _ m₂ hc₂ => ?_) fun _ _ h => h
  exact ⟨(hc.trans hc₂).setAuto _, (hc.trans hc₂).live hm ho⟩

/-- The program of a call is performed.  It starts over at most once, after a reordering. -/
theorem Ensures.perform (hm : m.Ready) (hQ : Unkept Q)
    (hp : (∀ id ∈ operands, m.diagram.Live id) → p.Works operands Q m)
    (again : m.reorderReady = true → (∀ id ∈ operands, m.diagram.Live id) →
      ∀ m', Completes m operands m' → p.Works operands Q m') :
    Ensures m (perform operands p)
      (fun res m' => Completes m operands m' ∧ m'.diagram.Live res ∧ Q res m')
      fun e m' => m.Refused e m' ∧ Completes m [] m' := by
  refine Ensures.read (fun _ => ⟨.refl m _, .refl hm []⟩) fun _ hcheck => ?_
  have ho := checkNodes_ok hm.toSound hcheck
  have hp := hp ho
  rcases hx : attempt operands p m with ⟨res, m₁⟩ | ⟨i, m₁⟩
  · unfold Ensures
    simp only [hx]
    exact attempt_ok hm ho hp hQ hx
  · have hfail := attempt_error hm ho hp hx
    rcases i with _ | e | _
    · -- The attempt gave way to reordering: the operands are kept, and the program runs once more.
      refine (((Ensures.restart hm ho hp hx).mono (fun _ _ h => h) fun _ _ => False.elim).bind
        fun _ m₂ h₂ => ?_).congr (by simp only [hx]; rfl)
      obtain ⟨hc₂, ho₂⟩ := h₂
      have hp₂ := again (hfail.2.2 rfl) ho _ hc₂
      refine Ensures.withoutReorder (Ensures.attemptOnce hc₂.ready ho₂ hp₂ hQ) ?_ ?_
      · rintro res m' ⟨h, hlive, hres⟩
        exact ⟨(hc₂.trans h).setAuto _, hlive, hQ hres _ _ _⟩
      · rintro e m' ⟨hregular, h⟩
        exact ⟨.inr hregular, (hc₂.trans h).forget.setAuto _⟩
    · unfold Ensures
      simp only [hx]
      exact ⟨.inr hfail.1, hfail.2.1.forget⟩
    · unfold Ensures
      simp only [hx]

/-- An operator call achieves what its request does. -/
theorem Ensures.call (hm : m.Ready) (hQ : Unkept Q) {r : Request} (hr : r.Meets Q m) :
    Ensures m (call r) (fun res m' => Completes m [] m' ∧ m'.diagram.Live res ∧ Q res m')
      fun e m' => m.Refused e m' ∧ Completes m [] m' := by
  refine Ensures.read (fun _ => ⟨.refl m _, .refl hm []⟩) fun _ hcheck => ?_
  have hr := hr hcheck
  rcases htask : r.task with f | ⟨operands, p, exclusive⟩
  · rw [htask] at hr
    exact .pure ⟨.refl hm [], hr⟩
  · rw [htask] at hr
    cases exclusive
    · refine (Ensures.perform hm hQ (fun ho => hr ho m (.refl hm _) nofun)
        fun _ ho m' hc => hr ho m' hc nofun).mono ?_ fun _ _ h => h
      exact fun _ _ h => ⟨h.1.forget, h.2⟩
    · have hc : Completes m operands { m with auto := m.auto.disable } :=
        (Completes.refl hm operands).setAuto _
      refine Ensures.withoutReorder (Ensures.perform hc.ready hQ (fun ho => hr ho _ hc fun _ =>
        ⟨_, rfl⟩) fun hready => ?_) ?_ ?_
      · rw [reorderReady_disable] at hready
        cases hready
      · rintro res m' ⟨h, hlive, hres⟩
        exact ⟨(hc.trans h).forget.setAuto _, hlive, hQ hres _ _ _⟩
      · -- If the operands are refused, all is as before once the reordering is switched on again.
        rintro e m' ⟨hrefused, h⟩
        exact ⟨hrefused.imp_left fun heq => by rw [heq]; rfl, (hc.forget.trans h).setAuto _⟩

/-! ### Attempts -/

/-- A run of a program in the course of the call `r` in the manager `m`, from the manager `m'`: the
first attempt, and another one if that is interrupted for a reordering. -/
inductive Attempts (r : Request) (m : Manager) : Program NodeId → Manager → Prop
  | first {operands : List NodeId} {p : Program NodeId} {exclusive : Bool}
    (hcheck : r.check m = .ok ()) (htask : r.task = .perform operands p exclusive)
    (hnodes : m.checkNodes operands = .ok ()) :
    Attempts r m p ((m.barred exclusive).equip operands)
  | again {operands : List NodeId} {p : Program NodeId} {exclusive : Bool} {m₁ m₂ : Manager}
    (hcheck : r.check m = .ok ()) (htask : r.task = .perform operands p exclusive)
    (hnodes : m.checkNodes operands = .ok ())
    (hfirst : attempt operands p (m.barred exclusive) = .error .reorder m₁)
    (hreorder : Manager.autoReorder operands m₁ = .ok () m₂) :
    Attempts r m p (equip operands { m₂ with auto := m₂.auto.disable })

/-- An attempt starts from what the call has become by then, with the operands kept. -/
theorem Attempts.completes (hm : m.Ready) {r : Request} (hr : r.Meets Q m) (h : Attempts r m p m') :
    ∃ operands exclusive m₁, r.check m = .ok () ∧ r.task = .perform operands p exclusive ∧
      (∀ id ∈ operands, m.diagram.Live id) ∧ m.Completes operands m₁ ∧
      (exclusive = true → ∃ auto, m₁ = { m with auto }) ∧ m' = m₁.equip operands := by
  cases h with
  | first hcheck htask hnodes =>
    obtain ⟨hc, he⟩ := completes_barred hm _ _
    exact ⟨_, _, _, hcheck, htask, checkNodes_ok hm.toSound hnodes, hc, he, rfl⟩
  | @again operands p exclusive m₁ m₂ hcheck htask hnodes hfirst hreorder =>
    have hr := hr hcheck
    rw [htask] at hr
    have ho := checkNodes_ok hm.toSound hnodes
    obtain ⟨hc, he⟩ := completes_barred hm operands exclusive
    have hw := hr ho _ hc he
    have hready := (attempt_error hc.ready (hc.live hm ho) hw hfirst).2.2 rfl
    -- Only a call that is not exclusive comes here.
    obtain rfl : exclusive = false := by
      cases exclusive
      · rfl
      · exact absurd hready (by rw [Manager.barred, if_pos rfl, reorderReady_disable]; nofun)
    have hre := Ensures.restart hc.ready (hc.live hm ho) hw hfirst
    rw [Ensures, hreorder] at hre
    exact ⟨_, _, _, hcheck, htask, ho, hc.trans hre.1, nofun, rfl⟩

/-- Each attempt works, in a sound manager. -/
theorem Attempts.ensures (hm : m.Ready) {r : Request} (hr : r.Meets Q m) (h : Attempts r m p m') :
    m'.Sound ∧ p.Ensures m'.varNum m' (fun _ _ => True) m' fun res m'' =>
      m''.diagram.Live res ∧ Q res m'' := by
  obtain ⟨operands, exclusive, m₁, hcheck, htask, ho, hc, he, rfl⟩ := h.completes hm hr
  have hr := hr hcheck
  rw [htask] at hr
  exact ⟨hc.ready.toSound.equip (hc.live hm ho), hr ho m₁ hc he⟩

theorem checkNodes_barred (m : Manager) (exclusive : Bool) (ids : List NodeId) :
    (m.barred exclusive).checkNodes ids = m.checkNodes ids := by
  cases exclusive
  · rfl
  · induction ids with
    | nil => rfl
    | cons id ids ih =>
      rw [checkNodes, checkNodes, ih]
      rfl

/-- An attempt fails where its program does, and lets go of what it kept. -/
theorem run_of_attempt {i : Interrupt} (h : attempt operands p m = .error i m') :
    ∃ m₁, p.run (m.equip operands) = .error i m₁ ∧ m' = m₁.unequip := by
  unfold attempt at h
  split at h
  · cases h
  · rename_i hx
    obtain ⟨rfl, rfl⟩ := EStateM.Result.error.inj h
    exact ⟨_, hx, rfl⟩

/-- An attempt at the program in the course of the call `r` in the manager `m` fails with the error `e`, and
the call leaves the manager `m'`. -/
inductive BreaksOff (r : Request) (m : Manager) (p : Program NodeId) (e : Error) (m' : Manager) : Prop
  | intro {m₁ m₂ : Manager} {auto : AutoReorder} (hattempt : Attempts r m p m₁)
    (hrun : p.run m₁ = .error (.error e) m₂) (hleft : m' = { m₂.unequip with auto })

theorem BreaksOff.setAuto {r : Request} {e : Error} (h : BreaksOff r m p e m') (auto : AutoReorder) :
    BreaksOff r m p e { m' with auto } := by
  obtain ⟨hattempt, hrun, rfl⟩ := h
  exact ⟨hattempt, hrun, rfl⟩

/-- Once its arguments are accepted, a call fails only where an attempt at its program does. -/
theorem Ensures.call_error {r : Request} {exclusive : Bool} (hcheck : r.check m = .ok ())
    (htask : r.task = .perform operands p exclusive) (hnodes : m.checkNodes operands = .ok ()) :
    Ensures m (Manager.call r) (fun _ _ => True) (BreaksOff r m p) := by
  have hperform : Ensures (m.barred exclusive) (Manager.perform operands p) (fun _ _ => True)
      (BreaksOff r m p) := by
    refine .read_ok ((checkNodes_barred m exclusive operands).trans hnodes) ?_
    rcases hx : attempt operands p (m.barred exclusive) with ⟨res, m₁⟩ | ⟨_ | e | _, m₁⟩
    · simp only [Ensures, hx]
    · -- Automatic reordering raises no error, so the error is that of the second attempt.
      have hreorder : Ensures m₁ (Manager.autoReorder operands)
          (fun _ m₂ => Manager.autoReorder operands m₁ = .ok () m₂) fun _ _ => False := by
        unfold Ensures
        split
        · assumption
        · rename_i hy
          unfold Manager.autoReorder at hy
          split at hy
          · split at hy <;> cases hy
          · cases hy
        · trivial
      refine ((hreorder.mono (fun _ _ h => h) fun _ _ => False.elim).bind fun _ m₂ h₂ => ?_).congr
        (by simp only [hx]; rfl)
      refine Ensures.withoutReorder (Q := fun _ _ => True) (E := BreaksOff r m p) ?_
        (fun _ _ _ => trivial) fun _ _ h => h.setAuto _
      unfold Ensures Manager.attemptOnce
      rcases hy : attempt operands p { m₂ with auto := m₂.auto.disable } with ⟨_, _⟩ | ⟨_ | e | _, _⟩
      · trivial
      · trivial
      · obtain ⟨m₃, hrun, hleft⟩ := run_of_attempt hy
        exact ⟨.again hcheck htask hnodes hx h₂, hrun, hleft⟩
      · trivial
    · simp only [Ensures, hx]
      obtain ⟨m₂, hrun, hleft⟩ := run_of_attempt hx
      exact ⟨.first hcheck htask hnodes, hrun, hleft⟩
    · simp only [Ensures, hx]
  refine .read_ok hcheck ?_
  rw [htask]
  cases exclusive
  · exact hperform
  · exact .withoutReorder hperform (fun _ _ h => h) fun _ _ h => h.setAuto _

/-! ### Safe calls -/

/-- However the call ends, the manager is ready for the next one, and the named nodes have kept
their values. -/
def Safe {α : Type} (x : Action α) : Prop :=
  ∀ m : Manager, m.Ready → Ensures m x (fun _ m' => Completes m [] m') fun _ m' => Completes m [] m'

variable {α β : Type}

theorem Safe.pure (a : α) : Safe (Pure.pure a) := fun _ hm => .pure (.refl hm [])

theorem Safe.fail (e : Error) : Safe (Action.fail e : Action α) := fun _ hm => .fail (.refl hm [])

theorem Safe.bind {x : Action α} {f : α → Action β} (hx : Safe x) (hf : ∀ a, Safe (f a)) :
    Safe (x >>= f) := by
  intro m hm
  refine (hx m hm).bind fun a m' hc => ?_
  exact (hf a m' hc.ready).mono (fun _ _ h => hc.trans h) fun _ _ h => hc.trans h

theorem Safe.get : Safe (MonadState.get : Action Manager) := fun _ hm => Completes.refl hm []

theorem Safe.read (f : Manager → Except Failure α) : Safe (Action.read f) := by
  intro m hm
  unfold Ensures Action.read
  rcases f m with (e | _) | a
  · exact .refl hm []
  · trivial
  · exact .refl hm []

/-- A call that can always do its work is safe. -/
theorem Safe.call {r : Request} (hr : r.Fulfilled) : Safe (call r) := fun m hm =>
  (Ensures.call hm (fun _ _ _ _ => trivial) (hr m hm)).mono (fun _ _ h => h.1) fun _ _ h => h.2

end Action

end DecisionDiagram
