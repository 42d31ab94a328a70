/-
No call breaks off: there is an answer to all of them, and whatever is used as an index is in range.

* `Manager.Spans` — the tables that are indexed by variables or levels, and what they name;
* `Manager.InRange`, `Session.InRange` — besides, the records, and the searches in the tables of nodes;
* `Manager.Inherits` — what a call hands on to the managers in the middle of it;
* `Manager.Settled.unbroken` — between calls, in the middle of operators and at every point of a
  session.
-/
import DecisionDiagram.Proofs.Caching
import DecisionDiagram.Proofs.Grouping
import DecisionDiagram.Proofs.Sessions
import DecisionDiagram.Proofs.Totality

namespace DecisionDiagram

/-- The largest blocks cover all others. -/
theorem VarForest.Nested.last_lt {forest : VarForest} (h : forest.Nested) {n : Nat}
    (htop : ∀ b ∈ forest, b.last < n) {b : VarBlock} (hb : forest.Holds b) : b.last < n := by
  induction hb with
  | top hb => exact htop _ hb
  | within hb hc ih =>
    exact Nat.lt_of_le_of_lt (VarBlock.covers_iff.mp ((h.holds hb).covers hc)).2 ih

namespace Manager

variable {m m' m'' : Manager}

/-- What is indexed by variables or levels has one entry for each variable, and what it names are
variables and levels. -/
structure Spans (m : Manager) : Prop where
  levelOf_size : m.order.levelOf.size = m.varNum
  varAt_size : m.order.varAt.size = m.varNum
  level_lt : ∀ l ∈ m.order.levelOf, l < m.varNum
  var_lt : ∀ v ∈ m.order.varAt, v < m.varNum
  literals_size : m.literals.size = m.varNum
  pairing_size : ∀ t ∈ m.pairings.tables, t.result.size = m.varNum
  pairing_last : ∀ t ∈ m.pairings.tables, ∀ last, t.last = some last → last < m.varNum
  block_last : ∀ b, m.forest.Holds b → b.last < m.varNum

/-- Whatever is used as an index is in range, and the tables have room: a search in the index comes to an
end, and finds no node twice. -/
structure InRange (m : Manager) : Prop extends Spans m where
  arena : m.store.nodes.size = m.store.capacity
  positive : 0 < m.store.capacity
  slot_lt : ∀ id, m.store.isLive id = true → id < m.store.nodes.size
  label_lt : ∀ id n, m.diagram id = some n → n.level < m.varNum
  child_live : ∀ id n, m.diagram id = some n → ∀ b, m.store.isLive (n.child b) = true
  unique : ∀ i j n, m.diagram i = some n → m.diagram j = some n → i = j
  room : 2 * m.store.capacity ≤ m.table.slots.size
  search : ∀ key, ∃ r, m.table.find m.store.nodes key = some r
  bits : m.computed.bits ≤ Config.maxCacheBits

/-- The variable order has an entry for each variable and for each level. -/
theorem spans_of (ho : m.order.Valid) (hl : m.literals.size = m.varNum)
    (hp : m.pairings.Fits m.varNum) (hb : ∀ b, m.forest.Holds b → b.last < m.varNum) : m.Spans where
  levelOf_size := ho.size
  varAt_size := rfl
  level_lt l hl := by
    obtain ⟨v, hv⟩ := Array.mem_iff_getElem?.mp hl
    exact (Array.getElem?_eq_some_iff.mp (ho.varAt_levelOf hv)).1
  var_lt v hv := ho.mem_toList.mp (Array.mem_toList_iff.mpr hv)
  literals_size := hl
  pairing_size t ht := (hp.entries t ht).1
  pairing_last t ht := (hp.entries t ht).2
  block_last := hb

theorem Sound.inRange (hm : m.Sound) (hb : ∀ b, m.forest.Holds b → b.last < m.varNum)
    (hbits : m.computed.bits ≤ Config.maxCacheBits) : m.InRange where
  toSpans := spans_of hm.order hm.literals_size hm.pairings hb
  arena := hm.store.arena
  positive := hm.store.arena ▸ Nat.zero_lt_of_lt (hm.store.lt (hm.store.terminal NodeId.bot rfl))
  slot_lt _ hid := hm.store.lt hid
  label_lt _ _ hn := hm.reduced.label_lt hn
  child_live _ _ hn b := hm.store.live_iff.mp (hm.reduced.below hn b).live
  unique _ _ _ hi hj := hm.reduced.unique hi hj
  room := by
    rw [hm.table.size]
    have := two_mul_le_slotsFor m.store.capacity
    omega
  search := hm.table.exists_find hm.store
  bits := hbits

/-! ### In the middle of a call -/

/-- What a call hands on: there are no fewer variables, the blocks are as before, and the computed tables
are not too large. -/
structure Inherits (m m' : Manager) : Prop where
  varNum : m.varNum ≤ m'.varNum
  forest : m'.forest = m.forest
  bits : m.computed.bits ≤ Config.maxCacheBits → m'.computed.bits ≤ Config.maxCacheBits

theorem Inherits.trans (h : m.Inherits m') (h' : m'.Inherits m'') : m.Inherits m'' :=
  ⟨Nat.le_trans h.varNum h'.varNum, h'.forest.trans h.forest, fun hm => h'.bits (h.bits hm)⟩

theorem Inherits.inRange (h : m.Inherits m') (hm : m.InRange) (hm' : m'.Sound) : m'.InRange :=
  hm'.inRange (fun b hb => Nat.lt_of_lt_of_le (hm.block_last b (h.forest ▸ hb)) h.varNum)
    (h.bits hm.bits)

variable {operands : List NodeId} {p : Program NodeId} {r : Request} {Q : NodeId → Manager → Prop}

theorem inherits_barred (m : Manager) (exclusive : Bool) : m.Inherits (m.barred exclusive) := by
  cases exclusive <;> exact ⟨Nat.le_refl _, rfl, fun h => h⟩

theorem inherits_attempt (hm : m.Ready) (ho : ∀ id ∈ operands, m.diagram.Live id)
    (hp : p.Works operands Q m) (h : attempt operands p m = .error .reorder m') : m.Inherits m' := by
  have hreleased := attempt_released operands p m
  rw [h] at hreleased
  exact ⟨(Action.attempt_error hm ho hp h).2.1.retains.varNum, hreleased.1.forest, hreleased.1.bits⟩

theorem inherits_attempts (hm : m.Ready) (hr : r.Fulfilled) (h : Action.Attempts r m p m') :
    m.Inherits m' := by
  cases h with
  | first => exact (inherits_barred m _).trans ⟨Nat.le_refl _, rfl, fun h => h⟩
  | @again operands p exclusive m₁ m₂ hcheck htask hnodes hfirst hreorder =>
    have hr := hr m hm hcheck
    rw [htask] at hr
    have ho := checkNodes_ok hm.toSound hnodes
    obtain ⟨hc, he⟩ := completes_barred hm operands exclusive
    have hw := hr ho _ hc he
    obtain ⟨-, hc₁, -⟩ := Action.attempt_error hc.ready (hc.live hm ho) hw hfirst
    have hcompletes :=
      Action.Ensures.autoReorder hc₁.ready (hc₁.live hc.ready (hc.live hm ho))
    have haccounts := Action.Ensures.autoReorder_accounts operands m₁
    rw [Action.Ensures, hreorder] at hcompletes haccounts
    have hsession : m₁.Inherits (equip operands { m₂ with auto := m₂.auto.disable }) :=
      ⟨hcompletes.retains.varNum, haccounts.1.forest, haccounts.1.bits⟩
    exact ((inherits_barred m exclusive).trans
      (inherits_attempt hc.ready (hc.live hm ho) hw hfirst)).trans hsession

theorem Settled.inherits (hm : m.Settled) (hb : m.Begins m') : m.Inherits m' := by
  cases hb with
  | asked => exact ⟨Nat.le_refl _, rfl, fun h => h⟩
  | @due c r operands p exclusive m₁ hrequest hcheck htask hnodes hattempt =>
    have hr := Command.fulfilled hrequest m hm.ready hcheck
    rw [htask] at hr
    have ho := checkNodes_ok hm.ready.toSound hnodes
    obtain ⟨hc, he⟩ := completes_barred hm.ready operands exclusive
    have h := inherits_attempt hc.ready (hc.live hm.ready ho) (hr ho _ hc he) hattempt
    exact ((inherits_barred m exclusive).trans h).trans ⟨Nat.le_refl _, rfl, fun h => h⟩

end Manager

theorem Program.At.steady {α : Type} {p : Program α} {m m' : Manager} {s : Step}
    {rest : s.Answer → Program α} (h : p.At m s rest m') : m.Steady m' := by
  induction h with
  | one s m => exact .refl m
  | first _ ih => exact ih
  | @second _ _ p _ m _ _ _ _ _ hp _ ih =>
    have hsteady := p.steady m
    rw [hp] at hsteady
    exact hsteady.toSteady.trans ih

theorem Program.Ensures.inherits {α : Type} {p : Program α} {m m' : Manager} {bound : Nat}
    {T : Scope → α → Prop} {Q : α → Manager → Prop} (h : p.Ensures bound m T m Q) {s : Step}
    {rest : s.Answer → Program α} (hs : p.At m s rest m') : m.Inherits m' :=
  ⟨Nat.le_of_eq (h.at hs).1.varNum.symm, hs.steady.forest, hs.steady.bits⟩

/-! ### Sessions -/

namespace Session

/-- The same in a session, where a record names its variable, and the table of nodes is divided by
variable. -/
structure InRange (s : Session) : Prop extends s.manager.Spans where
  arena : s.manager.store.nodes.size = s.manager.store.capacity
  refs_size : s.refs.size = s.manager.store.capacity
  slot_lt : ∀ id, s.manager.store.isLive id = true → id < s.manager.store.nodes.size
  label_lt : ∀ id n, s.diagram id = some n → n.level < s.manager.varNum
  child_live : ∀ id n, s.diagram id = some n → ∀ b, s.manager.store.isLive (n.child b) = true
  unique : ∀ i j n, s.diagram i = some n → s.diagram j = some n → i = j
  interactions_size : s.interactions.size = s.manager.varNum
  regions_size : s.table.regions.size = s.manager.varNum
  region_fits : ∀ (v : Var) r, s.table.regions[v]? = some r → r.start + r.size ≤ s.table.slots.size
  room : ∀ (v : Var) r, s.table.regions[v]? = some r → 2 * r.count ≤ r.size
  search : ∀ key : Node, key.level < s.manager.varNum →
    ∃ r, s.table.find s.manager.store.nodes key = some r

theorem Sound.inRange {s : Session} (hs : s.Sound)
    (hb : ∀ b, s.manager.forest.Holds b → b.last < s.manager.varNum)
    (hi : s.interactions.size = s.manager.varNum) : s.InRange where
  toSpans := Manager.spans_of hs.order hs.literals_size hs.pairings hb
  arena := hs.store.arena
  refs_size := hs.refs_size
  slot_lt _ hid := hs.store.lt hid
  label_lt _ _ hn := hs.reduced.label_lt hn
  child_live _ _ hn b := hs.store.live_iff.mp (hs.reduced.below hn b).live
  unique _ _ _ hi hj := hs.reduced.unique hi hj
  interactions_size := hi
  regions_size := hs.regions
  region_fits _ _ hr := (hs.table.region hr).fits
  room := hs.roomy
  search := Reordering.exists_find hs.toCoherent

theorem size_interact {nodes : Array Node} {depth varNum : Nat} {roots : List NodeId}
    {marks marks' : BitSet} {rows rows' : Array BitSet}
    (h : interact nodes depth varNum roots marks rows = some (marks', rows')) :
    rows'.size = rows.size := by
  induction roots generalizing marks rows with
  | nil =>
    obtain ⟨-, rfl⟩ := Prod.mk.inj (Option.some.inj h)
    rfl
  | cons root roots ih =>
    rw [interact] at h
    split at h
    · cases h
    · exact (ih h).trans (size_joinRows _ _)

theorem size_interactions {m : Manager} {roots : List NodeId} {s : Session}
    (h : Session.start m roots = some s) : s.interactions.size = m.varNum := by
  simp only [Session.start, Option.bind_eq_bind, Option.bind_eq_some_iff, Option.pure_def,
    Option.some.injEq] at h
  obtain ⟨store, -, ⟨marks, rows⟩, hinteract, -, -, -, -, rfl⟩ := h
  exact (size_interact hinteract).trans Array.size_replicate

end Session

/-! ### Between two calls -/

namespace Manager

variable {m m₀ m₁ m₂ : Manager}

/-- A block is made of variables that there are, and stays so while variables are added. -/
theorem Settled.last_lt (hm : m.Settled) : ∀ b ∈ m.forest, b.last < m.varNum := by
  induction hm with
  | create h =>
    rw [(create_ok h).2.1]
    simp
  | @call m c hm h _ ih =>
    have hvar := (c.run_spec hm.ready h).1.varNum
    have old : ∀ b ∈ m.forest, b.last < (c.run m).2.varNum := fun b hb =>
      Nat.lt_of_lt_of_le (ih b hb) hvar
    cases Command.regroups_run h with
    | keep hf => rwa [hf]
    | clear hf =>
      rw [hf]
      simp
    | add hlast hadd =>
      exact hm.reachable.nested.last_add old (Nat.lt_of_lt_of_le hlast hvar) hadd

theorem Settled.bits_le (hm : m.Settled) : m.computed.bits ≤ Config.maxCacheBits := by
  induction hm with
  | create h =>
    obtain ⟨hconfig, -, -, hcomputed⟩ := create_ok h
    rw [hcomputed]
    exact (Config.bounds hconfig).2
  | @call m c hm h _ ih =>
    rcases hr : c.request? with _ | r
    · cases ha : c.arms
      · exact (Command.within_run (Command.restful hr ha) h).bits ih
      · cases c <;> cases ha
        exact ih
    · exact (Command.within_run (Command.within_operator hr) h).bits ih

theorem Settled.inRange (hm : m.Settled) : m.InRange :=
  hm.ready.toSound.inRange (fun _ => hm.reachable.nested.last_lt hm.last_lt) hm.bits_le

/-- No call breaks off. Every command has an answer, whatever its arguments are. Between calls, at every
step that an operator or a count comes to and at every point of a session, whatever is used as an index is
in range, the tables of nodes have room, and no record occurs twice. -/
theorem Settled.unbroken (hm : m.Settled) :
    (∀ c : Command, c.Issued m → (c.run m).1 ≠ .error .fault) ∧
    m.InRange ∧
    (∀ (c : Command) (r : Request) (p : Program NodeId) (m₁ : Manager), c.request? = some r →
      Action.Attempts r m p m₁ → ∀ (s : Step) (rest : s.Answer → Program NodeId) (m₂ : Manager),
        p.At m₁ s rest m₂ → m₂.InRange) ∧
    (∀ (c : Command) (p : Program Float), c.count? = some p →
      ∀ (s : Step) (rest : s.Answer → Program Float) (m₂ : Manager), p.At m s rest m₂ → m₂.InRange) ∧
    ∀ (m₀ : Manager) (s s' : Session), m.Begins m₀ → Session.start m₀ m₀.rootNodes = some s →
      s.Walk s' → s'.InRange := by
  have hready := hm.ready
  refine ⟨fun c => Command.run_ne_fault hready hm.reachable.nested, hm.inRange, ?_, ?_, ?_⟩
  · intro c r p m₁ hc hp s rest m₂ hs
    have hr := Command.fulfilled hc
    obtain ⟨hm₁, hens⟩ := hp.ensures hready (hr m hready)
    exact ((inherits_attempts hready hr hp).trans (hens.inherits hs)).inRange hm.inRange
      (hens.sound_at hm₁ hs).1
  · intro c p hc s rest m₂ hs
    rcases Command.counts hc hready.toSound with h | ⟨x, hx⟩
    · rw [(h.at hs).1]
      exact hm.inRange
    · have hens := hx.ensures fun _ _ => True
      exact (hens.inherits hs).inRange hm.inRange (hens.sound_at hready.toSound hs).1
  · intro m₀ s s' hb hs hw
    obtain ⟨hsound, ha⟩ := hm.walk hb hs hw
    have hopens := ((hm.begins hb).start (fun _ => .rfl) hs).2
    have hstays := hw.stays
    have hvar : s'.manager.varNum = m₀.varNum := by
      rw [ha.keeps.varNum, hopens.manager]
      rfl
    have hforest : s'.manager.forest = m₀.forest := by
      rw [hstays.manager, hopens.manager]
    have h₀ := (hm.inherits hb).inRange hm.inRange (hm.begins hb)
    refine ha.sound.inRange (fun b hb => ?_) ?_
    · rw [hvar]
      exact h₀.block_last b (hforest ▸ hb)
    · rw [hvar, hstays.interactions, Session.size_interactions hs]

/-- A dead node is renamed by a pairing after a change of the order. -/
theorem unbroken_rename :
    ∃ m, after (.small 16 16) [.setVarNum 3, .apply .and 2 4, .swapVar 0 2, .newPairing,
        .setPair 0 0 1, .addVarBlock 1 2 false] = some m ∧
      m.order.toList = [2, 1, 0] ∧ m.store.isLive 9 = false ∧ m.InRange ∧
      ((Command.replace 9 0).run m).1 ≠ .error .fault := by
  have hrun : (after (.small 16 16) [.setVarNum 3, .apply .and 2 4, .swapVar 0 2, .newPairing,
      .setPair 0 0 1, .addVarBlock 1 2 false]).any fun m =>
        (m.order.toList == [2, 1, 0] && m.store.isLive 9 == false) &&
          m.pairings.tables.size == 1 := by
    decide +kernel
  obtain ⟨m, hm, hfacts⟩ := (Option.any_eq_true _ _).mp hrun
  simp only [Bool.and_eq_true, beq_iff_eq] at hfacts
  obtain ⟨⟨horder, hdead⟩, hsize⟩ := hfacts
  obtain ⟨hanswers, hrange, -⟩ := (settled_after hm).unbroken
  refine ⟨m, hm, horder, hdead, hrange, hanswers _ ⟨fun _ => nofun, fun number hnumber => ?_⟩⟩
  obtain rfl := Option.some.inj hnumber
  omega

end Manager

end DecisionDiagram
