/-
Making a node, in whatever state the graph is right.

What an operator knows of `mk` it knows of managers with right computed tables, too.  Here the store,
the unique table and the order are as the check of the graph wants them, and everything else is
arbitrary.

* `Manager.Orderly` — the assumption, in terms of the public check, and `orderly_iff`, what it amounts to;
* `Manager.Cleared` — what a collection and a growth step leave to the node that is to be created;
* `Build.Making` — the ways in which `mk` ends, and `Build.making_mk`, that it ends in one of them;
* `Manager.Places` — the ways to find a place for a record, in terms of slots;
* `Manager.Orderly.mk_places` — the node that `mk` answers, and what it leaves as it is.
-/
import DecisionDiagram.Proofs.Construction
import DecisionDiagram.Proofs.Canonicity

namespace DecisionDiagram

namespace Manager

variable {m m' m₁ m₂ : Manager} {bound : Nat} {f : NodeId} {n : Node} {level : Level}

/-! ### The state -/

/-- The store, the unique table and the order of the manager are in order: the check of the whole
graph finds nothing wrong, the terminals do not have the record of an inner node, the table is as long
as it has to be and holds live nodes only, none of them twice, and the manager names live ones only. -/
structure Orderly (m : Manager) : Prop where
  store : m.store.Valid
  terminals : ∀ id : NodeId, id.isTerminal = true →
    ∃ r, m.store.node? id = some r ∧ (r.level < m.varNum → r.low = r.high)
  levels : m.order.levelOf.size = m.varNum
  valid : m.validateAll = .ok ()
  size : m.table.slots.size = slotsFor m.store.capacity
  entries : ∀ {slot : Nat} {id : NodeId}, m.table.slots[slot]? = some id → id = 0 ∨ id ∈ m.store.liveIds
  once : ∀ {slot slot' : Nat} {id : NodeId}, m.table.slots[slot]? = some id →
    m.table.slots[slot']? = some id → id ≠ 0 → slot = slot'
  named : ∀ {id}, m.Rooted id → m.store.isLive id = true

/-- The order is a permutation, and the records of the terminals are those of no inner node and put them
below every node that leads to them. -/
structure Grounded (m : Manager) : Prop where
  order : m.order.Valid
  terminals : ∀ id : NodeId, id.isTerminal = true →
    ∃ r, m.store.node? id = some r ∧ (r.level < m.varNum → r.low = r.high)
  above : ∀ {id n b r}, m.diagram id = some n → (n.child b).isTerminal = true →
    m.store.node? (n.child b) = some r → n.level < r.level

theorem Orderly.intact (h : m.Orderly) : ∀ id ∈ m.store.liveIds, ∃ n, m.Intact id n :=
  (validateAll_eq_ok_iff.mp h.valid).1

theorem Orderly.intact_of_diagram (h : m.Orderly) (hn : m.diagram f = some n) : m.Intact f n := by
  obtain ⟨r, hr⟩ := h.intact f (h.store.mem_liveIds.mpr ⟨n, hn⟩)
  obtain rfl := Except.ok.inj ((node_of_diagram hn).symm.trans hr.node)
  exact hr

theorem Orderly.shared (h : m.Orderly) : m.Shared m.varNum where
  store := h.store
  reduced := reduced_of_intact h.intact
  table := .of_find h.store h.size (fun hn => (h.intact_of_diagram hn).indexed) h.entries h.once
  rooted hid := h.store.live_iff.mpr (h.named hid)

/-- The two ways to read a record give the same level. -/
theorem lt_level_of_node? {id : NodeId} {r : Node} (h : ∃ r, m.node id = .ok r ∧ level < r.level)
    (hr : m.store.node? id = some r) : level < r.level := by
  obtain ⟨r', hr', hlt⟩ := h
  obtain rfl := Except.ok.inj ((node_eq_ok.mpr hr).symm.trans hr')
  exact hlt

theorem Orderly.grounded (h : m.Orderly) : m.Grounded where
  order := .of_varAt_levelOf h.levels (validateAll_eq_ok_iff.mp h.valid).2
  terminals := h.terminals
  above hn _ hr := lt_level_of_node? ((h.intact_of_diagram hn).below _) hr

/-- The record of a child puts it below its parent. -/
theorem Shared.child_node (hm : m.Shared bound) (hg : m.Grounded) (hn : m.diagram f = some n)
    (b : Bool) : ∃ r, m.node (n.child b) = .ok r ∧ n.level < r.level := by
  rcases hm.reduced.below hn b with ht | ⟨r, hr, hlt⟩
  · obtain ⟨r, hr, -⟩ := hg.terminals _ ht
    exact ⟨r, node_eq_ok.mpr hr, hg.above hn ht hr⟩
  · exact ⟨r, node_of_diagram hr, hlt⟩

theorem Shared.orderly (hm : m.Shared m.varNum) (hg : m.Grounded) : m.Orderly where
  store := hm.store
  terminals := hg.terminals
  levels := hg.order.size
  valid := validateAll_eq_ok_iff.mpr ⟨fun id hid => by
    obtain ⟨n, hn⟩ := hm.store.mem_liveIds.mp hid
    exact ⟨n, hm.intact hn (hm.child_node hg hn)⟩, hg.order.varAt_levelOf⟩
  size := hm.table.size
  entries {slot id} hslot := by
    by_cases hzero : id = 0
    · exact .inl hzero
    · exact .inr ((hm.table.mem_slots hm.store hzero).mp ⟨slot, hslot⟩)
  once hslot hslot' hid := hm.table.slot_unique hslot hslot' hid
  named hid := hm.store.live_iff.mp (hm.rooted hid)

theorem orderly_iff : m.Orderly ↔ m.Shared m.varNum ∧ m.Grounded :=
  ⟨fun h => ⟨h.shared, h.grounded⟩, fun h => h.1.orderly h.2⟩

/-- Where operators work, everything is in order. -/
theorem Sound.orderly (hm : m.Sound) : m.Orderly := hm.shared.orderly
  { order := hm.order
    terminals := fun id ht => by
      obtain ⟨r, hr, hlevel⟩ := hm.terminals id ht
      exact ⟨r, hr, fun hlt => absurd hlevel (Nat.ne_of_lt hlt)⟩
    above := fun hn _ hr => lt_level_of_node? (hm.child_level hn _) hr }

/-! ### A place in a full store -/

/-- The manager `m'` is `m` without the nodes that a collection does not keep, and may have more
slots. -/
structure Cleared (m m' : Manager) : Prop extends Evolves m m' where
  pending_eq : m'.pending = m.pending
  live_iff : ∀ {id}, m'.diagram.Live id ↔ m.Kept id

theorem Collected.cleared (h : m.Collected m') (hm : m.Shared bound) : m.Cleared m' where
  toEvolves := h.evolves
  pending_eq := h.pending
  live_iff := h.live_iff hm.kept_live

theorem Cleared.grown (h : m.Cleared m₁) (h' : m₁.Grown m₂) : m.Cleared m₂ where
  toEvolves := h.toEvolves.trans h'.evolves
  pending_eq := h'.pending.trans h.pending_eq
  live_iff := by
    rw [h'.diagram]
    exact h.live_iff

/-- The nodes that are left are those of before. -/
theorem Cleared.diagram_eq (h : m.Cleared m') (hn : m'.diagram f = some n) : m.diagram f = some n :=
  (h.kept f (h.live_iff.mp (Diagram.live_of_eq_some hn))).symm.trans hn

theorem Grounded.cleared (hg : m.Grounded) (h : m.Cleared m') : m'.Grounded where
  order := h.order ▸ hg.order
  terminals id ht := by
    rw [h.terminals ht, h.varNum]
    exact hg.terminals id ht
  above hn ht hr := by
    rw [h.terminals ht] at hr
    exact hg.above (h.diagram_eq hn) ht hr

end Manager

open Manager

namespace Build

variable {m m' m₁ : Manager} {bound : Nat} {f : NodeId} {n : Node}

/-! ### The ways in which making a node ends -/

/-- What making a node with the record `n` may end with, one case for each way: the node exists, an
error stands, a slot is free; or none is, and after a collection and perhaps a growth step a
reordering is due, a slot is free, or still none is. -/
inductive Making (m : Manager) (n : Node) (bound : Nat) : EStateM.Result Interrupt Manager NodeId → Prop
  | found {f : NodeId} (h : m.diagram f = some n) : Making m n bound (.ok f m)
  | standing {e : Error} (h : m.error = some e) : Making m n bound (.error (.error e) m)
  | free {f : NodeId} {m' : Manager} (h : Created m f n m') (hs : m'.Shared bound) :
    Making m n bound (.ok f m')
  | due {m₁ : Manager} (hclear : m.Cleared m₁) (hs : m₁.Shared bound) :
    Making m n bound (.error .reorder m₁)
  | freed {m₁ m' : Manager} {f : NodeId} (hfull : m.store.slots.next? = none) (hclear : m.Cleared m₁)
    (hs₁ : m₁.Shared bound) (h : Created m₁ f n m') (hs : m'.Shared bound) : Making m n bound (.ok f m')
  | limit {m₁ : Manager} (hclear : m.Cleared m₁) (hs : m₁.Shared bound) :
    Making m n bound (.error (.error .nodeLimit) { m₁ with error := some .nodeLimit })

/-- The last step, in a manager that is cleared. -/
theorem making_createAnew (hfull : m.store.slots.next? = none) (hclear : m.Cleared m₁)
    (hs : m₁.Shared bound) (hn : Fresh m₁ bound n) : Making m n bound (createAnew n m₁) := by
  rcases hf : m₁.store.slots.next? with _ | f
  · have hlimit : createAnew n m₁ =
        .error (.error .nodeLimit) { m₁ with error := some .nodeLimit } := by
      simp only [createAnew, hf]
    rw [hlimit]
    exact .limit hclear hs
  · -- The table has changed since the vacancy was found, so the search is made once more.
    obtain ⟨r, hr⟩ := hs.table.exists_find hs.store n
    cases r with
    | found j => exact absurd (hs.table.of_found hr) (hn.new j)
    | vacant slot =>
      obtain ⟨m', hcreate, hc, hs'⟩ := exists_create hs hn hf hr
      have hanew : createAnew n m₁ = .ok f m' := by simp only [createAnew, hf, hr, hcreate]
      rw [hanew]
      exact .freed hfull hclear hs hc hs'

theorem making_createInFull (hm : m.Shared bound) (hn : Fresh m bound n)
    (hfull : m.store.slots.next? = none) : Making m n bound (createInFull n m) := by
  obtain ⟨freed, m₁, hcollect, hc⟩ := exists_collect hm.store hm.reduced hm.rootNodes_live
  have hclear := hc.cleared hm
  have hs := hm.collected hc
  simp only [createInFull, hcollect]
  split
  · exact .due hclear hs
  · split
    · obtain ⟨m₂, hgrow, hg⟩ := exists_grow hs
      simp only [hgrow]
      exact making_createAnew hfull (hclear.grown hg) (hs.grown hg) ((hn.collected hc).grown hg)
    · exact making_createAnew hfull hclear hs (hn.collected hc)

/-- Making a node with different children ends in one of these ways.  It never finds the graph
broken. -/
theorem making_mk (hm : m.Shared bound) {level : Level} {low high : NodeId} (hlevel : level < bound)
    (hne : low ≠ high) (hlow : m.Kept low) (hhigh : m.Kept high)
    (ulow : m.diagram.Under id (level + 1) low) (uhigh : m.diagram.Under id (level + 1) high) :
    Making m ⟨level, low, high⟩ bound (mk level low high m) := by
  obtain ⟨r, hr⟩ := hm.table.exists_find hm.store ⟨level, low, high⟩
  cases r with
  | found f =>
    simp only [mk, if_neg hne, hr]
    exact .found (hm.table.of_found hr)
  | vacant slot =>
    have hn : Fresh m bound ⟨level, low, high⟩ :=
      ⟨hlevel, hne, Bool.forall_bool.mpr ⟨hlow, hhigh⟩, Bool.forall_bool.mpr ⟨ulow, uhigh⟩,
        hm.table.of_vacant hr⟩
    simp only [mk, if_neg hne, hr]
    split
    · exact .standing (by assumption)
    · split
      · rename_i f hf
        obtain ⟨m', hcreate, hc, hs⟩ := exists_create hm hn hf hr
        rw [hcreate]
        exact .free hc hs
      · exact making_createInFull hm hn (by assumption)

end Build

namespace Manager

variable {m m' m₁ : Manager} {bound : Nat} {f low high : NodeId} {n : Node} {level : Level}

/-! ### What making a node leaves as it is -/

/-- What the manager names stays named, and the nodes that this leads to keep their ids and records. -/
structure Spares (m m' : Manager) : Prop extends SameFrame m m' where
  pending : m'.pending = m.pending
  live : ∀ {id}, m.Kept id → m'.store.isLive id = true
  node : ∀ {id}, m.Kept id → m'.store.node? id = m.store.node? id

theorem Evolves.spares (h : m.Evolves m') (hp : m'.pending = m.pending) (hm : m.Shared bound)
    (hm' : m'.Shared bound) : m.Spares m' where
  toSameFrame := h.toSameFrame
  pending := hp
  live {id} hid := hm'.store.live_iff.mp ((hm.kept_live hid).congr (h.kept id hid))
  node {id} hid := by
    by_cases ht : id.isTerminal = true
    · exact h.terminals ht
    · obtain ⟨r, hr⟩ := (hm.kept_live hid).eq_some (Bool.eq_false_iff.mpr ht)
      exact (Store.node?_of_diagram ((h.kept id hid).trans hr)).trans (Store.node?_of_diagram hr).symm

theorem Spares.orderly (h : m.Spares m') (hm' : m'.Shared m.varNum) (hg : m'.Grounded) :
    m'.Orderly := by
  rw [← h.varNum] at hm'
  exact hm'.orderly hg

/-- No node comes into being: what is live was live before, with the same record. -/
def NoneNew (m m' : Manager) : Prop :=
  ∀ id, m'.store.isLive id = true → m.store.isLive id = true ∧ m'.store.node? id = m.store.node? id

theorem Cleared.noneNew (h : m.Cleared m') (hm : m.Shared bound) (hm' : m'.Shared bound) :
    m.NoneNew m' := by
  intro id hid
  have hkept := h.live_iff.mp (hm'.store.live_iff.mpr hid)
  exact ⟨hm.store.live_iff.mp (hm.kept_live hkept),
    (h.toEvolves.spares h.pending_eq hm hm').node hkept⟩

/-- An error may stand in the manager. -/
theorem Shared.setError (hm : m.Shared bound) (error : Option Error) : Shared { m with error } bound :=
  ⟨hm.store, hm.reduced, hm.table, hm.rooted⟩

theorem Grounded.setError (hg : m.Grounded) (error : Option Error) : Grounded { m with error } :=
  ⟨hg.order, hg.terminals, hg.above⟩

theorem Spares.setError (h : m.Spares m') (error : Option Error) : m.Spares { m' with error } :=
  ⟨⟨h.order, h.literals, h.operands, h.roots, h.pairings, h.forest, h.auto, h.config⟩, h.pending,
    h.live, h.node⟩

/-! ### The new node -/

/-- Where the node `r` with the record `n` stands in `m'`, one case for each way to get there from
`m`: it was live; it took the lowest free slot; no slot was free, and it took the lowest one that the
collection had freed; or the collection freed none, and it took the first one that the store had grown
by.  There is no other new node. -/
inductive Places (m : Manager) (n : Node) (r : NodeId) (m' : Manager) : Prop
  | found (hlive : m.store.isLive r = true) (hnode : m.store.node? r = some n) (h : m' = m)
  | free (hfree : m.store.isLive r = false) (hlowest : ∀ j, j < r → m.store.isLive j = true)
    (hlt : r < m.store.capacity) (hcapacity : m'.store.capacity = m.store.capacity)
    (hlive : ∀ j, m'.store.isLive j = true ↔ j = r ∨ m.store.isLive j = true)
    (hnode : ∀ j, m.store.isLive j = true → m'.store.node? j = m.store.node? j)
  | freed (hfull : ∀ j, j < m.store.capacity → m.store.isLive j = true) (hlt : r < m.store.capacity)
    (hfreed : ¬ m.Kept r) (hlowest : ∀ j, j < r → m.Kept j)
    (hlive : ∀ j, m'.store.isLive j = true ↔ j = r ∨ m.Kept j)
  | grown (hfull : ∀ j, j < m.store.capacity → m.Kept j) (hr : r = m.store.capacity)
    (hlt : r < m'.store.capacity) (hlive : ∀ j, m'.store.isLive j = true ↔ j = r ∨ m.Kept j)

theorem Grounded.created (hg : m.Grounded) (h : Build.Created m f n m')
    (habove : ∀ b r, (n.child b).isTerminal = true → m.store.node? (n.child b) = some r →
      n.level < r.level) : m'.Grounded where
  order := h.order ▸ hg.order
  terminals id ht := by
    rw [h.terminals ht, h.varNum]
    exact hg.terminals id ht
  above {id n' b r} hn ht hr := by
    rw [h.terminals ht] at hr
    rw [h.diagram, Function.update_apply] at hn
    split at hn
    · obtain rfl := Option.some.inj hn
      exact habove b r ht hr
    · exact hg.above hn ht hr

section Created

variable (h : Build.Created m f n m') (hm : m.Shared bound)

include h hm

theorem lowest_created : m.store.isLive f = false ∧ (∀ j, j < f → m.store.isLive j = true) ∧
    f < m.store.capacity :=
  ⟨FreeSlots.isUsed_next? h.slot, fun _ hj => hm.store.slots.isUsed_of_lt_next? h.slot hj,
    hm.store.next?_lt h.slot⟩

theorem isLive_created_iff (hm' : m'.Shared bound) (j : NodeId) :
    m'.store.isLive j = true ↔ j = f ∨ m.store.isLive j = true := by
  rw [← hm'.store.live_iff, ← hm.store.live_iff]
  show m'.diagram.Live j ↔ j = f ∨ m.diagram.Live j
  by_cases hj : j = f
  · exact iff_of_true (.inr (by rw [h.diagram, hj, Function.update_self]; rfl)) (.inl hj)
  · rw [Diagram.Live, h.diagram, Function.update_of_ne hj, or_iff_right hj]
    rfl

theorem node?_created {j : NodeId} (hj : m.store.isLive j = true) :
    m'.store.node? j = m.store.node? j := by
  by_cases ht : j.isTerminal = true
  · exact h.terminals ht
  · have hlive := hm.store.live_iff.mpr hj
    obtain ⟨r, hr⟩ := hlive.eq_some (Bool.eq_false_iff.mpr ht)
    have hr' : m'.diagram j = some r := (h.other hm hlive).trans hr
    exact (Store.node?_of_diagram hr').trans (Store.node?_of_diagram hr).symm

theorem places_created (hm' : m'.Shared bound) : m.Places n f m' := by
  obtain ⟨hfree, hlowest, hlt⟩ := lowest_created h hm
  exact .free hfree hlowest hlt h.capacity (isLive_created_iff h hm hm') fun _ => node?_created h hm

end Created

/-- In a store that was full, the node takes the lowest slot that the collection has freed, or the
first one behind the old ones. -/
theorem Cleared.places (hclear : m.Cleared m₁) (hm : m.Shared bound)
    (hfull : m.store.slots.next? = none) (hs₁ : m₁.Shared bound) (h : Build.Created m₁ f n m')
    (hs : m'.Shared bound) : m.Places n f m' := by
  obtain ⟨hfree, hlowest, hlt⟩ := lowest_created h hs₁
  have hkept : ∀ j, m₁.store.isLive j = true ↔ m.Kept j := fun j =>
    hs₁.store.live_iff.symm.trans hclear.live_iff
  have hlive : ∀ j, m'.store.isLive j = true ↔ j = f ∨ m.Kept j := fun j => by
    rw [isLive_created_iff h hs₁ hs, hkept]
  have hlowest : ∀ j, j < f → m.Kept j := fun j hj => (hkept j).mp (hlowest j hj)
  have hused : ∀ j, j < m.store.capacity → m.store.isLive j = true := fun _ hj =>
    hm.store.slots.isUsed_of_next?_eq_none hfull hj
  by_cases hold : f < m.store.capacity
  · refine .freed hused hold (fun hf => ?_) hlowest hlive
    rw [(hkept f).mpr hf] at hfree
    cases hfree
  · have hge := Nat.le_of_not_lt hold
    -- All slots before the new one are kept, so none of them is new.
    have heq : f = m.store.capacity := by
      refine Nat.le_antisymm (Nat.le_of_not_lt fun hgt => ?_) hge
      have hlive := hm.store.live_iff.mp (hm.kept_live (hlowest _ hgt))
      exact absurd (FreeSlots.lt_of_isUsed hlive) (Nat.lt_irrefl _)
    refine .grown (fun j hj => hlowest j (Nat.lt_of_lt_of_le hj hge)) heq ?_ hlive
    rw [h.capacity]
    exact hlt

/-- No other live node has the record of an inner one. -/
theorem Orderly.eq_of_record (hm : m.Orderly) (hn : m.diagram f = some n) {j : NodeId}
    (hj : m.store.isLive j = true) (hnode : m.store.node? j = some n) : j = f := by
  have hreduced := hm.shared.reduced
  -- It is no terminal, since the children differ and the level is that of a variable.
  have hin : j.isTerminal = false := by
    rw [Bool.eq_false_iff]
    intro ht
    obtain ⟨r, hr, hinner⟩ := hm.terminals j ht
    obtain rfl := Option.some.inj (hr.symm.trans hnode)
    exact hreduced.low_ne_high hn (hinner (hreduced.label_lt hn))
  exact hreduced.unique (Store.diagram_eq_some.mpr ⟨hin, hj, hnode⟩) hn

/-- A live node whose record is below a level is under it. -/
theorem Shared.under_of_node (hm : m.Shared bound) (hf : m.diagram.Live f)
    (hn : ∃ n, m.node f = .ok n ∧ level < n.level) : m.diagram.Under id (level + 1) f := by
  obtain ⟨n, hn, hlt⟩ := hn
  by_cases ht : f.isTerminal = true
  · exact .inl ht
  · have hin := Bool.eq_false_iff.mpr ht
    exact .inr ⟨n, diagram_of_node (hm.store.live_iff.mp hf) hin hn, hlt⟩

/-- The node that has the record `n` in a later manager, and what that manager has from the earlier
one. -/
theorem Evolves.placed (he : m.Evolves m') (hp : m'.pending = m.pending) (hm : m.Shared m.varNum)
    (hm' : m'.Shared m.varNum) (hg' : m'.Grounded) (hf : m'.diagram f = some n) :
    m.Spares m' ∧ m'.Orderly ∧ m'.store.isLive f = true ∧ m'.store.node? f = some n ∧
      ∀ j, m'.store.isLive j = true → m'.store.node? j = some n → j = f := by
  have hspares := he.spares hp hm hm'
  have horderly := hspares.orderly hm' hg'
  obtain ⟨-, hlive, hnode⟩ := Store.diagram_eq_some.mp hf
  exact ⟨hspares, horderly, hlive, hnode, fun _ hj hj' => horderly.eq_of_record hf hj hj'⟩

/-- A manager in order makes nodes in one of the known ways. -/
theorem Orderly.making (hm : m.Orderly) (hlevel : level < m.varNum) (hne : low ≠ high)
    (hlow : m.Kept low) (hhigh : m.Kept high)
    (hbelow : ∀ c, c = low ∨ c = high → ∃ r, m.node c = .ok r ∧ level < r.level) :
    Build.Making m ⟨level, low, high⟩ m.varNum (Build.mk level low high m) := by
  have hs := hm.shared
  exact Build.making_mk hs hlevel hne hlow hhigh
    (hs.under_of_node (hs.kept_live hlow) (hbelow low (.inl rfl)))
    (hs.under_of_node (hs.kept_live hhigh) (hbelow high (.inr rfl)))

/-- What making a node answers, wherever it takes the node from.  With equal children it answers
these.  Otherwise the node has the record, and no other live node has; it was there, or took the
lowest slot that was free, if need be after a collection and a growth step, and is the only new one.
What the manager names leads to the same nodes with the same records, and the manager is in order
afterwards.  That holds of a failure, too, which creates no node.  It is for want of room, for a
reordering that is due or for an error that stood before. -/
theorem Orderly.mk_places (hm : m.Orderly) (hlevel : level < m.varNum) (hlow : m.Kept low)
    (hhigh : m.Kept high) (hbelow : ∀ c, c = low ∨ c = high → ∃ r, m.node c = .ok r ∧ level < r.level) :
    match Build.mk level low high m with
    | .ok r m' => m.Spares m' ∧ m'.Orderly ∧
      if low = high then r = low ∧ m' = m
      else m'.store.isLive r = true ∧ m'.store.node? r = some ⟨level, low, high⟩ ∧
        (∀ j, m'.store.isLive j = true → m'.store.node? j = some ⟨level, low, high⟩ → j = r) ∧
        m.Places ⟨level, low, high⟩ r m'
    | .error i m' => m.Spares m' ∧ m'.Orderly ∧ m.NoneNew m' ∧
      (i = .reorder ∨ i = .error .nodeLimit ∨ ∃ e, m.error = some e ∧ i = .error e) := by
  have hs := hm.shared
  have hg := hm.grounded
  by_cases heq : low = high
  · have hmk : Build.mk level low high m = .ok low m := by rw [Build.mk, if_pos heq]
    rw [hmk]
    refine ⟨(Evolves.refl m).spares rfl hs hs, hm, ?_⟩
    rw [if_pos heq]
    exact ⟨rfl, rfl⟩
  have habove : ∀ b r, ((⟨level, low, high⟩ : Node).child b).isTerminal = true →
      m.store.node? ((⟨level, low, high⟩ : Node).child b) = some r → level < r.level := fun b r _ hr =>
    lt_level_of_node? (hbelow ((⟨level, low, high⟩ : Node).child b) (by cases b <;> simp)) hr
  have answer : ∀ {r m'}, m.Evolves m' → m'.pending = m.pending → m'.Shared m.varNum → m'.Grounded →
      m'.diagram r = some ⟨level, low, high⟩ → m.Places ⟨level, low, high⟩ r m' →
      m.Spares m' ∧ m'.Orderly ∧
      if low = high then r = low ∧ m' = m
      else m'.store.isLive r = true ∧ m'.store.node? r = some ⟨level, low, high⟩ ∧
        (∀ j, m'.store.isLive j = true → m'.store.node? j = some ⟨level, low, high⟩ → j = r) ∧
        m.Places ⟨level, low, high⟩ r m' := by
    intro r m' he hp hs' hg' hr hplaces
    obtain ⟨hspares, horderly, hlive, hnode, hunique⟩ := he.placed hp hs hs' hg' hr
    refine ⟨hspares, horderly, ?_⟩
    rw [if_neg heq]
    exact ⟨hlive, hnode, hunique, hplaces⟩
  have hmaking := hm.making hlevel heq hlow hhigh hbelow
  generalize Build.mk level low high m = result at hmaking
  cases hmaking with
  | found hr =>
    obtain ⟨-, hlive, hnode⟩ := Store.diagram_eq_some.mp hr
    exact answer (.refl m) rfl hs hg hr (.found hlive hnode rfl)
  | standing he =>
    exact ⟨(Evolves.refl m).spares rfl hs hs, hm, fun _ hid => ⟨hid, rfl⟩, .inr (.inr ⟨_, he, rfl⟩)⟩
  | free h hs' =>
    exact answer (h.evolves hs) h.pending hs' (hg.created h habove)
      (by rw [h.diagram, Function.update_self]) (places_created h hs hs')
  | due hclear hs₁ =>
    have hspares := hclear.toEvolves.spares hclear.pending_eq hs hs₁
    exact ⟨hspares, hspares.orderly hs₁ (hg.cleared hclear), hclear.noneNew hs hs₁, .inl rfl⟩
  | freed hfull hclear hs₁ h hs' =>
    refine answer (hclear.toEvolves.trans (h.evolves hs₁)) (h.pending.trans hclear.pending_eq) hs'
      ((hg.cleared hclear).created h fun b r ht hr => ?_) (by rw [h.diagram, Function.update_self])
      (hclear.places hs hfull hs₁ h hs')
    -- The terminals have the records of before.
    rw [hclear.terminals ht] at hr
    exact habove b r ht hr
  | limit hclear hs₁ =>
    have hspares := (hclear.toEvolves.spares hclear.pending_eq hs hs₁).setError (some .nodeLimit)
    exact ⟨hspares, hspares.orderly (hs₁.setError _) ((hg.cleared hclear).setError _),
      hclear.noneNew hs hs₁, .inr (.inl rfl)⟩

/-- Two nodes that fill the store are named by nobody, so the new one takes the slot of the first. -/
theorem places_in_freed :
    ∃ m m', after (.small 8 8) [.setVarNum 2, .apply .and 2 4, .apply .or 2 4] = some m ∧
      Build.mk 0 NodeId.top 4 m = .ok 6 m' ∧ m.Places ⟨0, NodeId.top, 4⟩ 6 m' ∧ m'.Orderly ∧
      m.store.liveIds = [2, 3, 4, 5, 6, 7] ∧ m.store.node? 6 = some ⟨0, NodeId.bot, 4⟩ ∧
      m'.store.liveIds = [2, 3, 4, 5, 6] ∧ m'.store.node? 6 = some ⟨0, NodeId.top, 4⟩ := by
  have hrun : (after (.small 8 8) [.setVarNum 2, .apply .and 2 4, .apply .or 2 4]).any fun m =>
      m.varNum == 2 && m.literals.toList.contains (4, 5) &&
      m.store.node? NodeId.top == some ⟨2, NodeId.top, NodeId.top⟩ &&
      m.store.node? 4 == some ⟨1, NodeId.bot, NodeId.top⟩ &&
      m.store.liveIds == [2, 3, 4, 5, 6, 7] && m.store.node? 6 == some ⟨0, NodeId.bot, 4⟩ &&
      match Build.mk 0 NodeId.top 4 m with
      | .ok r m' => r == 6 && m'.store.liveIds == [2, 3, 4, 5, 6]
      | .error _ _ => false := by
    decide +kernel
  obtain ⟨m, hm, hfacts⟩ := (Option.any_eq_true _ _).mp hrun
  simp only [Bool.and_eq_true, beq_iff_eq, List.contains_iff_mem, Array.mem_toList_iff] at hfacts
  obtain ⟨⟨⟨⟨⟨⟨hvar, hliteral⟩, htop⟩, h4⟩, hids⟩, h6⟩, hmk⟩ := hfacts
  have hkept : m.Kept 4 := kept_of_rooted (.inr (.inr (.inr (.inl ⟨_, hliteral, .inl rfl⟩))))
  have hbelow : ∀ c, c = NodeId.top ∨ c = 4 → ∃ r, m.node c = .ok r ∧ 0 < r.level := by
    rintro c (rfl | rfl)
    · exact ⟨_, node_eq_ok.mpr htop, by decide⟩
    · exact ⟨_, node_eq_ok.mpr h4, by decide⟩
  have hlevel : 0 < m.varNum := hvar ▸ Nat.zero_lt_two
  have hplaces := (settled_after hm).ready.orderly.mk_places hlevel (kept_of_terminal rfl) hkept hbelow
  generalize hresult : Build.mk 0 NodeId.top 4 m = result at hmk hplaces
  cases result with
  | error i m' => cases hmk
  | ok r m' =>
    simp only [Bool.and_eq_true, beq_iff_eq] at hmk
    obtain ⟨rfl, hids'⟩ := hmk
    obtain ⟨-, horderly, hanswer⟩ := hplaces
    rw [if_neg (by decide)] at hanswer
    exact ⟨m, m', hm, hresult, hanswer.2.2.2, horderly, hids, h6, hids', hanswer.2.1⟩

end Manager

end DecisionDiagram
