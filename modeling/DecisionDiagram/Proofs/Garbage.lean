/-
A collection is exact: it keeps what is needed, and nothing else.

* `Manager.Needed` — what the protected nodes, the literals and the pairings lead to;
* `Manager.tally`, `follow_count` — how often something has happened in a run; a node is protected as
  often as its protections outnumber its releases;
* `Collected.freed_eq` — a collection counts the nodes that it frees;
* `Collected.again` — a second one finds nothing to free;
* `Manager.gc_exact` — all this of a collection after any run.
-/
import DecisionDiagram.Proofs.Frames
import DecisionDiagram.Proofs.Runs

namespace DecisionDiagram

/-! ### Protection along a run -/

namespace Command

variable {c : Command} {m : Manager} {id : NodeId}

/-- How often a command protects a node: once, if it is asked to and does not fail. -/
def protects (id : NodeId) (c : Command) (m : Manager) : Nat :=
  match c, (c.run m).1 with
  | .protect f, .ok _ => if f = id then 1 else 0
  | _, _ => 0

/-- How often a command releases a node: once, if it is asked to and there is a protection to drop. -/
def releases (id : NodeId) (c : Command) (m : Manager) : Nat :=
  match c, (c.run m).1 with
  | .release f, .ok (.truth true) => if f = id then 1 else 0
  | _, _ => 0

theorem protects_of_not_registers (h : c.registers = false) : c.protects id m = 0 := by
  cases c <;> first | rfl | cases h

theorem releases_of_not_registers (h : c.registers = false) : c.releases id m = 0 := by
  cases c <;> first | rfl | cases h

/-- No command but a protection or a release changes how often a node is protected. -/
theorem roots_eq (hr : c.registers = false) (h : (c.run m).1 ≠ .error .fault) :
    (c.run m).2.roots = m.roots := by
  rcases hreq : c.request? with _ | r
  · cases ha : c.arms
    · exact (within_run (restful hreq ha) h).roots hr
    · cases c <;> cases ha
      rfl
  · exact (within_run (within_operator hreq) h).roots

theorem run_protect (f : NodeId) (m : Manager) :
    (∃ e, (Command.protect f).run m = (.error e, m)) ∨
      (Command.protect f).run m = (.ok (.node f), { m with roots := m.roots.protect f }) := by
  rcases hf : m.checkNode f with e | _
  · left
    refine ⟨e, ?_⟩
    simp only [run, perform, Manager.protect, Action.read, hf, bind, EStateM.bind]
  · right
    simp only [run, perform, Manager.protect, Action.read, hf, bind, EStateM.bind]
    rfl

theorem run_release (f : NodeId) (m : Manager) : (Command.release f).run m =
    (.ok (.truth (m.roots.contains f)), { m with roots := m.roots.release f }) := rfl

/-- A command that protects a node adds to its count, one that releases it takes away from it. -/
theorem count_run (hid : id.isTerminal = false) (h : (c.run m).1 ≠ .error .fault) :
    (c.run m).2.roots.count id + c.releases id m = m.roots.count id + c.protects id m := by
  -- Only `protect` and `release` touch the counts of the roots.
  by_cases hr : c.registers = true
  · cases c with
    | protect f =>
      rcases run_protect f m with ⟨e, hrun⟩ | hrun
      · simp [protects, releases, hrun]
      · by_cases hf : id = f
        · subst hf
          simp [protects, releases, hrun, hid]
        · simp [protects, releases, hrun, hf, Ne.symm hf]
    | release f =>
      by_cases hf : id = f
      · subst hf
        rcases hc : m.roots.contains id with _ | _
        · have hzero : m.roots.count id = 0 := by
            by_contra hpos
            rw [Roots.contains_iff.mpr (Nat.pos_of_ne_zero hpos)] at hc
            cases hc
          simp [protects, releases, run_release, hc, hzero]
        · have hpos := Roots.contains_iff.mp hc
          simp only [protects, releases, run_release, hc, Roots.count_release, if_pos]
          omega
      · have hne : f ≠ id := Ne.symm hf
        rcases hc : m.roots.contains f with _ | _ <;>
          simp [protects, releases, run_release, hc, hf, hne]
    | _ => cases hr
  · have hr := Bool.eq_false_iff.mpr hr
    rw [roots_eq hr h, protects_of_not_registers hr, releases_of_not_registers hr]

end Command

namespace Manager

variable {m m₀ m' : Manager} {commands : List Command} {id : NodeId}

/-- How often something happens in a run. -/
def tally (count : Command → Manager → Nat) (m : Manager) : List Command → Nat
  | [] => 0
  | c :: rest => count c m + tally count (c.run m).2 rest

/-- After a run, a node is protected as often as before, and once more for each protection and once less
for each release. -/
theorem follow_count (hid : id.isTerminal = false) (h : m.follow commands = some m') :
    m'.roots.count id + m.tally (Command.releases id) commands =
      m.roots.count id + m.tally (Command.protects id) commands := by
  induction commands generalizing m with
  | nil =>
    obtain rfl := Option.some.inj h
    rfl
  | cons c rest ih =>
    obtain ⟨hfault, -, hrest⟩ := follow_cons h
    have hstep := Command.count_run hid hfault
    have hrun := ih hrest
    rw [tally, tally]
    omega

theorem roots_create {config : Config} (h : create config = .ok m) : m.roots = Roots.empty := by
  unfold create at h
  split at h
  · cases h
  · split at h
    · cases h
    · obtain rfl := Except.ok.inj h
      rfl

/-- From the beginning, a node is in the registry if its protections outnumber its releases. -/
theorem mem_roots_follow {config : Config} (hcreate : create config = .ok m₀)
    (h : m₀.follow commands = some m) (hid : id.isTerminal = false) :
    id ∈ m.roots.nodes ↔
      m₀.tally (Command.releases id) commands < m₀.tally (Command.protects id) commands := by
  have hcount := follow_count hid h
  rw [roots_create hcreate, Roots.count_empty] at hcount
  rw [Roots.mem_nodes]
  omega

/-! ### What is needed -/

/-- The node is a terminal, or can be reached from a protected node, a literal or an entry of a
pairing. -/
def Needed (m : Manager) (id : NodeId) : Prop :=
  ∃ r, (r.isTerminal = true ∨ m.Named r) ∧ m.diagram.Reaches r id

/-- Between two calls, a collection keeps what is needed. -/
theorem Idle.kept_iff_needed (h : m.Idle) {id : NodeId} : m.Kept id ↔ m.Needed id := by
  refine exists_congr fun r => and_congr_left fun _ => ?_
  rw [mem_rootNodes, Rooted, h.1, h.2]
  by_cases hr : r.isTerminal = true
  · simp [hr]
  · simp [hr, Named]

/-! ### What a collection leaves -/


/-- A collection answers how many slots it adds to the free ones. -/
theorem freed_collect {freed : Nat} (h : m.collect = some (freed, m')) :
    freed = m'.store.freeCount - m.store.freeCount := by
  unfold collect at h
  split at h
  · cases h
  · dsimp only at h
    split at h
    · cases h
    · obtain ⟨rfl, rfl⟩ := Prod.mk.inj (Option.some.inj h)
      rfl

/-- What a collection keeps, another one would keep. -/
theorem Collected.kept_iff (h : m.Collected m') {id : NodeId} : m'.Kept id ↔ m.Kept id := by
  have hroots : m'.rootNodes = m.rootNodes := by
    rw [rootNodes, rootNodes, h.pending, h.operands, h.roots, h.literals, h.pairings]
  rw [Kept, hroots]
  constructor
  · rintro ⟨r, hr, hreach⟩
    exact Diagram.Closed.reaches (Diagram.Closed.congr (kept_closed m) h.kept) ⟨r, hr, .refl⟩ hreach
  · exact Diagram.Below.congr h.kept (List.Subset.refl _)

/-- The slots that become free are those of the nodes that are not live any more. -/
theorem Collected.freed_eq (h : m.Collected m') (hs : m.store.Valid)
    (hlive : ∀ {id}, m.Kept id → m.diagram.Live id) :
    m'.store.freeCount - m.store.freeCount =
      {id | m.diagram.Live id ∧ ¬ m'.diagram.Live id}.ncard := by
  have hsub : {id | m'.diagram.Live id} ⊆ {id | m.diagram.Live id} := fun id hid =>
    (h.node?_eq hlive hid).1
  have hdiff : {id | m.diagram.Live id ∧ ¬ m'.diagram.Live id} =
      {id | m.diagram.Live id} \ {id | m'.diagram.Live id} := rfl
  have hbefore : m.store.capacity - m.store.freeCount = {id | m.diagram.Live id}.ncard :=
    hs.usedCount_eq_ncard
  have hafter : m.store.capacity - m'.store.freeCount = {id | m'.diagram.Live id}.ncard :=
    h.capacity ▸ h.store.usedCount_eq_ncard
  have hle : m.store.freeCount ≤ m.store.capacity := hs.slots.free_le
  have hle' : m'.store.freeCount ≤ m.store.capacity := h.capacity ▸ h.store.slots.free_le
  have hcard := Set.ncard_le_ncard hsub hs.finite_live
  rw [hdiff, Set.ncard_sdiff hsub h.store.finite_live]
  omega

/-- A second collection frees nothing. -/
theorem Collected.again {m'' : Manager} (h : m.Collected m') (h' : m'.Collected m'')
    (hlive : ∀ {id}, m.Kept id → m.diagram.Live id) :
    m''.store.freeCount - m'.store.freeCount = 0 := by
  have hlive' : ∀ {id}, m'.Kept id → m'.diagram.Live id := fun hid =>
    (h.live_iff hlive).mpr (h.kept_iff.mp hid)
  have hnone : {id | m'.diagram.Live id ∧ ¬ m''.diagram.Live id} = ∅ := by
    rw [Set.eq_empty_iff_forall_notMem]
    rintro id ⟨hid, hnot⟩
    exact hnot ((h'.live_iff hlive').mpr (h.kept_iff.mpr ((h.live_iff hlive).mp hid)))
  rw [h'.freed_eq h.store hlive', hnone, Set.ncard_empty]

/-- The same number, as that of the members of a list. -/
theorem Collected.length_freed (h : m.Collected m') (hs : m.store.Valid) :
    {id | m.diagram.Live id ∧ ¬ m'.diagram.Live id}.ncard =
      (m.store.liveIds.filter fun id => !m'.store.isLive id).length := by
  have hset : {id | m.diagram.Live id ∧ ¬ m'.diagram.Live id} =
      ((m.store.liveIds.filter fun id => !m'.store.isLive id).toFinset : Set NodeId) := by
    ext id
    rw [Set.mem_ofPred_eq, List.coe_toFinset, Set.mem_ofPred_eq, List.mem_filter,
      Bool.not_eq_true', ← Bool.not_eq_true, ← h.store.live_iff, ← hs.isSome_iff]
    exact and_congr_left fun hnot => or_iff_right fun ht => hnot (.inl ht)
  rw [hset, Set.ncard_coe_finset,
    List.toFinset_card_of_nodup (m.store.liveIds_nodup.filter _)]

/-- Collection is exact.  After any run, a collection leaves live the terminals and what can be reached
from the nodes whose protections outnumber their releases, the literals and the entries of pairings.
The survivors keep their records, and the unique table holds the inner ones and nothing else.  The
answer is the number of inner nodes that were live before and are not any more; a second collection
frees nothing. -/
theorem gc_exact {config : Config} (hcreate : create config = .ok m₀)
    (hrun : m₀.follow commands = some m) :
    ∃ freed m', Command.gc.run m = (.ok (.number freed), m') ∧
      (∀ id : NodeId, m'.store.isLive id = true ↔ id.isTerminal = true ∨
        ∃ r, (m₀.tally (Command.releases r) commands < m₀.tally (Command.protects r) commands ∨
          (∃ p ∈ m.literals, r = p.1 ∨ r = p.2) ∨ r ∈ m.pairings.nodes) ∧
          m.diagram.Reaches r id) ∧
      (∀ id, m'.store.isLive id = true →
        m.store.isLive id = true ∧ m'.store.node? id = m.store.node? id) ∧
      (∀ id : NodeId, id ≠ 0 →
        ((∃ slot : Nat, m'.table.slots[slot]? = some id) ↔ id ∈ m'.store.liveIds)) ∧
      (∀ (slot slot' : Nat) (id : NodeId), m'.table.slots[slot]? = some id →
        m'.table.slots[slot']? = some id → id ≠ 0 → slot = slot') ∧
      (∀ id ∈ m'.store.liveIds, ∃ n, m'.store.node? id = some n ∧
        m'.table.find m'.store.nodes n = some (.found id)) ∧
      freed = (m.store.liveIds.filter fun id => !m'.store.isLive id).length ∧
      (Command.gc.run m').1 = .ok (.number 0) := by
  have hm : m.Settled := (Settled.create hcreate).follow hrun
  have hready := hm.ready
  obtain ⟨freed, m', hcollect, hC⟩ := exists_collect hready.store hready.reduced fun r hr =>
    hready.rooted (mem_rootNodes.mp hr).2
  have hlive : ∀ {id}, m.Kept id → m.diagram.Live id := hready.kept_live
  obtain ⟨freed', m'', hcollect', hC'⟩ := exists_collect hC.store (hC.reduced hready.reduced)
    fun r hr => (hC.live_iff hlive).mpr (hC.kept_iff.mp (kept_of_rooted (mem_rootNodes.mp hr).2))
  refine ⟨freed, m', ?_, fun id => ?_, fun id hid => ?_,
    fun id hid => hC.table.mem_slots hC.store hid,
    fun slot slot' id hslot hslot' hid => hC.table.slot_unique hslot hslot' hid,
    fun id hid => ?_, ?_, ?_⟩
  · simp only [Command.run, Command.perform, gc, hcollect, bind, EStateM.bind]
    rfl
  · have hneeded : m'.store.isLive id = true ↔ m.Needed id :=
      (hC.store.live_iff.symm.trans (hC.live_iff hlive)).trans hm.reachable.idle.kept_iff_needed
    rw [hneeded]
    constructor
    · rintro ⟨r, hr, hreach⟩
      by_cases ht : r.isTerminal = true
      · exact .inl (hready.reduced.eq_of_reaches ht hreach ▸ ht)
      · have ht := Bool.eq_false_iff.mpr ht
        refine .inr ⟨r, ?_, hreach⟩
        exact (hr.resolve_left (by rw [ht]; exact Bool.false_ne_true)).imp_left
          (mem_roots_follow hcreate hrun ht).mp
    · rintro (ht | ⟨r, hr, hreach⟩)
      · exact ⟨id, .inl ht, .refl⟩
      · by_cases ht : r.isTerminal = true
        · exact ⟨r, .inl ht, hreach⟩
        · have ht := Bool.eq_false_iff.mpr ht
          exact ⟨r, .inr (hr.imp_left (mem_roots_follow hcreate hrun ht).mpr), hreach⟩
  · obtain ⟨hbefore, hnode⟩ := hC.node?_eq hlive (hC.store.live_iff.mpr hid)
    exact ⟨hready.store.live_iff.mp hbefore, hnode⟩
  · obtain ⟨n, hn⟩ := hC.store.mem_liveIds.mp hid
    exact ⟨n, Store.node?_of_diagram hn,
      hC.table.find_eq hC.store (fun hi hj => (hC.reduced hready.reduced).unique hi hj) hn⟩
  · rw [freed_collect hcollect, hC.freed_eq hready.store hlive, hC.length_freed hready.store]
  · have hzero : freed' = 0 := (freed_collect hcollect').trans (hC.again hC' hlive)
    simp only [Command.run, Command.perform, gc, hcollect', hzero, bind, EStateM.bind]
    rfl

/-- A conjunction is released as often as it was protected, a disjunction less often. -/
theorem gc_exact_released :
    ∃ m₀ m m', create (.small 16 16) = .ok m₀ ∧
      m₀.follow [.setVarNum 2, .apply .and 2 4, .apply .or 2 4, .protect 6, .protect 7, .protect 7,
        .release 7, .release 6] = some m ∧
      m.store.isLive 6 = true ∧ Command.gc.run m = (.ok (.number 1), m') ∧
      m'.store.isLive 7 = true ∧ m'.store.isLive 6 = false ∧
      (Command.gc.run m').1 = .ok (.number 0) := by
  have hrun : (create (.small 16 16)).toOption.any fun m₀ =>
      (m₀.follow [.setVarNum 2, .apply .and 2 4, .apply .or 2 4, .protect 6, .protect 7, .protect 7,
        .release 7, .release 6]).any fun m =>
        m.store.isLive 6 &&
          m₀.tally (Command.releases 7) [.setVarNum 2, .apply .and 2 4, .apply .or 2 4, .protect 6,
            .protect 7, .protect 7, .release 7, .release 6] <
          m₀.tally (Command.protects 7) [.setVarNum 2, .apply .and 2 4, .apply .or 2 4, .protect 6,
            .protect 7, .protect 7, .release 7, .release 6] &&
          (m.store.liveIds.filter fun id => !(Command.gc.run m).2.store.isLive id) == [6] := by
    decide +kernel
  obtain ⟨m₀, hcreate, hrun⟩ := (Option.any_eq_true _ _).mp hrun
  obtain ⟨m, hm, hfacts⟩ := (Option.any_eq_true _ _).mp hrun
  simp only [Bool.and_eq_true, beq_iff_eq, decide_eq_true_eq] at hfacts
  obtain ⟨⟨hlive, htally⟩, hgone⟩ := hfacts
  have hcreate : create (.small 16 16) = .ok m₀ := by
    revert hcreate
    rcases create (.small 16 16) with e | m₁
    · exact fun h => by cases h
    · exact fun h => congrArg Except.ok (Option.some.inj h)
  obtain ⟨freed, m', hgc, hexact, -, -, -, -, hfreed, hagain⟩ := gc_exact hcreate hm
  rw [hgc] at hgone
  obtain rfl : freed = 1 := by rw [hfreed, hgone]; rfl
  have hmem : 6 ∈ m.store.liveIds.filter fun id => !m'.store.isLive id := by
    rw [hgone]
    simp
  have hdead := (List.mem_filter.mp hmem).2
  rw [Bool.not_eq_true'] at hdead
  exact ⟨m₀, m, m', hcreate, hm, hlive, hgc,
    (hexact 7).mpr (.inr ⟨7, .inl htally, .refl⟩), hdead, hagain⟩

end Manager

end DecisionDiagram
