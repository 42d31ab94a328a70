/-
Every command keeps a manager in order.

* `Command.Tells` — what the answer to an operator is, by the trees of its operands, and
  `Command.delivers`, that this is what is answered;
* `Command.ensures` — one command, in each of its outcomes but a fault;
* `Manager.Settled.ready` — a run of commands.
-/
import DecisionDiagram.Command
import DecisionDiagram.Proofs.Counting
import DecisionDiagram.Proofs.Operators
import DecisionDiagram.Proofs.Variables

namespace DecisionDiagram

open Manager

namespace Manager

variable {m m' : Manager}

/-- Settings, counts and statistics may change, and an error may be dropped. -/
theorem Ready.adjust (hm : m.Ready) (h : m' = { m with
      computed := m'.computed, config := m'.config, forest := m'.forest, auto := m'.auto,
      error := m'.error, counters := m'.counters })
    (hc : m'.computed.Sound m.diagram m.pairings m.store.TerminalsAt)
    (he : m'.error = none ∨ m'.error = m.error) :
    Completes m [] m' := by
  have herr : m'.error = none ∨ m'.error = some .nodeLimit := by
    rcases he with he | he
    · exact .inl he
    · rw [he]
      exact hm.error
  rw [h]
  exact ⟨⟨⟨⟨hm.store, hm.reduced, hm.table, hm.rooted, hc, herr⟩, hm.order, hm.terminals,
    hm.literals_size, hm.literals, hm.pairings⟩, hm.pending, hm.operands⟩,
    .of_eq rfl rfl rfl rfl rfl⟩

/-- Other nodes may be protected or stand in the pairings, as long as they are live, and touched
pairings have new stamps. -/
theorem Ready.setNames (hm : m.Ready) {roots : Roots} {pairings : Pairings}
    (hr : ∀ id ∈ roots.nodes, m.diagram.Live id) (hp : ∀ id ∈ pairings.nodes, m.diagram.Live id)
    (hfits : pairings.Fits m.varNum) (hnew : m.pairings.Renews pairings) {edited : Option Nat}
    (hcarries : m.Carries edited { m with pairings }) :
    Ready { m with roots, pairings } ∧ m.Passes edited { m with roots, pairings } := by
  refine ⟨⟨⟨⟨hm.store, hm.reduced, hm.table, fun {id} hid => ?_, hm.computed.renews hnew, hm.error⟩,
    hm.order, hm.terminals, hm.literals_size, hm.literals, hfits⟩, hm.pending, hm.operands⟩,
    ⟨Nat.le_refl _, fun h => h, fun hid _ hb => ?_⟩, hcarries.congr rfl rfl rfl, hm.order,
    hm.literals_size, hfits⟩
  · rcases hid with hid | hid | hid | hid | hid
    · exact hm.rooted (.inl hid)
    · exact hm.rooted (.inr (.inl hid))
    · exact hr id hid
    · exact hm.rooted (.inr (.inr (.inr (.inl hid))))
    · exact hp id hid
  · exact Eq.trans (eval_congr (fun _ => hm.reduced.child_live) (fun _ h => h) (fun _ _ => rfl) rfl
      hm.store hm.store (hm.rooted hid.rooted)) hb

end Manager

namespace Action

variable {α : Type} {m : Manager}

/-! ### Settings and counts -/

theorem Safe.update {g : Manager → Manager} (h : ∀ m : Manager, m.Ready → Completes m [] (g m)) :
    Safe (modify g : Action Unit) := fun m hm => h m hm

theorem Safe.previous {f : Manager → α} {g : Manager → Manager}
    (h : ∀ m : Manager, m.Ready → Completes m [] (g m)) : Safe (Action.previous f g) :=
  fun m hm => h m hm

theorem Safe.setting {f : Manager → α} {g : Manager → Manager}
    (h : ∀ m : Manager, g m = { m with
      config := (g m).config, forest := (g m).forest, auto := (g m).auto }) :
    Safe (Action.previous f g) := by
  refine .previous fun m hm => hm.adjust ?_ ?_ (.inr ?_)
  · rw [h]
  · rw [h]
    exact hm.computed
  · rw [h]

theorem Safe.setMaxNodes (limit : Nat) : Safe (Manager.setMaxNodes limit) := by
  refine Safe.get.bind fun _ => ?_
  split
  · exact .fail _
  · exact .setting fun _ => rfl

theorem Safe.setIncreaseFactor (factor : Float) : Safe (Manager.setIncreaseFactor factor) := by
  unfold Manager.setIncreaseFactor
  split
  · exact .fail _
  · exact .setting fun _ => rfl

theorem Safe.setMinFreePercent (percent : Nat) : Safe (Manager.setMinFreePercent percent) := by
  unfold Manager.setMinFreePercent
  split
  · exact .fail _
  · exact .setting fun _ => rfl

theorem Safe.setCacheBits (bits : Nat) : Safe (Manager.setCacheBits bits) := by
  unfold Manager.setCacheBits
  split
  · exact .fail _
  · exact .previous fun m hm => hm.adjust rfl (.resize _ _ _ _ _) (.inr rfl)

theorem Safe.clearError : Safe Manager.clearError :=
  .update fun _ hm => hm.adjust rfl hm.computed (.inl rfl)

/-! ### The order -/

theorem Safe.session {body : Reordering Unit} (h : Reordering.Safe body) :
    Safe (Manager.session body) := by
  intro m hm
  have hdone : ∀ {m'}, m.Rearranged m' → Completes m [] m' := fun h' =>
    ⟨⟨h'.sound, h'.pending.trans hm.pending, h'.operands.trans hm.operands⟩,
      h'.retains.mono fun _ hid => by cases hid⟩
  exact (hm.toSound.session h).mono (fun _ _ => hdone) fun _ _ h => hdone h.2

theorem completes_clear (hm : m.Ready) : Completes m [] { m with pending := [] } :=
  ⟨⟨hm.toSound.setKept [] m.operands (by simp) fun id hid => hm.rooted (.inr (.inl hid)), rfl,
    hm.operands⟩, .of_eq rfl rfl rfl rfl rfl⟩

theorem Safe.reorder (method : ReorderMethod) : Safe (Manager.reorder method) := by
  intro m hm
  have hc := completes_clear hm
  by_cases hidle : (decide (method = .off) || decide (m.varNum < 2)) = true
  · have hres : Ensures { m with pending := [] }
        (Pure.pure ⟨0, m.store.usedCount, m.store.usedCount⟩ : Action ReorderStats)
        (fun _ m' => Completes m [] m') fun _ m' => Completes m [] m' := hc
    exact hres.congr (if_pos hidle)
  · refine ((Safe.session (Reordering.Guided.reorderAll method).walks.safe _ hc.ready).mono
      (fun _ _ h => ?_) fun _ _ h => ?_).congr (if_neg hidle)
    · exact hc.trans h
    · exact hc.trans h

theorem Safe.rearrange {body : Reordering Unit} (h : Reordering.Safe body) :
    Safe (Manager.rearrange body) :=
  (Safe.update fun _ hm => completes_clear hm).bind fun _ => (Safe.session h).bind fun _ => .pure _

theorem Safe.swapVar (v w : Var) : Safe (Manager.swapVar v w) := by
  refine Safe.get.bind fun _ => ?_
  split
  · exact .fail _
  · refine (Safe.read _).bind fun _ => (Safe.read _).bind fun _ => ?_
    split
    · exact .pure _
    · refine (Safe.read _).bind fun _ => (Safe.read _).bind fun _ => ?_
      split
      · exact .rearrange (Reordering.Guided.exchangeAcross _ _ _ _).walks.safe
      · exact .rearrange (Reordering.Guided.exchangeAcross _ _ _ _).walks.safe

theorem Safe.setVarOrder (vars : List Var) : Safe (Manager.setVarOrder vars) := by
  refine Safe.get.bind fun _ => ?_
  split
  · exact .fail _
  · split
    · exact .fail _
    · exact .rearrange (Reordering.Guided.imposeFrom _ _).walks.safe

theorem Safe.addVarBlock (first last : Var) (fixed : Bool) :
    Safe (Manager.addVarBlock first last fixed) := by
  refine (Safe.read _).bind fun _ => (Safe.read _).bind fun _ => Safe.get.bind fun _ => ?_
  dsimp only
  split
  · exact .fail _
  · split
    · exact .fail _
    · exact .update fun _ hm => hm.adjust rfl hm.computed (.inr rfl)

theorem Safe.gc : Safe Manager.gc := by
  intro m hm
  obtain ⟨freed, m', hcollect, hC⟩ := exists_collect hm.store hm.reduced
    fun r hr => hm.rooted (mem_rootNodes.mp hr).2
  unfold Ensures Manager.gc
  simp only [hcollect]
  exact ⟨⟨hm.toSound.evolves hC.evolves (hm.toCoherent.collected hC), hC.pending.trans hm.pending,
    hC.operands.trans hm.operands⟩, hC.evolves.retains fun _ hid => by cases hid⟩

/-! ### Names -/

/-- The call may drop names and edit a pairing, but all named nodes evaluate as before. -/
def Proceeds (edited : Option Nat) (x : Action α) : Prop :=
  ∀ m : Manager, m.Ready → Ensures m x (fun _ m' => m'.Ready ∧ m.Passes edited m') fun _ m' =>
    m'.Ready ∧ m.Passes edited m'

variable {edited : Option Nat}

theorem Safe.proceeds {x : Action α} (hx : Safe x) : Proceeds edited x := fun m hm =>
  (hx m hm).mono (fun _ _ h => ⟨h.ready, h.passes hm _⟩) fun _ _ h => ⟨h.ready, h.passes hm _⟩

theorem Proceeds.read {β : Type} {f : Manager → Except Failure β} {k : β → Action α}
    (h : ∀ m b, m.Ready → f m = .ok b →
      Ensures m (k b) (fun _ m' => m'.Ready ∧ m.Passes edited m') fun _ m' =>
        m'.Ready ∧ m.Passes edited m') : Proceeds edited (Action.read f >>= k) := fun m hm =>
  .read (fun _ => ⟨hm, (Completes.refl hm []).passes hm _⟩) fun b hb => h m b hm hb

theorem named_live (hm : m.Ready) : (∀ id ∈ m.roots.nodes, m.diagram.Live id) ∧
    ∀ id ∈ m.pairings.nodes, m.diagram.Live id :=
  ⟨fun _ hid => hm.rooted (Named.rooted (.inl hid)),
    fun _ hid => hm.rooted (Named.rooted (.inr (.inr hid)))⟩

theorem Proceeds.protect (f : NodeId) : Proceeds none (Manager.protect f) := by
  refine .read fun m _ hm hf => ?_
  have hlive : ∀ id ∈ (m.roots.protect f).nodes, m.diagram.Live id := by
    intro id hid
    rw [Roots.mem_nodes, Roots.count_protect] at hid
    by_cases hold : 0 < m.roots.count id
    · exact (named_live hm).1 id (Roots.mem_nodes.mpr hold)
    · split at hid
      · rename_i h
        exact h.1 ▸ (checkNode_eq hm.store).mp hf
      · omega
  exact hm.setNames hlive (named_live hm).2 hm.pairings (.refl _) (.refl _ m)

theorem Proceeds.release (f : NodeId) : Proceeds none (Manager.release f) := by
  intro m hm
  have hlive : ∀ id ∈ (m.roots.release f).nodes, m.diagram.Live id := by
    intro id hid
    rw [Roots.mem_nodes, Roots.count_release] at hid
    exact (named_live hm).1 id (Roots.mem_nodes.mpr (by omega))
  exact hm.setNames hlive (named_live hm).2 hm.pairings (.refl _) (.refl _ m)

/-! ### Pairings -/

/-- A pairing may be changed as long as its entries are live and fit the variables. -/
theorem Ensures.updatePairings (hm : m.Ready) {f : Manager → Option Pairings}
    {number : Nat} {g : Pairing → Pairing}
    (hf : ∀ p, f m = some p → m.pairings.update? number g = some p)
    (hlive : ∀ t, (∀ id ∈ t.result, m.diagram.Live id) → ∀ id ∈ (g t).result, m.diagram.Live id)
    (hfits : ∀ t : Pairing, (t.result.size = m.varNum ∧ ∀ last, t.last = some last → last < m.varNum) →
      (g t).result.size = m.varNum ∧ ∀ last, (g t).last = some last → last < m.varNum)
    (hplain : ∀ t ∈ m.pairings.tables, m.Plain → ∀ {l : Level} {f : NodeId},
      (g t).result[l]? = some f → (∀ last, (g t).last = some last → last < l) →
      ∃ v, m.order.varAt[l]? = some v ∧ m.positive? v = some f) :
    Ensures m (Manager.updatePairings f) (fun _ m' => m'.Ready ∧ m.Passes (some number) m')
      fun _ m' => m'.Ready ∧ m.Passes (some number) m' := by
  unfold Ensures Manager.updatePairings
  rcases hp : f m with _ | p
  · trivial
  · have hp := hf p hp
    refine hm.setNames (named_live hm).1 (fun id hid => ?_) (hm.pairings.update hp hfits) (.update hp)
      (.update hp hplain)
    obtain ⟨t, ht, hid⟩ := Pairings.mem_nodes.mp hid
    have hold : ∀ t ∈ m.pairings.tables, ∀ id ∈ t.result, m.diagram.Live id :=
      fun t ht id hid => (named_live hm).2 id (Pairings.mem_nodes.mpr ⟨t, ht, hid⟩)
    obtain ⟨i, hi⟩ := Array.mem_iff_getElem?.mp ht
    rcases Pairings.getElem?_update hp hi with ⟨-, ht⟩ | ⟨-, t', ht', rfl⟩
    · exact hold t (Array.mem_of_getElem? ht) id hid
    · exact hlive t' (hold t' (Array.mem_of_getElem? ht')) id hid

theorem identity_live (hm : m.Ready) : ∀ id ∈ m.identity, m.diagram.Live id := by
  intro id hid
  obtain ⟨p, hp, rfl⟩ := mem_identity hm.order hm.literals_size hid
  exact hm.rooted (Named.rooted (.inr (.inl ⟨p, hp, .inl rfl⟩)))

theorem size_identity (m : Manager) : m.identity.size = m.varNum := Array.size_map

theorem Proceeds.newPairing : Proceeds none Manager.newPairing := by
  intro m hm
  refine hm.setNames (named_live hm).1 (fun id hid => ?_) (hm.pairings.create (size_identity m))
    (.create _ _) (.create hm.order hm.literals_size)
  rcases Pairings.mem_nodes_create.mp hid with hid | hid
  · exact (named_live hm).2 id hid
  · exact identity_live hm id hid

theorem Proceeds.resetPairing (number : Nat) :
    Proceeds (some number) (Manager.resetPairing number) := fun m hm =>
  Ensures.updatePairings hm (fun _ h => h) (fun _ _ => identity_live hm)
    (fun _ _ => ⟨size_identity m, fun _ hl => by cases hl⟩)
    fun _ _ _ _ _ hf _ => getElem?_identity hm.order hm.literals_size hf

/-- Entering a live node at a level keeps a pairing in order. -/
theorem Ensures.enterPair (hm : m.Ready) {number : Nat} {level : Level} {g : NodeId}
    (hlevel : level < m.varNum) (hg : m.diagram.Live g) {f : Manager → Option Pairings}
    (hf : ∀ p, f m = some p → m.pairings.set? number level g = some p) :
    Ensures m (Manager.updatePairings f) (fun _ m' => m'.Ready ∧ m.Passes (some number) m')
      fun _ m' => m'.Ready ∧ m.Passes (some number) m' := by
  refine .updatePairings hm hf (fun t ht id hid => ?_) (fun t ⟨hsize, hlast⟩ => ⟨?_, fun l hl => ?_⟩)
    fun t ht hplain l f hf hlast => ?_
  · rcases Array.mem_or_eq_of_mem_setIfInBounds hid with hid | rfl
    · exact ht id hid
    · exact hg
  · rw [Array.size_setIfInBounds]
    exact hsize
  · obtain rfl := Option.some.inj hl
    split
    · exact hlevel
    · rename_i last hl
      exact Nat.max_lt.mpr ⟨hlast last hl, hlevel⟩
  · -- The last level that was set is not above the one that is set now.
    have hbefore := hlast _ rfl
    have hold : level < l ∧ ∀ last, t.last = some last → last < l := by
      split at hbefore
      · rename_i hnone
        exact ⟨hbefore, fun last hl => by rw [hnone] at hl; cases hl⟩
      · rename_i last hsome
        obtain ⟨hlt, hlevel⟩ := Nat.max_lt.mp hbefore
        exact ⟨hlevel, fun last' hl => Option.some.inj (hsome.symm.trans hl) ▸ hlt⟩
    rw [Array.getElem?_setIfInBounds_ne (Nat.ne_of_lt hold.1)] at hf
    exact hplain t ht hf hold.2

theorem Proceeds.setPair (number : Nat) (old new : Var) :
    Proceeds (some number) (Manager.setPair number old new) := by
  refine .read fun m _ hm _ => ?_
  refine Proceeds.read (fun m _ hm _ => ?_) m hm
  refine Proceeds.read (fun m level hm hlevel => ?_) m hm
  rcases hp : m.literals[new]? with _ | p
  · unfold Ensures Manager.updatePairings
    simp [hp]
  · have hlive : m.diagram.Live p.1 :=
      hm.rooted (Named.rooted (.inr (.inl ⟨p, Array.mem_of_getElem? hp, .inl rfl⟩)))
    have hset : ∀ p', (do m.pairings.set? number level (← m.literals[new]?).1) = some p' →
        m.pairings.set? number level p.1 = some p' := by
      intro p' h
      simpa [hp] using h
    exact .enterPair hm (levelOf_lt hm.toSound hlevel) hlive hset

theorem Proceeds.setPairNode (number : Nat) (old : Var) (g : NodeId) :
    Proceeds (some number) (Manager.setPairNode number old g) := by
  refine .read fun m _ hm _ => ?_
  refine Proceeds.read (fun m _ hm hg => ?_) m hm
  have hg := (checkNode_eq hm.store).mp hg
  refine .read (fun _ => ⟨hm, (Completes.refl hm []).passes hm _⟩) fun level hlevel => ?_
  exact .enterPair hm (levelOf_lt hm.toSound hlevel) hg fun _ h => h

end Action

/-! ### A new manager -/

/-- A configuration that is accepted asks for no more slots than there are ids, and for no computed tables
that are too large. -/
theorem Config.bounds {config : Config} (h : config.validate = .ok ()) :
    config.nodeCapacity < 2 ^ 32 ∧ config.cacheBits ≤ maxCacheBits := by
  unfold Config.validate at h
  obtain ⟨-, h⟩ := of_guard_eq_ok h
  obtain ⟨habsent, h⟩ := of_guard_eq_ok h
  obtain ⟨hbits, -⟩ := of_guard_eq_ok h
  have habsent : ¬ 4294967295 ≤ config.nodeCapacity := habsent
  exact ⟨by omega, Nat.le_of_not_lt hbits⟩

/-- A new manager has no variables and no nodes but the terminals. -/
theorem Manager.ready_create {config : Config} {m : Manager} (h : Manager.create config = .ok m) :
    m.Ready := by
  unfold Manager.create at h
  split at h
  · cases h
  · rename_i hconfig
    split at h
    · cases h
    · rename_i store hstore
      obtain rfl := Except.ok.inj h
      obtain ⟨hs, hcap, hterminals, hnone⟩ :=
        Store.ofCapacity?_eq_some (Config.bounds hconfig).1 hstore
      -- The store has no record yet, so what is said of records holds of none.
      have hrecord : ∀ {id n}, ¬ store.diagram id = some n := by
        intro id n h
        rw [hnone id] at h
        cases h
      have hreduced : store.diagram.Reduced id 0 :=
        ⟨fun h => absurd h hrecord, fun h => absurd h hrecord, fun h => absurd h hrecord,
          fun h => absurd h hrecord, fun h => absurd h hrecord⟩
      refine ⟨⟨⟨hs, hreduced, ?_, ?_, .ofBits _ _ _ _, .inl rfl⟩, VarOrder.valid_empty, hterminals,
        rfl, fun hp => ?_, fun t ht => ?_, fun _ => ⟨fun t ht => ?_, fun ht => ?_⟩⟩, rfl, rfl⟩
      · show (UniqueTable.ofCapacity config.nodeCapacity).Indexes store
        rw [← hcap]
        exact UniqueTable.indexes_ofCapacity hs hnone
      · rintro id (hid | hid | hid | ⟨p, hp, -⟩ | hid)
        · cases hid
        · cases hid
        · cases hid
        · simp at hp
        · cases hid
      · simp at hp
      all_goals simp [Pairings.empty] at ht

namespace Command

variable {m : Manager}

theorem perform_of_request {c : Command} {r : Request} (h : c.request? = some r) :
    c.perform = do return .node (← Manager.call r) := by
  cases c <;> cases h <;> rfl

theorem perform_of_count {c : Command} {p : Program Float} (h : c.count? = some p) :
    c.perform = do return .float (← Manager.count p) := by
  cases c <;> cases h <;> rfl

/-- The tree is that of the right answer to an operator, by the trees of its operands. -/
def Tells (c : Command) (m : Manager) (t : Tree) : Prop :=
  let tree := m.diagram.tree
  match c with
  | makeNode level l h => t = Tree.make level (tree l) (tree h)
  | not f => t = (tree f).not
  | apply op l r => t = Tree.apply op (tree l) (tree r)
  | andMany fs => t = fs.foldl (fun t f => Tree.apply .and t (tree f)) (.leaf true)
  | orMany fs => t = fs.foldl (fun t f => Tree.apply .or t (tree f)) (.leaf false)
  | ite f g h => t = Tree.ite (tree f) (tree g) (tree h)
  | makeSet vars =>
    ∀ x, t.eval x = true ↔ ∀ v ∈ vars, ∀ l, m.order.levelOf[v]? = some l → x l = true
  | quantify q f cube => t = Tree.quantifyCube q (tree f) (tree cube)
  | appQuantify q op l r cube =>
    t = Tree.quantifyCube q (Tree.apply op (tree l) (tree r)) (tree cube)
  | restrict f cube => t = Tree.restrict (tree cube).fixes (tree f)
  | constrain f care => t = Tree.constrain (tree f) (tree care)
  | simplify f care => t = Tree.simplify (tree f) (tree care)
  | compose f g v =>
    ∃ level, m.order.levelOf[v]? = some level ∧ t = Tree.compose level (tree f) (tree g)
  | vecCompose f number =>
    Request.Pairs (fun entry last s t => t = Tree.vecCompose entry last s) f number m t
  | replace f number =>
    Request.Pairs (fun entry last s t => Tree.rename (fun k => (entry k).level?) last s = some t) f
      number m t
  | satOne f => t = (tree f).satOne
  | satOneSet f cube polarity => t = Tree.satOneSet polarity (tree f) (tree cube).spine
  | fullSatOne f => t = ((tree f).fullSatOne m.varNum).fill 0 ((tree f).levelOr m.varNum)
  | support f => ∀ x, t.eval x = true ↔ ∀ l ∈ (tree f).levels, x l = true
  | _ => True

/-- Every operator answers the right node, whatever it goes through. -/
theorem delivers {c : Command} {r : Request} (h : c.request? = some r) : r.Delivers c.Tells := by
  cases c <;> cases h
  case makeNode level low high => exact .makeNode level low high
  case not f => exact .not f
  case apply op l r => exact .apply op l r
  case andMany fs => exact .applyMany _ fs rfl
  case orMany fs => exact .applyMany _ fs rfl
  case ite f g h => exact .ite f g h
  case makeSet vars => exact .makeSet vars
  case quantify q f cube => exact .quantify q f cube
  case appQuantify q op l r cube => exact .appQuantify q op l r cube
  case restrict f cube => exact .restrict f cube
  case constrain f care => exact .constrain f care
  case simplify f care => exact .simplify f care
  case compose f g v => exact .compose f g v
  case vecCompose f number => exact .vecCompose f number
  case replace f number => exact .replace f number
  case satOne f => exact .satOne f
  case satOneSet f cube polarity => exact .satOneSet f cube polarity
  case fullSatOne f => exact .fullSatOne f
  case support f => exact .support f

theorem fulfilled {c : Command} {r : Request} (h : c.request? = some r) : r.Fulfilled :=
  (delivers h).fulfilled

theorem inert {c : Command} {p : Program Float} (h : c.count? = some p) : p.Inert := by
  cases c <;> cases h
  case satCount f => exact .satCount f
  case satCountSet f cube => exact .satCountSet f cube
  case pathCount f => exact .pathCount f

/-- Every count of live nodes has an answer, and any other is declined. -/
theorem counts {c : Command} {p : Program Float} (h : c.count? = some p) (hm : m.Sound) :
    p.Declines m ∨ ∃ x, p.Counts m x := by
  cases c <;> cases h
  case satCount f =>
    by_cases hf : m.diagram.Live f
    · exact .inr ⟨_, .satCount hm hf⟩
    · exact .inl (.check hm hf)
  case satCountSet f cube =>
    by_cases hcube : m.diagram.Live cube
    · by_cases hf : m.diagram.Live f
      · exact .inr ⟨_, .satCountSet hm hcube hf⟩
      · exact .inl (.satCountSet hm hcube hf)
    · exact .inl (.check hm hcube)
  case pathCount f =>
    by_cases hf : m.diagram.Live f
    · exact .inr ⟨_, .pathCount hm hf⟩
    · exact .inl (.check hm hf)

/-- The pairing that a command edits. -/
def edited? : Command → Option Nat
  | setPair number _ _ => some number
  | setPairNode number _ _ => some number
  | resetPairing number => some number
  | _ => none

/-- What a command achieves, in each of its outcomes but a fault. -/
theorem ensures (hm : m.Ready) (c : Command) :
    Action.Ensures m c.perform (fun _ m' => m'.Ready ∧ m.Passes c.edited? m') fun e m' =>
      m.Passes c.edited? m' ∧ ((c.isExtension = true → e ≠ .nodeLimit) → m'.Ready) := by
  -- A failure may leave new variables incomplete; a pairing may be edited; all else is safe.
  have enlarges : ∀ {α : Type} {x : Action α} {f : α → Answer} {e : Bool}, e = true →
      Action.Extends x →
      Action.Ensures m (do return f (← x)) (fun _ m' => m'.Ready ∧ m.Passes none m') fun err m' =>
        m.Passes none m' ∧ ((e = true → err ≠ .nodeLimit) → m'.Ready) := fun he hx =>
    .bind ((hx m hm).mono (fun _ _ h => ⟨h.ready, h.passes hm _⟩) fun _ _ h =>
      ⟨h.1, fun hne => h.2 (hne he)⟩) fun _ _ h => h
  have proceeds : ∀ {α : Type} {x : Action α} {f : α → Answer} {e : Bool} {edited : Option Nat},
      Action.Proceeds edited x →
      Action.Ensures m (do return f (← x)) (fun _ m' => m'.Ready ∧ m.Passes edited m') fun err m' =>
        m.Passes edited m' ∧ ((e = true → err ≠ .nodeLimit) → m'.Ready) := fun hx =>
    .bind ((hx m hm).mono (fun _ _ h => h) fun _ _ h => ⟨h.2, fun _ => h.1⟩) fun _ _ h => h
  have safe : ∀ {α : Type} {x : Action α} {f : α → Answer} {e : Bool} {edited : Option Nat},
      Action.Safe x →
      Action.Ensures m (do return f (← x)) (fun _ m' => m'.Ready ∧ m.Passes edited m') fun err m' =>
        m.Passes edited m' ∧ ((e = true → err ≠ .nodeLimit) → m'.Ready) := fun hx =>
    proceeds hx.proceeds
  rcases hr : c.request? with _ | r
  case some =>
    rw [perform_of_request hr]
    exact safe (.call (fulfilled hr))
  rcases hp : c.count? with _ | p
  case some =>
    rw [perform_of_count hp]
    exact safe (.count (inert hp) fun _ hm => counts hp hm)
  cases c with
  | setVarNum num => exact enlarges rfl (.setVarNum num)
  | extVarNum extra => exact enlarges rfl (.extVarNum extra)
  | ithVar v => exact safe (.read _)
  | nithVar v => exact safe (.read _)
  | varToLevel v => exact safe (.read _)
  | levelToVar level => exact safe (.read _)
  | levelOf f => exact safe (.read _)
  | varOf f => exact safe (.read _)
  | low f => exact safe (.read _)
  | high f => exact safe (.read _)
  | protect f => exact proceeds (.protect f)
  | release f => exact proceeds (.release f)
  | gc => exact safe (.gc)
  | newPairing => exact proceeds (.newPairing)
  | setPair number old new => exact proceeds (.setPair number old new)
  | setPairNode number old g => exact proceeds (.setPairNode number old g)
  | resetPairing number => exact proceeds (.resetPairing number)
  | eval f assignment => exact safe (.read _)
  | allSat f limit => exact safe (.read _)
  | satCountExact f => exact safe (.read _)
  | nodeCount f => exact safe (.read _)
  | nodeCountMany fs => exact safe (.read _)
  | varProfile f => exact safe (.read _)
  | descendants fs => exact safe (.read _)
  | validate f => exact safe (.read _)
  | validateAll => exact safe (.read _)
  | reorder method => exact safe (.reorder method)
  | setAutoReorder method times => exact safe (.setting fun _ => rfl)
  | disableReorder => exact safe (.update fun _ hm => hm.adjust rfl hm.computed (.inr rfl))
  | enableReorder => exact safe (.update fun _ hm => hm.adjust rfl hm.computed (.inr rfl))
  | swapVar v w => exact safe (.swapVar v w)
  | setVarOrder vars => exact safe (.setVarOrder vars)
  | addVarBlock first last fixed => exact safe (.addVarBlock first last fixed)
  | clearVarBlocks => exact safe (.update fun _ hm => hm.adjust rfl hm.computed (.inr rfl))
  | clearError => exact safe (.clearError)
  | setMaxNodes limit => exact safe (.setMaxNodes limit)
  | setMaxIncrease increase => exact safe (.setting fun _ => rfl)
  | setIncreaseFactor factor => exact safe (.setIncreaseFactor factor)
  | setMinFreePercent percent => exact safe (.setMinFreePercent percent)
  | setCacheRatio ratio => exact safe (.setting fun _ => rfl)
  | setCachePolicy policy => exact safe (.setting fun _ => rfl)
  | setCacheBits bits => exact safe (.setCacheBits bits)
  | satCount => cases hp
  | satCountSet => cases hp
  | pathCount => cases hp
  | _ => cases hr

/-- Unless a command ends in a fault, all named nodes evaluate as before and all pairings that it does
not edit are carried over. -/
theorem run_passes (hm : m.Ready) (c : Command) (h : (c.run m).1 ≠ .error .fault) :
    m.Passes c.edited? (c.run m).2 := by
  have hens := ensures hm c
  unfold Action.Ensures at hens
  unfold run at h ⊢
  rcases hx : c.perform m with ⟨answer, m'⟩ | ⟨e | _, m'⟩
  · rw [hx] at hens
    exact hens.2
  · rw [hx] at hens
    exact hens.1
  · simp [hx] at h

/-- Unless a command ends in a fault, all named nodes evaluate as before; and unless it asked for
more variables than there was room for, the manager is ready for the next command. -/
theorem run_spec (hm : m.Ready) (c : Command) (h : (c.run m).1 ≠ .error .fault) :
    m.Follows (c.run m).2 ∧
      ((c.isExtension = true → (c.run m).1 ≠ .error (.error .nodeLimit)) → (c.run m).2.Ready) := by
  refine ⟨(run_passes hm c h).follows, ?_⟩
  have hens := ensures hm c
  unfold Action.Ensures at hens
  unfold run at h ⊢
  rcases hx : c.perform m with ⟨answer, m'⟩ | ⟨e | _, m'⟩
  · rw [hx] at hens
    exact fun _ => hens.1
  · rw [hx] at hens
    refine fun hc => hens.2 fun hext he => ?_
    rw [he] at hc
    exact hc hext rfl
  · simp [hx] at h

end Command

/-- A manager that commands lead to is ready for the next one. -/
theorem Manager.Settled.ready {m : Manager} (h : m.Settled) : m.Ready := by
  induction h with
  | create h => exact ready_create h
  | call c _ h complete ih => exact (c.run_spec ih h).2 complete

end DecisionDiagram
