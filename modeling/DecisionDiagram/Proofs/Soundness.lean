/-
What holds of a manager, and what an operator leaves as it is.

* `Manager.Coherent` — the store is in order, its diagram reduced, the unique table its index, the
  computed tables right, and whatever a collection starts from is live;
* `Manager.Sound` — besides, the variable order is a permutation, the terminals stand below all
  variables and each variable has its two literals;
* `Manager.Evolves` — how a manager changes while an operator runs: the nodes that a collection
  would keep stay as they are, and so does everything but the graph and its tables.
-/
import DecisionDiagram.Proofs.Index
import DecisionDiagram.Proofs.Order
import DecisionDiagram.Proofs.Queries

namespace DecisionDiagram

namespace Manager

/-- The records of the inner nodes. -/
def diagram (m : Manager) : Diagram := m.store.diagram

/-- The value of a node when each variable has the value that `a` gives it. -/
def Value (m : Manager) (a : Var → Bool) (id : NodeId) (b : Bool) : Prop :=
  m.diagram.Eval (fun l => a (m.order.varAt.getD l 0)) id b

/-- The node is named by the manager itself: it is pending or an operand, protected, a literal or an
entry of a pairing. -/
def Rooted (m : Manager) (id : NodeId) : Prop :=
  id ∈ m.pending ∨ id ∈ m.operands ∨ id ∈ m.roots.nodes ∨
    (∃ p ∈ m.literals, id = p.1 ∨ id = p.2) ∨ id ∈ m.pairings.nodes

/-- The node is protected, a literal or an entry of a pairing. -/
def Named (m : Manager) (id : NodeId) : Prop :=
  id ∈ m.roots.nodes ∨ (∃ p ∈ m.literals, id = p.1 ∨ id = p.2) ∨ id ∈ m.pairings.nodes

/-- A collection keeps the node. -/
def Kept (m : Manager) (id : NodeId) : Prop := m.diagram.Below m.rootNodes id

/-- The graph of a manager, with its labels below `bound`, fits its tables. -/
structure Coherent (m : Manager) (bound : Nat) : Prop where
  store : m.store.Valid
  reduced : m.diagram.Reduced id bound
  table : m.table.Indexes m.store
  rooted : ∀ {id}, m.Rooted id → m.diagram.Live id
  computed : m.computed.Sound m.diagram m.pairings m.store.TerminalsAt
  error : m.error = none ∨ m.error = some .nodeLimit

/-- Everything that a manager has to satisfy while an operator runs. -/
structure Sound (m : Manager) : Prop extends Coherent m m.varNum where
  order : m.order.Valid
  terminals : m.store.TerminalsAt m.varNum
  literals_size : m.literals.size = m.varNum
  literals : ∀ {v : Var} {p l}, m.literals[v]? = some p → m.order.levelOf[v]? = some l →
    m.diagram p.1 = some ⟨l, NodeId.bot, NodeId.top⟩ ∧
    m.diagram p.2 = some ⟨l, NodeId.top, NodeId.bot⟩
  pairings : m.pairings.Fits m.varNum

/-- The two managers differ in the graph, its tables, the pending nodes, the standing error and the
counters at most. -/
structure SameFrame (m m' : Manager) : Prop where
  order : m'.order = m.order
  literals : m'.literals = m.literals
  operands : m'.operands = m.operands
  roots : m'.roots = m.roots
  pairings : m'.pairings = m.pairings
  forest : m'.forest = m.forest
  auto : m'.auto = m.auto
  config : m'.config = m.config

/-- The manager `m'` comes about from `m` within an operator. -/
structure Evolves (m m' : Manager) : Prop extends SameFrame m m' where
  pending : m.pending ⊆ m'.pending
  terminals : ∀ {id : NodeId}, id.isTerminal = true → m'.store.node? id = m.store.node? id
  kept : ∀ id, m.Kept id → m'.diagram id = m.diagram id

variable {m m₁ m₂ : Manager} {bound bound' : Nat}

/-! ### Values -/

theorem Value.live {id : NodeId} {a : Var → Bool} {b : Bool} (h : m.Value a id b) :
    m.diagram.Live id := by
  cases h with
  | bot => exact .inl rfl
  | top => exact .inl rfl
  | node hn _ => exact Diagram.live_of_eq_some hn

theorem Coherent.exists_value (h : m.Coherent bound) {id : NodeId} (hid : m.diagram.Live id)
    (a : Var → Bool) : ∃ b, m.Value a id b := h.reduced.exists_eval (fun _ hv => hv) _ hid

/-! ### Kept nodes -/

theorem Named.rooted {id : NodeId} (h : m.Named id) : m.Rooted id := .inr (.inr h)

theorem named_literal {v : Var} {p : NodeId × NodeId} (hp : m.literals[v]? = some p) :
    m.Named p.1 ∧ m.Named p.2 :=
  have hmem := Array.mem_of_getElem? hp
  ⟨.inr (.inl ⟨p, hmem, .inl rfl⟩), .inr (.inl ⟨p, hmem, .inr rfl⟩)⟩

theorem mem_rootNodes {id : NodeId} : id ∈ m.rootNodes ↔ id.isTerminal = false ∧ m.Rooted id := by
  simp only [rootNodes, Rooted, List.mem_filter, List.mem_append, List.mem_flatMap,
    Array.mem_toList_iff, List.mem_cons, List.not_mem_nil, or_false, Bool.not_eq_true', or_assoc]
  exact and_comm

theorem kept_of_terminal {id : NodeId} (h : id.isTerminal = true) : m.Kept id :=
  Diagram.below_of_terminal h

theorem kept_of_rooted {id : NodeId} (h : m.Rooted id) : m.Kept id := by
  by_cases ht : id.isTerminal = true
  · exact kept_of_terminal ht
  · exact Diagram.below_of_mem (mem_rootNodes.mpr ⟨Bool.eq_false_iff.mpr ht, h⟩)

theorem kept_of_pending {id : NodeId} (h : id ∈ m.pending) : m.Kept id := kept_of_rooted (.inl h)

theorem kept_closed (m : Manager) : m.diagram.Closed m.Kept := Diagram.below_closed _ _

theorem Kept.child {id : NodeId} {n : Node} (h : m.Kept id) (hn : m.diagram id = some n) (b : Bool) :
    m.Kept (n.child b) := kept_closed m h ⟨n, b, hn, rfl⟩

theorem Coherent.kept_live (h : m.Coherent bound) {id : NodeId} (hid : m.Kept id) : m.diagram.Live id :=
  hid.live h.reduced fun _ hr => h.rooted (mem_rootNodes.mp hr).2

theorem Coherent.distinct (h : m.Coherent bound) : m.store.Distinct :=
  fun hi hj => h.reduced.unique hi hj

/-! ### Evolution -/

theorem SameFrame.refl (m : Manager) : m.SameFrame m := ⟨rfl, rfl, rfl, rfl, rfl, rfl, rfl, rfl⟩

theorem SameFrame.varNum (h : m.SameFrame m₁) : m₁.varNum = m.varNum := congrArg VarOrder.size h.order

theorem SameFrame.trans (h : m.SameFrame m₁) (h' : m₁.SameFrame m₂) : m.SameFrame m₂ where
  order := h'.order.trans h.order
  literals := h'.literals.trans h.literals
  operands := h'.operands.trans h.operands
  roots := h'.roots.trans h.roots
  pairings := h'.pairings.trans h.pairings
  forest := h'.forest.trans h.forest
  auto := h'.auto.trans h.auto
  config := h'.config.trans h.config

theorem Evolves.refl (m : Manager) : m.Evolves m :=
  ⟨.refl m, List.Subset.refl _, fun _ => rfl, fun _ _ => rfl⟩

theorem SameFrame.rooted (h : m.SameFrame m₁) (hp : m.pending ⊆ m₁.pending) {id : NodeId}
    (hid : m.Rooted id) : m₁.Rooted id := by
  rw [Rooted, h.operands, h.roots, h.literals, h.pairings]
  exact hid.imp_left (hp ·)

theorem Evolves.rooted (h : m.Evolves m₁) {id : NodeId} (hid : m.Rooted id) : m₁.Rooted id :=
  h.toSameFrame.rooted h.pending hid

theorem Evolves.rootNodes (h : m.Evolves m₁) : m.rootNodes ⊆ m₁.rootNodes := by
  intro id hid
  obtain ⟨ht, hr⟩ := mem_rootNodes.mp hid
  exact mem_rootNodes.mpr ⟨ht, h.rooted hr⟩

theorem Evolves.of_kept (h : m.Evolves m₁) {id : NodeId} (hid : m.Kept id) : m₁.Kept id :=
  hid.congr h.kept h.rootNodes

theorem Evolves.trans (h : m.Evolves m₁) (h' : m₁.Evolves m₂) : m.Evolves m₂ where
  toSameFrame := h.toSameFrame.trans h'.toSameFrame
  pending := List.Subset.trans h.pending h'.pending
  terminals ht := (h'.terminals ht).trans (h.terminals ht)
  kept id hid := (h'.kept id (h.of_kept hid)).trans (h.kept id hid)

/-- Nodes may cease to be pending that were not so at the start. -/
theorem Evolves.setPending (h : m.Evolves m₁) {pending : List NodeId} (hp : m.pending ⊆ pending) :
    m.Evolves { m₁ with pending } :=
  ⟨⟨h.order, h.literals, h.operands, h.roots, h.pairings, h.forest, h.auto, h.config⟩, hp,
    h.terminals, h.kept⟩

theorem Evolves.eval (h : m.Evolves m₁) {id : NodeId} {val : Level → Bool} {b : Bool} (hid : m.Kept id)
    (hb : m.diagram.Eval val id b) : m₁.diagram.Eval val id b :=
  hb.of_agreeOn (kept_closed m) h.kept hid

theorem Evolves.under (h : m.Evolves m₁) {k : Level} {f : NodeId} (hf : m.Kept f)
    (hk : m.diagram.Under id k f) : m₁.diagram.Under id k f :=
  hk.congr fun hn => (h.kept f hf).trans hn

/-! ### Trees -/

/-- The query is answered by the tree, in the diagram of the manager and by its pairings. -/
def Tells (m : Manager) (q : Query) (t : Tree) : Prop := q.Tells m.diagram.tree m.pairings t

/-- Entries of pairings are kept. -/
theorem kept_entry {e : Pairing} (he : e ∈ m.pairings.tables) (k : Level) : m.Kept (e.entry k) := by
  rcases Pairings.entry_mem he k with h | h
  · exact kept_of_rooted (.inr (.inr (.inr (.inr h))))
  · rw [h]
    exact kept_of_terminal rfl

theorem Coherent.pairings_live (h : m.Coherent bound) {id : NodeId} (hid : id ∈ m.pairings.nodes) :
    m.diagram.Live id := h.rooted (.inr (.inr (.inr (.inr hid))))

/-- Kept nodes keep their trees. -/
theorem Evolves.tree (h : m.Evolves m₁) (hc : m.Coherent bound) (hc₁ : m₁.Coherent bound')
    {id : NodeId} (hid : m.Kept id) : m₁.diagram.tree id = m.diagram.tree id :=
  hc.reduced.tree_congr hc₁.reduced (kept_closed m) h.kept hid (hc.kept_live hid)

theorem Evolves.tells (h : m.Evolves m₁) (hc : m.Coherent bound) (hc₁ : m₁.Coherent bound')
    {q : Query} (hq : ∀ x ∈ q.nodes, m.Kept x) {t : Tree} : m₁.Tells q t ↔ m.Tells q t := by
  have same : ∀ x, m.Kept x → m₁.diagram.tree x = m.diagram.tree x := fun x hx => h.tree hc hc₁ hx
  rw [Tells, Tells, h.pairings]
  constructor
  · exact Query.Tells.congr (fun x hx => (same x (hq x hx)).symm)
      fun e he k => (same _ (kept_entry he k)).symm
  · exact Query.Tells.congr (fun x hx => same x (hq x hx)) fun e he k => same _ (kept_entry he k)

/-- The two literals of a variable have the value of the variable and its negation. -/
theorem Sound.value_literal (h : m.Sound) {v : Var} {p : NodeId × NodeId}
    (hp : m.literals[v]? = some p) (a : Var → Bool) : m.Value a p.1 (a v) ∧ m.Value a p.2 (!a v) := by
  have hv : v < m.order.levelOf.size := by
    have := (Array.getElem?_eq_some_iff.mp hp).1
    rw [h.literals_size] at this
    rw [h.order.size]
    exact this
  have hl : m.order.levelOf[v]? = some m.order.levelOf[v] := Array.getElem?_eq_getElem hv
  obtain ⟨hpos, hneg⟩ := h.literals hp hl
  have hat : m.order.varAt.getD m.order.levelOf[v] 0 = v := by
    rw [Array.getD_eq_getD_getElem?, h.order.varAt_levelOf hl]
    rfl
  constructor
  · refine .node hpos ?_
    simp only [hat]
    cases a v
    · exact .bot
    · exact .top
  · refine .node hneg ?_
    simp only [hat]
    cases a v
    · exact .top
    · exact .bot

/-- What goes beyond coherence is kept by an evolution. -/
theorem Sound.evolves (h : m.Sound) (he : m.Evolves m₁) (hc : m₁.Coherent m.varNum) : m₁.Sound where
  toCoherent := he.varNum ▸ hc
  order := he.order ▸ h.order
  terminals id ht := by
    rw [he.varNum, he.terminals ht]
    exact h.terminals id ht
  literals_size := by
    rw [he.literals, he.varNum]
    exact h.literals_size
  literals {v p l} hp hl := by
    rw [he.literals] at hp
    rw [he.order] at hl
    obtain ⟨hpos, hneg⟩ := named_literal hp
    rw [he.kept _ (kept_of_rooted hpos.rooted), he.kept _ (kept_of_rooted hneg.rooted)]
    exact h.literals hp hl
  pairings := by
    rw [he.pairings, he.varNum]
    exact h.pairings

end Manager

end DecisionDiagram
