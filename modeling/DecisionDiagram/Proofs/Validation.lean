/-
The checks of the graph are sound, in whatever state the manager is.

A check looks at one node at a time: at its record, at its children and at what the unique table finds
for it.  What it finds there adds up, by induction over the levels, to a reduced and ordered diagram
without duplicates.  Nothing is assumed about the store, the table or the records of the terminals.

* `Manager.Intact` — a node with a record that the checks find nothing wrong with;
  `validateNode_eq_ok_iff`, `validateAll_eq_ok_iff` say that they check just this;
* `Manager.Leads` — an assignment leads down from a node, through live nodes, to a terminal;
* `Manager.Sealed` — a set of intact nodes, with their children; `Sealed.exists_leads` evaluates them;
* `Manager.reduced_of_intact` — if all live nodes are intact, the diagram is reduced;
* `Manager.validation_sound` — what follows from the two public checks.
-/
import DecisionDiagram.Validation
import DecisionDiagram.Proofs.Collection
import DecisionDiagram.Proofs.Evaluation
import DecisionDiagram.Proofs.Runs

namespace DecisionDiagram

/-! ### Orders -/

/-- One half of what makes an order valid is enough, since both tables have the same length: no two
variables stand at one level, so one stands at each. -/
theorem VarOrder.Valid.of_varAt_levelOf {o : VarOrder} (hsize : o.levelOf.size = o.varAt.size)
    (h : ∀ {v : Var} {l : Level}, o.levelOf[v]? = some l → o.varAt[l]? = some v) : o.Valid := by
  have hat : ∀ v : Fin o.levelOf.size, o.varAt[o.levelOf[v]]? = some v.val := fun v =>
    h (Array.getElem?_eq_getElem v.isLt)
  -- Two variables at one level would both be what stands there, so the map to levels is injective, and
  -- hence onto.
  let level : Fin o.levelOf.size → Fin o.levelOf.size := fun v =>
    ⟨o.levelOf[v], Nat.lt_of_lt_of_eq (Array.getElem?_eq_some_iff.mp (hat v)).1 hsize.symm⟩
  have hinjective : Function.Injective level := fun v w heq => by
    have hvw : o.levelOf[v] = o.levelOf[w] := congrArg Fin.val heq
    have hv := hat v
    rw [hvw, hat w] at hv
    exact Fin.ext (Option.some.inj hv).symm
  refine ⟨hsize, fun {l v} hv => ?_, h⟩
  have hl : l < o.levelOf.size := hsize ▸ (Array.getElem?_eq_some_iff.mp hv).1
  obtain ⟨w, hw⟩ := Finite.surjective_of_injective hinjective ⟨l, hl⟩
  have hwl : o.levelOf[w.val]? = some l :=
    (Array.getElem?_eq_getElem w.isLt).trans (congrArg (some ∘ Fin.val) hw)
  have hwv : w.val = v := Option.some.inj ((h hwl).symm.trans hv)
  exact hwv ▸ hwl

/-- The records of all slots but those of the terminals, whether they are in use or not. -/
def Store.records (s : Store) : Diagram := fun id => if id.isTerminal then none else s.node? id

theorem Store.records_eq_some {s : Store} {id : NodeId} {n : Node} :
    s.records id = some n ↔ id.isTerminal = false ∧ s.node? id = some n := by
  unfold records
  rcases id.isTerminal <;> simp

namespace Manager

variable {m : Manager} {f child : NodeId} {n : Node} {level : Level}

theorem node_eq_ok : m.node f = .ok n ↔ m.store.node? f = some n := by
  unfold node
  split
  · rename_i r hr
    rw [hr, Except.ok.injEq, Option.some.injEq]
  · rename_i hnone
    rw [hnone]
    exact iff_of_false (by simp) (by simp)

/-! ### What the checks look at -/

/-- The node has the record, and the checks find nothing wrong with it. -/
structure Intact (m : Manager) (id : NodeId) (n : Node) : Prop where
  node : m.node id = .ok n
  level_lt : n.level < m.varNum
  low_ne_high : n.low ≠ n.high
  live : ∀ b, m.store.isLive (n.child b) = true
  below : ∀ b, ∃ r, m.node (n.child b) = .ok r ∧ n.level < r.level
  indexed : m.table.find m.store.nodes n = some (.found id)

theorem validateChild_eq_ok_iff : m.validateChild f level child = .ok () ↔
    m.store.isLive child = true ∧ ∃ r, m.node child = .ok r ∧ level < r.level := by
  unfold validateChild
  rcases hlive : m.store.isLive child
  · simp [corrupted]
  · rcases hr : m.node child with e | r
    · simp [bind, Except.bind]
    · by_cases hle : r.level ≤ level
      · simp [bind, Except.bind, corrupted, hle]
      · simp [bind, Except.bind, hle, Nat.lt_of_not_le hle]

theorem validateIndex_eq_ok_iff :
    m.validateIndex f n = .ok () ↔ m.table.find m.store.nodes n = some (.found f) := by
  unfold validateIndex
  rcases m.table.find m.store.nodes n with _ | other | slot
  · simp
  · by_cases hother : other = f <;> simp [corrupted, hother]
  · simp [corrupted]

/-- Checks in a row find nothing wrong if none of them does. -/
theorem check_bind_eq_ok_iff {check rest : Except Failure Unit} :
    (do check; rest) = .ok () ↔ check = .ok () ∧ rest = .ok () := by
  rcases check with e | _ <;> simp [bind, Except.bind]

theorem validateNode_eq_ok_iff : m.validateNode f = .ok () ↔ ∃ n, m.Intact f n := by
  unfold validateNode
  rcases hn : m.node f with e | n
  · refine iff_of_false (by simp [bind, Except.bind]) fun ⟨n, h⟩ => ?_
    rw [h.node] at hn
    cases hn
  · -- The record of a node is unique, so it may be taken from the store.
    have hintact : (∃ r, m.Intact f r) ↔ m.Intact f n := by
      refine ⟨fun ⟨r, h⟩ => ?_, fun h => ⟨n, h⟩⟩
      obtain rfl := Except.ok.inj (h.node.symm.trans hn)
      exact h
    simp only [hintact, bind, Except.bind]
    split
    · rename_i hle
      exact iff_of_false (by simp [corrupted]) fun h => absurd h.level_lt (Nat.not_lt.mpr hle)
    · rename_i hlt
      split
      · rename_i heq
        exact iff_of_false (by simp [corrupted]) fun h => h.low_ne_high heq
      · rename_i hne
        refine (@check_bind_eq_ok_iff _ (do
          m.validateChild f n.level n.high
          m.validateIndex f n)).trans ?_
        rw [check_bind_eq_ok_iff, validateChild_eq_ok_iff, validateChild_eq_ok_iff,
          validateIndex_eq_ok_iff]
        constructor
        · rintro ⟨⟨hlow, hlowBelow⟩, ⟨hhigh, hhighBelow⟩, hindex⟩
          exact ⟨hn, Nat.lt_of_not_le hlt, hne, Bool.forall_bool.mpr ⟨hlow, hhigh⟩,
            Bool.forall_bool.mpr ⟨hlowBelow, hhighBelow⟩, hindex⟩
        · intro h
          exact ⟨⟨h.live false, h.below false⟩, ⟨h.live true, h.below true⟩, h.indexed⟩

theorem validateNodes_eq_ok_iff {ids : List NodeId} :
    m.validateNodes ids = .ok () ↔ ∀ id ∈ ids, ∃ n, m.Intact id n := by
  induction ids with
  | nil => exact iff_of_true rfl (by simp)
  | cons id ids ih =>
    rw [validateNodes, check_bind_eq_ok_iff, validateNode_eq_ok_iff, ih, List.forall_mem_cons]

theorem validateOrder_eq_ok_iff {pairs : List (Level × Var)} :
    m.validateOrder pairs = .ok () ↔ ∀ p ∈ pairs, m.order.varAt[p.1]? = some p.2 := by
  induction pairs with
  | nil => exact iff_of_true rfl (by simp)
  | cons p pairs ih =>
    obtain ⟨level, v⟩ := p
    rw [validateOrder, List.forall_mem_cons]
    split
    · rename_i hat
      rw [ih, and_iff_right hat]
    · rename_i hat
      exact iff_of_false (by simp [corrupted]) fun h => hat h.1

theorem validateAll_eq_ok_iff : m.validateAll = .ok () ↔
    (∀ id ∈ m.store.liveIds, ∃ n, m.Intact id n) ∧
      ∀ {v : Var} {l : Level}, m.order.levelOf[v]? = some l → m.order.varAt[l]? = some v := by
  have hpairs : ∀ {v : Var} {l : Level}, (l, v) ∈ m.order.levelOf.toList.zipIdx ↔
      m.order.levelOf[v]? = some l := by
    intro v l
    rw [List.mk_mem_zipIdx_iff_getElem?, Array.getElem?_toList]
  rw [validateAll, check_bind_eq_ok_iff, validateNodes_eq_ok_iff, validateOrder_eq_ok_iff]
  exact and_congr_right fun _ =>
    ⟨fun h v l hl => h (l, v) (hpairs.mpr hl), fun h p hp => h (hpairs.mp hp)⟩

/-! ### Evaluation -/

/-- The assignment leads from the node down to the terminal for `b`, and every node on the way is
live. -/
inductive Leads (m : Manager) (assignment : Array Bool) : NodeId → Bool → Prop
  | terminal {id : NodeId} (hlive : m.store.isLive id = true) (ht : id.isTerminal = true) :
    Leads m assignment id id.isTop
  | node {id : NodeId} {n : Node} {v : Var} {x b : Bool} (hlive : m.store.isLive id = true)
    (ht : id.isTerminal = false) (hn : m.node id = .ok n) (hv : m.varAt n.level = .ok v)
    (hx : assignment[v]? = some x) (h : Leads m assignment (n.child x) b) : Leads m assignment id b

variable {assignment : Array Bool} {b : Bool} {S : NodeId → Prop}

/-- The nodes of the set are live, and its inner nodes are intact and have their children in it. -/
structure Sealed (m : Manager) (S : NodeId → Prop) : Prop where
  live : ∀ {id}, S id → m.store.isLive id = true
  intact : ∀ {id}, S id → id.isTerminal = false → ∃ n, m.Intact id n
  child : ∀ {id n}, S id → id.isTerminal = false → m.node id = .ok n → ∀ b, S (n.child b)

/-- The induction is on the number of steps that are left, of which there is one for each level that may
still be met, and one for the terminal. -/
theorem Sealed.exists_leads (hS : m.Sealed S)
    (ho : ∀ l, l < m.varNum → ∃ v, m.order.varAt[l]? = some v ∧ v < m.varNum)
    (ha : m.varNum ≤ assignment.size) {steps : Nat} (hf : S f) (hpos : 0 < steps)
    (hsteps : ∀ n, f.isTerminal = false → m.node f = .ok n → m.varNum < n.level + steps) :
    ∃ b, m.evalFrom assignment steps f = .ok b ∧ m.Leads assignment f b := by
  induction steps generalizing f with
  | zero => exact absurd hpos (Nat.lt_irrefl 0)
  | succ steps ih =>
    by_cases ht : f.isTerminal = true
    · exact ⟨f.isTop, by rw [evalFrom, if_pos ht], .terminal (hS.live hf) ht⟩
    · have hin := Bool.eq_false_iff.mpr ht
      obtain ⟨n, hn⟩ := hS.intact hf hin
      obtain ⟨v, hv, hlt⟩ := ho n.level hn.level_lt
      obtain ⟨x, hx⟩ : ∃ x, assignment[v]? = some x :=
        ⟨_, Array.getElem?_eq_getElem (Nat.lt_of_lt_of_le hlt ha)⟩
      have hlevel := hn.level_lt
      have henough := hsteps n hin hn.node
      obtain ⟨r, hr, hbelow⟩ := hn.below x
      -- The child stands at a higher level, so one step less is enough from there.
      obtain ⟨b, heval, hleads⟩ := ih (hS.child hf hin hn.node x) (by lia) fun r' _ hr' => by
        obtain rfl := Except.ok.inj (hr.symm.trans hr')
        lia
      have hat : m.varAt n.level = .ok v := by rw [varAt, hv]
      refine ⟨b, ?_, .node (hS.live hf) hin hn.node hat hx hleads⟩
      rw [evalFrom, if_neg ht, hn.node]
      simp only [bind, Except.bind, hat, hx]
      exact heval

/-- A node of such a set has a value under every assignment to the variables. -/
theorem Sealed.exists_eval (hS : m.Sealed S)
    (ho : ∀ l, l < m.varNum → ∃ v, m.order.varAt[l]? = some v ∧ v < m.varNum)
    (ha : m.varNum ≤ assignment.size) (hf : S f) :
    ∃ b, m.eval f assignment = .ok b ∧ m.Leads assignment f b := by
  obtain ⟨b, heval, hleads⟩ : ∃ b, m.evalFrom assignment m.depth f = .ok b ∧ m.Leads assignment f b :=
    hS.exists_leads ho ha hf (Nat.succ_pos _) fun n _ _ => by rw [depth]; omega
  refine ⟨b, ?_, hleads⟩
  simp only [eval, checkNode, hS.live hf, if_true, bind, Except.bind, if_neg (Nat.not_lt.mpr ha)]
  exact heval

/-- The live nodes of the arena, if all of them are intact. -/
theorem sealed_of_intact (h : ∀ id ∈ m.store.liveIds, ∃ n, m.Intact id n) :
    m.Sealed fun id => m.store.isLive id = true ∧ id < m.store.nodes.size := by
  have hintact : ∀ {id : NodeId}, m.store.isLive id = true ∧ id < m.store.nodes.size →
      id.isTerminal = false → ∃ n, m.Intact id n := fun hid ht =>
    h _ (Store.mem_liveIds.mpr ⟨Store.two_le_of_inner ht, hid.2, hid.1⟩)
  refine ⟨fun hid => hid.1, hintact, fun {id n} hid ht hn b => ?_⟩
  obtain ⟨n', hn'⟩ := hintact hid ht
  obtain rfl := Except.ok.inj (hn.symm.trans hn'.node)
  obtain ⟨r, hr, -⟩ := hn'.below b
  exact ⟨hn'.live b, (Array.getElem?_eq_some_iff.mp (node_eq_ok.mp hr)).1⟩

/-- The check of what is below a node goes through a traversal that ends. -/
theorem validate_eq_ok_iff : m.validate f = .ok () ↔ m.store.isLive f = true ∧
    ∃ marks, reachAll m.store.nodes m.extent [f] (BitSet.ofCapacity m.store.capacity) = some marks ∧
      ∀ id, marks.contains id = true → ∃ n, m.Intact id n := by
  have hcheck : m.checkNode f = .ok () ↔ m.store.isLive f = true := by
    unfold checkNode
    split <;> simp_all
  rw [validate, check_bind_eq_ok_iff, hcheck]
  refine and_congr_right fun _ => ?_
  unfold descendants reachable
  rcases reachAll m.store.nodes m.extent [f] (BitSet.ofCapacity m.store.capacity) with _ | marks
  · simp [bind, Except.bind]
  · refine Iff.trans validateNodes_eq_ok_iff ?_
    simp [BitSet.mem_toList]

/-- The nodes below a node that is found valid. -/
theorem exists_sealed_of_validate (h : m.validate f = .ok ()) : ∃ S, m.Sealed S ∧ S f := by
  obtain ⟨hlive, marks, hmarks, hintact⟩ := validate_eq_ok_iff.mp h
  have hM : Marks m.store.records [f] _ marks := .of_reachAll (S := fun _ => True)
    (fun _ ht hn => ⟨Store.records_eq_some.mpr ⟨ht, hn⟩, fun _ => trivial⟩) (fun _ _ => trivial) hmarks
  have hcovered : ∀ {id : NodeId}, Covered marks id → id.isTerminal = false → ∃ n, m.Intact id n := by
    rintro id (ht | hid) hin
    · rw [hin] at ht
      cases ht
    · exact hintact id hid
  refine ⟨fun id => m.store.isLive id = true ∧ Covered marks id, ⟨fun hid => hid.1,
    fun hid ht => hcovered hid.2 ht, fun {id n} hid ht hn b => ?_⟩, hlive, hM.roots f (by simp)⟩
  obtain ⟨n', hn'⟩ := hcovered hid.2 ht
  obtain rfl := Except.ok.inj (hn.symm.trans hn'.node)
  refine ⟨hn'.live b, hM.closed ?_ (BitSet.contains_ofCapacity _ _)
    (Store.records_eq_some.mpr ⟨ht, node_eq_ok.mp hn⟩) b⟩
  rcases hid.2 with hterminal | hmarked
  · rw [ht] at hterminal
    cases hterminal
  · exact hmarked

/-! ### The diagram -/

/-- A live inner node is in the diagram with its record. -/
theorem diagram_of_node (hlive : m.store.isLive f = true) (ht : f.isTerminal = false)
    (hn : m.node f = .ok n) : m.diagram f = some n :=
  Store.diagram_eq_some.mpr ⟨ht, hlive, node_eq_ok.mp hn⟩

/-- The value that an assignment leads to is the value of the node. -/
theorem Leads.value (h : m.Leads assignment f b) : m.Value (valuation assignment) f b := by
  induction h with
  | terminal _ ht => exact Diagram.eval_terminal ht
  | @node id n v x b hlive ht hn hv hx _ ih =>
    have hval : valuation assignment (m.order.varAt.getD n.level 0) = x := by
      unfold varAt at hv
      split at hv
      · rename_i w hw
        obtain rfl := Except.ok.inj hv
        rw [Array.getD_eq_getD_getElem?, hw]
        exact valuation_eq hx
      · cases hv
    refine .node (diagram_of_node hlive ht hn) ?_
    rw [hval]
    exact ih

/-- If every live node is intact, the diagram is reduced and ordered, and no record occurs twice. -/
theorem reduced_of_intact (h : ∀ id ∈ m.store.liveIds, ∃ n, m.Intact id n) :
    m.diagram.Reduced id m.varNum := by
  have hintact : ∀ {id n}, m.diagram id = some n → m.Intact id n := by
    intro id n hn
    obtain ⟨ht, hlive, hnode⟩ := Store.diagram_eq_some.mp hn
    have hlt := (Array.getElem?_eq_some_iff.mp hnode).1
    obtain ⟨r, hr⟩ := h id (Store.mem_liveIds.mpr ⟨Store.two_le_of_inner ht, hlt, hlive⟩)
    obtain rfl := Except.ok.inj ((node_eq_ok.mpr hnode).symm.trans hr.node)
    exact hr
  refine ⟨fun hn => (Store.diagram_eq_some.mp hn).1, fun hn => (hintact hn).level_lt,
    fun hn => (hintact hn).low_ne_high, fun {id n} hn b => ?_, fun {i j n} hi hj => ?_⟩
  · by_cases ht : (n.child b).isTerminal = true
    · exact .inl ht
    · obtain ⟨r, hr, hlt⟩ := (hintact hn).below b
      exact .inr ⟨r, diagram_of_node ((hintact hn).live b) (Bool.eq_false_iff.mpr ht) hr, hlt⟩
  · -- The table finds one node for a record.
    have hfind := (hintact hi).indexed.symm.trans (hintact hj).indexed
    exact Probe.found.inj (Option.some.inj hfind)

/-- A node of a diagram that fits the tables is intact, if the records of its children show that they
stand below it. -/
theorem Shared.intact (hm : m.Shared m.varNum) (hn : m.diagram f = some n)
    (hbelow : ∀ b, ∃ r, m.node (n.child b) = .ok r ∧ n.level < r.level) : m.Intact f n where
  node := node_of_diagram hn
  level_lt := hm.reduced.label_lt hn
  low_ne_high := hm.reduced.low_ne_high hn
  live b := hm.store.live_iff.mp (hm.reduced.below hn b).live
  below := hbelow
  indexed := hm.table.find_eq hm.store (fun hi hj => hm.reduced.unique hi hj) hn

/-! ### Equal values -/

/-- The assignment that gives to each variable what `val` gives to its level. -/
def assignmentOf (m : Manager) (val : Level → Bool) : Array Bool := m.order.levelOf.map val

theorem size_assignmentOf (ho : m.order.Valid) (val : Level → Bool) :
    (m.assignmentOf val).size = m.varNum := by
  rw [assignmentOf, Array.size_map]
  exact ho.size

/-- Every value by level is a value by variable. -/
theorem eval_of_value (ho : m.order.Valid) (hg : m.diagram.Reduced id m.varNum) {val : Level → Bool}
    {b : Bool} (h : m.Value (valuation (m.assignmentOf val)) f b) : m.diagram.Eval val f b := by
  refine h.congr_val fun {j n} hn => ?_
  obtain ⟨v, hv, hget, hat, -⟩ := ho.getD_varAt (hg.label_lt hn)
  rw [hget, valuation_eq]
  rw [assignmentOf, Array.getElem?_map, hat]
  rfl

/-- Nodes of a reduced diagram that have the same value under every assignment to the variables are
the same node. -/
theorem eq_of_value_eq (ho : m.order.Valid) (hg : m.diagram.Reduced id m.varNum) {i j : NodeId}
    (hi : m.diagram.Live i) (hj : m.diagram.Live j)
    (h : ∀ assignment : Array Bool, assignment.size = m.varNum →
      ∃ b, m.Value (valuation assignment) i b ∧ m.Value (valuation assignment) j b) : i = j := by
  refine hg.eq_of_agree (fun v hv => hv) (fun v w _ _ hvw => hvw) hi hj fun val => ?_
  obtain ⟨b, hbi, hbj⟩ := h _ (size_assignmentOf ho val)
  exact ⟨b, eval_of_value ho hg hbi, eval_of_value ho hg hbj⟩

/-! ### The checks are sound -/

/-- Both public checks are sound, in whatever state the manager is.  If the whole graph is found
valid, every assignment leads down from every live node of the arena, through live nodes, to the
terminal for its value, and live nodes that evaluate equally are the same node.  If what is below one
node is found valid, and some variable stands at each level, every assignment leads down from it. -/
theorem validation_sound (m : Manager) (hsize : m.order.levelOf.size = m.varNum) :
    (m.validateAll = .ok () →
      (∀ id, m.store.isLive id = true → id < m.store.nodes.size →
        ∀ assignment : Array Bool, m.varNum ≤ assignment.size →
          ∃ b, m.eval id assignment = .ok b ∧ m.Leads assignment id b) ∧
      ∀ i j, m.store.isLive i = true → i < m.store.nodes.size →
        m.store.isLive j = true → j < m.store.nodes.size →
        (∀ assignment : Array Bool, assignment.size = m.varNum →
          m.eval i assignment = m.eval j assignment) → i = j) ∧
    ∀ f, m.order.toList.Perm (List.range m.varNum) → m.validate f = .ok () →
      ∀ assignment : Array Bool, m.varNum ≤ assignment.size →
        ∃ b, m.eval f assignment = .ok b ∧ m.Leads assignment f b := by
  refine ⟨fun hall => ?_, fun f hperm hf assignment ha => ?_⟩
  · obtain ⟨hintact, horder⟩ := validateAll_eq_ok_iff.mp hall
    have ho := VarOrder.Valid.of_varAt_levelOf hsize horder
    have hlevels : ∀ l, l < m.varNum → ∃ v, m.order.varAt[l]? = some v ∧ v < m.varNum := fun l hl => by
      obtain ⟨v, hv, -, -, hlt⟩ := ho.getD_varAt hl
      exact ⟨v, hv, hlt⟩
    have heval : ∀ id, m.store.isLive id = true → id < m.store.nodes.size →
        ∀ assignment : Array Bool, m.varNum ≤ assignment.size →
          ∃ b, m.eval id assignment = .ok b ∧ m.Leads assignment id b :=
      fun id hlive hlt _ ha => (sealed_of_intact hintact).exists_eval hlevels ha ⟨hlive, hlt⟩
    refine ⟨heval, fun i j hi hilt hj hjlt hequal => ?_⟩
    have hvalue : ∀ assignment : Array Bool, assignment.size = m.varNum →
        ∃ b, m.Value (valuation assignment) i b ∧ m.Value (valuation assignment) j b := by
      intro assignment ha
      obtain ⟨b, hib, hi⟩ := heval i hi hilt assignment ha.ge
      obtain ⟨c, hjc, hj⟩ := heval j hj hjlt assignment ha.ge
      obtain rfl : b = c := Except.ok.inj (hib.symm.trans ((hequal assignment ha).trans hjc))
      exact ⟨b, hi.value, hj.value⟩
    obtain ⟨b, hib, hjb⟩ := hvalue _ (size_assignmentOf ho fun _ => false)
    exact eq_of_value_eq ho (reduced_of_intact hintact) hib.live hjb.live hvalue
  · -- The check says nothing of the order here, so the levels have their variables by assumption.
    obtain ⟨S, hS, hSf⟩ := exists_sealed_of_validate hf
    refine hS.exists_eval (fun l hl => ?_) ha hSf
    have hl : l < m.order.varAt.size := hl
    refine ⟨m.order.varAt[l], Array.getElem?_eq_getElem hl, List.mem_range.mp (hperm.mem_iff.mp ?_)⟩
    exact Array.mem_toList_iff.mpr (Array.getElem_mem hl)

/-- No run leads to a manager where a free slot holds the record of a literal and is pending between two
calls. -/
theorem validation_of_damaged :
    ∃ m d : Manager, after (.small 16 64) [.setVarNum 2, .apply .and 2 4] = some m ∧
      d = { m with pending := [9], store := m.store.setNode 9 ⟨0, 0, 1⟩ } ∧
      d.store.isLive 9 = false ∧ d.validateAll = .ok () ∧ d.validate 6 = .ok () ∧
      (∀ assignment : Array Bool, d.varNum ≤ assignment.size →
        ∃ b, d.eval 6 assignment = .ok b ∧ d.Leads assignment 6 b) ∧
      ¬ ∀ assignment : Array Bool, assignment.size = d.varNum →
        d.eval 6 assignment = d.eval 4 assignment := by
  have hrun : (after (.small 16 64) [.setVarNum 2, .apply .and 2 4]).any fun m =>
      let d : Manager := { m with pending := [9], store := m.store.setNode 9 ⟨0, 0, 1⟩ }
      d.order.levelOf.size == d.varNum && d.order.toList == List.range d.varNum &&
      !d.store.isLive 9 && d.validateAll == .ok () && d.validate 6 == .ok () &&
      d.store.isLive 6 && d.store.isLive 4 && decide (6 < d.store.nodes.size) := by
    decide +kernel
  obtain ⟨m, hm, hfacts⟩ := (Option.any_eq_true _ _).mp hrun
  simp only [Bool.and_eq_true, Bool.not_eq_true', beq_iff_eq, decide_eq_true_eq] at hfacts
  obtain ⟨⟨⟨⟨⟨⟨⟨hsize, horder⟩, h9⟩, hall⟩, hbelow⟩, h6⟩, h4⟩, hlt⟩ := hfacts
  obtain ⟨hsound, hsoundBelow⟩ := validation_sound
    { m with pending := [9], store := m.store.setNode 9 ⟨0, 0, 1⟩ } hsize
  refine ⟨m, _, hm, rfl, h9, hall, hbelow, hsoundBelow 6 (.of_eq horder) hbelow, fun hequal => ?_⟩
  cases (hsound hall).2 6 4 h6 hlt h4 (Nat.lt_trans (by decide) hlt) hequal

end Manager

end DecisionDiagram
