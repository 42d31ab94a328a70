/-
What holds of a session, and how one ends.

Within a session the labels are variables, ranked by their levels.

* `Session.Coherent` — what holds at every moment, although some nodes may be out of the table and
  the work may hold on to some;
* `Session.Sound` — what holds between two exchanges: besides, the diagram is reduced under the
  order of the moment, and every node is referred to;
* `Session.Keeps` — what the work in a session leaves as it is, above all the values of the nodes
  that the manager names;
* `Session.Sound.exists_finish`, `Sound.finish` — a sound session can be closed, which leads to a
  sound manager with the same values.
-/
import DecisionDiagram.Proofs.Collection
import DecisionDiagram.Proofs.Reorder.Exchange
import DecisionDiagram.Proofs.Reorder.References
import DecisionDiagram.Proofs.Reorder.Regions

namespace DecisionDiagram

/-! ### Other labels -/

namespace Diagram

variable {g : Diagram} {rank rank' : Nat → Nat} {bound : Nat} {f : Nat → Nat}

/-- The diagram with other labels. -/
def relabel (f : Nat → Nat) (g : Diagram) : Diagram := fun id =>
  (g id).map fun n => { n with level := f n.level }

theorem relabel_eq_some {id : NodeId} {n : Node} (h : relabel f g id = some n) :
    ∃ n', g id = some n' ∧ n = { n' with level := f n'.level } := by
  obtain ⟨n', hn', heq⟩ := Option.map_eq_some_iff.mp h
  exact ⟨n', hn', heq.symm⟩

theorem relabel_of_eq_some {id : NodeId} {n : Node} (h : g id = some n) :
    relabel f g id = some { n with level := f n.level } := by
  rw [relabel, h]
  rfl

@[simp] theorem child_relabel (n : Node) (l : Nat) (b : Bool) :
    Node.child { n with level := l } b = n.child b := by
  cases b <;> rfl

theorem isSome_relabel {id : NodeId} : (relabel f g id).isSome = (g id).isSome := Option.isSome_map

theorem live_relabel {id : NodeId} : (relabel f g).Live id ↔ g.Live id := by
  rw [Live, Live, relabel, Option.isSome_map]

theorem childRel_relabel : (relabel f g).Child = g.Child := by
  funext p c
  refine propext ⟨?_, ?_⟩
  · rintro ⟨n, b, hn, rfl⟩
    obtain ⟨n', hn', rfl⟩ := relabel_eq_some hn
    exact ⟨n', b, hn', child_relabel _ _ _⟩
  · rintro ⟨n, b, hn, rfl⟩
    exact ⟨_, b, relabel_of_eq_some hn, (child_relabel _ _ _).symm⟩

theorem below_relabel {R : List NodeId} {id : NodeId} :
    (relabel f g).Below R id ↔ g.Below R id := by
  rw [Below, Below, Reaches, Reaches, childRel_relabel]

theorem Eval.relabel {a val : Nat → Bool} (hval : ∀ {id n}, g id = some n → val (f n.level) = a n.level)
    {id : NodeId} {b : Bool} (h : g.Eval a id b) : (relabel f g).Eval val id b := by
  induction h with
  | bot => exact .bot
  | top => exact .top
  | node hn _ ih =>
    refine .node (relabel_of_eq_some hn) ?_
    rw [child_relabel]
    show Eval _ val (Node.child _ (val (f _))) _
    rw [hval hn]
    exact ih

/-- The new labels are ranked as the old ones were. -/
theorem Reduced.relabel (h : g.Reduced rank bound) (hlt : ∀ v, v < bound → f v < bound)
    (hrank : ∀ v, v < bound → rank' (f v) = rank v)
    (hinj : ∀ v w, v < bound → w < bound → f v = f w → v = w) :
    (relabel f g).Reduced rank' bound := by
  refine ⟨?_, ?_, ?_, ?_, ?_⟩
  · intro id n hn
    obtain ⟨n', hn', -⟩ := relabel_eq_some hn
    exact h.inner hn'
  · intro id n hn
    obtain ⟨n', hn', rfl⟩ := relabel_eq_some hn
    exact hlt _ (h.label_lt hn')
  · intro id n hn
    obtain ⟨n', hn', rfl⟩ := relabel_eq_some hn
    show n'.low ≠ n'.high
    exact h.low_ne_high hn'
  · intro id n hn b
    obtain ⟨n', hn', rfl⟩ := relabel_eq_some hn
    rw [child_relabel]
    show Under _ rank' (rank' (f n'.level) + 1) _
    rw [hrank _ (h.label_lt hn')]
    rcases h.below hn' b with ht | ⟨m, hm, hle⟩
    · exact .inl ht
    · exact .inr ⟨_, relabel_of_eq_some hm, by
        show _ ≤ rank' (f m.level)
        rw [hrank _ (h.label_lt hm)]
        exact hle⟩
  · intro i j n hi hj
    obtain ⟨m, hm, rfl⟩ := relabel_eq_some hi
    obtain ⟨m', hm', heq⟩ := relabel_eq_some hj
    obtain ⟨hl, hlow, hhigh⟩ := Node.mk.inj heq
    -- The labels are renamed injectively, so the records were equal before.
    have hmm : m = m' := by
      cases m
      cases m'
      rw [Node.mk.injEq]
      exact ⟨hinj _ _ (h.label_lt hm) (h.label_lt hm') hl, hlow, hhigh⟩
    subst hmm
    exact h.unique hm hm'

end Diagram

namespace Store

/-- Among nodes of the store, none has the record of another one. -/
theorem Distinct.on {s : Store} (h : s.Distinct) {P : NodeId → Prop}
    (hP : ∀ id, P id → (s.diagram id).isSome = true) : DistinctOn s.nodes P :=
  ⟨fun hi hj hin hjn => h (diagram_of_isSome (hP _ hi) hin) (diagram_of_isSome (hP _ hj) hjn)⟩

/-- Relabelling a store relabels its diagram. -/
theorem Valid.exists_relabel {labels : Array Nat} {ids : List NodeId} (nodup : ids.Nodup) {s : Store}
    (hs : s.Valid) (hids : ∀ id ∈ ids, ∃ n, s.diagram id = some n ∧ n.level < labels.size) :
    ∃ s', s.relabel? labels ids = some s' ∧ s'.Valid ∧ s'.slots = s.slots ∧
      (∀ id, s'.diagram id =
        if id ∈ ids then s.diagram.relabel (labels.getD · 0) id else s.diagram id) ∧
      ∀ id : NodeId, id.isTerminal = true → s'.node? id = s.node? id := by
  induction ids generalizing s with
  | nil => exact ⟨s, rfl, hs, rfl, fun id => by simp, fun _ _ => rfl⟩
  | cons id ids ih =>
    obtain ⟨n, hn, hlt⟩ := hids id List.mem_cons_self
    obtain ⟨label, hlabel⟩ : ∃ label, labels[n.level]? = some label :=
      ⟨_, Array.getElem?_eq_getElem hlt⟩
    have hget : labels.getD n.level 0 = label := by
      rw [Array.getD_eq_getD_getElem?, hlabel]
      rfl
    have hid : id ∉ ids := (List.nodup_cons.mp nodup).1
    have hset := hs.diagram_setNode hn { n with level := label }
    have hother : ∀ {j}, j ≠ id →
        (s.setNode id { n with level := label }).diagram j = s.diagram j := fun hj => by
      rw [hset, Function.update_of_ne hj]
    have hne : ∀ {j}, j ∈ ids → j ≠ id := by
      rintro j hj rfl
      exact hid hj
    -- The node that comes first is not among the others, which keep their records until their turn.
    obtain ⟨s', hrelabel, hs', hslots, hdiagram, hterm⟩ := ih (List.nodup_cons.mp nodup).2
      (hs.setNode id { n with level := label }) fun j hj => by
        rw [hother (hne hj)]
        exact hids j (List.mem_cons_of_mem _ hj)
    refine ⟨s', ?_, hs', hslots, fun j => ?_, fun j hj => ?_⟩
    · rw [relabel?, node?_of_diagram hn]
      simp only [hlabel, hrelabel]
    · rw [hdiagram j]
      by_cases hj : j = id
      · subst hj
        rw [if_neg hid, if_pos (by simp), hset, Function.update_self,
          Diagram.relabel_of_eq_some hn, hget]
      · rw [hother hj]
        simp only [List.mem_cons, hj, false_or]
        rw [Diagram.relabel, Diagram.relabel, hother hj]
    · rw [hterm j hj, node?_setNode (hs.lt (diagram_eq_some.mp hn).2.1), if_neg]
      rintro rfl
      rw [inner_of_diagram hn] at hj
      cases hj

/-- All nodes of a store are relabelled, if every label is one of the table. -/
theorem Valid.exists_relabel_all {s : Store} (hs : s.Valid) (labels : Array Nat)
    (hlabels : ∀ {id n}, s.diagram id = some n → n.level < labels.size) :
    ∃ s', s.relabel? labels s.liveIds = some s' ∧ s'.Valid ∧ s'.slots = s.slots ∧
      s'.diagram = s.diagram.relabel (labels.getD · 0) ∧
      ∀ id : NodeId, id.isTerminal = true → s'.node? id = s.node? id := by
  obtain ⟨s', h, hs', hslots, hdiagram, hterm⟩ := hs.exists_relabel s.liveIds_nodup fun id hid => by
    obtain ⟨n, hn⟩ := hs.mem_liveIds.mp hid
    exact ⟨n, hn, hlabels hn⟩
  refine ⟨s', h, hs', hslots, funext fun id => ?_, hterm⟩
  rw [hdiagram]
  split
  · rfl
  · rename_i hid
    have hnone : s.diagram id = none := by
      rw [Option.eq_none_iff_forall_ne_some]
      exact fun n hn => hid (hs.mem_liveIds.mpr ⟨n, hn⟩)
    rw [Diagram.relabel, hnone]
    rfl

end Store

namespace Session

/-! ### Invariants -/

/-- The records of the inner nodes, labelled by variable. -/
def diagram (s : Session) : Diagram := s.manager.diagram

/-- The level of a variable. -/
def rank (s : Session) (v : Var) : Level := s.manager.order.levelOf.getD v 0

/-- The row of `v` holds `w`. -/
def Interact (rows : Array BitSet) (v w : Var) : Prop :=
  (rows.getD v BitSet.empty).contains w = true

/-- What holds of a session at every moment.  The nodes of `out` are not in the table, and the work
holds a reference to each node of `held`. -/
structure Coherent (s : Session) (out : NodeId → Prop) (held : List NodeId) : Prop where
  store : s.manager.store.Valid
  terminals : s.manager.store.TerminalsAt s.manager.varNum
  table : s.table.Holds s.manager.store.nodes fun id => (s.diagram id).isSome = true ∧ ¬ out id
  regions : s.table.regions.size = s.manager.varNum
  roomy : s.table.Roomy
  refs_size : s.refs.size = s.manager.store.capacity
  counted : Counted s.refs s.diagram held
  pinned : ∀ id ∈ s.manager.rootNodes, s.refs.getD id 0 = maxRefs
  rooted : ∀ {id}, s.manager.Rooted id → s.diagram.Live id
  cliques : s.diagram.Cliques (Interact s.interactions)

/-- The count of a node has got to its largest value, so that the node is never reclaimed. -/
def Saturated (s : Session) (id : NodeId) : Prop :=
  s.diagram.Live id ∧ s.refs.getD id 0 = maxRefs

/-- What holds of a session between two exchanges. -/
structure Sound (s : Session) : Prop extends Coherent s (fun _ => False) [] where
  order : s.manager.order.Valid
  reduced : s.diagram.Reduced s.rank s.manager.varNum
  referred : ∀ {id}, (s.diagram id).isSome = true → 0 < s.refs.getD id 0
  literals_size : s.manager.literals.size = s.manager.varNum
  literals : ∀ {v : Var} {p}, s.manager.literals[v]? = some p → ∀ a : Var → Bool,
    s.diagram.Eval a p.1 (a v) ∧ s.diagram.Eval a p.2 (!a v)
  pairings : s.manager.pairings.Fits s.manager.varNum
  error : s.manager.error = none ∨ s.manager.error = some .nodeLimit

/-- The two sessions differ in the store, the table, the counts and the counters at most. -/
structure SameFrame (s s' : Session) : Prop where
  manager : s'.manager =
    { s.manager with store := s'.manager.store, counters := s'.manager.counters }
  interactions : s'.interactions = s.interactions
  swaps : s'.swaps = s.swaps

/-- What the work in a session leaves as it is. -/
structure Keeps (s s' : Session) : Prop where
  literals : s'.manager.literals = s.manager.literals
  pending : s'.manager.pending = s.manager.pending
  operands : s'.manager.operands = s.manager.operands
  roots : s'.manager.roots = s.manager.roots
  forest : s'.manager.forest = s.manager.forest
  auto : s'.manager.auto = s.manager.auto
  config : s'.manager.config = s.manager.config
  error : s'.manager.error = s.manager.error
  pairings : ∀ id, id ∈ s'.manager.pairings.nodes ↔ id ∈ s.manager.pairings.nodes
  carried : Pairings.Carried s.manager.order s.manager.pairings s'.manager.order s'.manager.pairings
  varNum : s'.manager.varNum = s.manager.varNum
  value : ∀ {id a b}, s.manager.Rooted id → s.diagram.Eval a id b → s'.diagram.Eval a id b

variable {s s' s'' : Session}

theorem SameFrame.refl (s : Session) : s.SameFrame s := ⟨rfl, rfl, rfl⟩

theorem SameFrame.trans (h : s.SameFrame s') (h' : s'.SameFrame s'') : s.SameFrame s'' :=
  ⟨by rw [h'.manager, h.manager], h'.interactions.trans h.interactions, h'.swaps.trans h.swaps⟩

theorem SameFrame.varNum (h : s.SameFrame s') : s'.manager.varNum = s.manager.varNum := by
  rw [h.manager]
  rfl

theorem SameFrame.rooted (h : s.SameFrame s') {id : NodeId} :
    s'.manager.Rooted id ↔ s.manager.Rooted id := by
  rw [h.manager]
  rfl

/-- The store, the table and the counts change. -/
theorem Coherent.change {out out' : NodeId → Prop} {held held' : List NodeId}
    (h : s.Coherent out held) {store : Store} {table : LevelTable} {refs : Array Nat}
    (hs : store.Valid)
    (hterm : ∀ id : NodeId, id.isTerminal = true → store.node? id = s.manager.store.node? id)
    (ht : table.Holds store.nodes fun id => (store.diagram id).isSome = true ∧ ¬ out' id)
    (hsize : table.regions.size = s.table.regions.size) (hroomy : table.Roomy)
    (hrefs : refs.size = store.capacity) (hcounted : Counted refs store.diagram held')
    (hmax : ∀ {id}, s.diagram.Live id → s.refs.getD id 0 = maxRefs → refs.getD id 0 = maxRefs)
    (hrooted : ∀ {id}, s.manager.Rooted id → store.diagram.Live id)
    (hcliques : store.diagram.Cliques (Interact s.interactions)) (counters : Counters) :
    Coherent { s with manager := { s.manager with store, counters }, table, refs } out' held' := by
  refine ⟨hs, fun id hid => ?_, ht, hsize.trans h.regions, hroomy, hrefs, hcounted,
    fun id hid => hmax (h.rooted (Manager.mem_rootNodes.mp hid).2) (h.pinned id hid), hrooted,
    hcliques⟩
  obtain ⟨n, hn, hlevel⟩ := h.terminals id hid
  exact ⟨n, (hterm id hid).trans hn, hlevel⟩

/-- More references are counted, or less. -/
theorem Coherent.setRefs {out : NodeId → Prop} {held held' : List NodeId} (h : s.Coherent out held)
    {refs : Array Nat} (hsize : refs.size = s.refs.size) (hcounted : Counted refs s.diagram held')
    (hmax : ∀ {j}, s.refs.getD j 0 = maxRefs → refs.getD j 0 = maxRefs) :
    Coherent { s with refs } out held' :=
  ⟨h.store, h.terminals, h.table, h.regions, h.roomy, hsize.trans h.refs_size, hcounted,
    fun id hid => hmax (h.pinned id hid), h.rooted, h.cliques⟩

/-- Other nodes are in the table, or the same. -/
theorem Coherent.setTable {out out' : NodeId → Prop} {held : List NodeId} (h : s.Coherent out held)
    {table : LevelTable} (hsize : table.regions.size = s.table.regions.size) (hroomy : table.Roomy)
    (ht : table.Holds s.manager.store.nodes fun id => (s.diagram id).isSome = true ∧ ¬ out' id) :
    Coherent { s with table } out' held :=
  ⟨h.store, h.terminals, ht, hsize.trans h.regions, hroomy, h.refs_size, h.counted, h.pinned,
    h.rooted, h.cliques⟩

theorem Coherent.lt_refs {out : NodeId → Prop} {held : List NodeId} (h : s.Coherent out held)
    {id : NodeId} (hid : s.diagram.Live id) : id < s.refs.size := by
  rw [h.refs_size]
  exact FreeSlots.lt_of_isUsed (h.store.live_iff.mp hid)

/-- What is referred to has a count. -/
theorem Coherent.pos {out : NodeId → Prop} {held : List NodeId} (h : s.Coherent out held)
    {p c : NodeId} (hc : s.diagram.Child p c) : 0 < s.refs.getD c 0 :=
  h.counted.pos (fun hn => h.lt_refs (Diagram.live_of_eq_some hn)) hc

theorem Coherent.addRef {out : NodeId → Prop} {held : List NodeId} (h : s.Coherent out held)
    {id : NodeId} (hid : s.diagram.Live id) :
    Coherent { s with refs := addRef s.refs id } out (id :: held) :=
  h.setRefs (size_addRef _ _) (h.counted.addRef (h.lt_refs hid)) (addRef_eq_max (h.lt_refs hid))

theorem Keeps.refl (s : Session) : s.Keeps s :=
  ⟨rfl, rfl, rfl, rfl, rfl, rfl, rfl, rfl, fun _ => .rfl, .refl _ _, rfl, fun _ h => h⟩

theorem Keeps.rooted (h : s.Keeps s') {id : NodeId} : s'.manager.Rooted id ↔ s.manager.Rooted id := by
  rw [Manager.Rooted, Manager.Rooted, h.pending, h.operands, h.roots, h.literals, h.pairings]

theorem Keeps.trans (h : s.Keeps s') (h' : s'.Keeps s'') : s.Keeps s'' where
  literals := h'.literals.trans h.literals
  pending := h'.pending.trans h.pending
  operands := h'.operands.trans h.operands
  roots := h'.roots.trans h.roots
  forest := h'.forest.trans h.forest
  auto := h'.auto.trans h.auto
  config := h'.config.trans h.config
  error := h'.error.trans h.error
  pairings id := (h'.pairings id).trans (h.pairings id)
  carried := h.carried.trans h'.carried
  varNum := h'.varNum.trans h.varNum
  value hid hb := h'.value (h.rooted.mpr hid) (h.value hid hb)

theorem rank_eq {v : Var} {l : Level} (hl : s.manager.order.levelOf[v]? = some l) :
    s.rank v = l := by
  rw [rank, Array.getD_eq_getD_getElem?, hl]
  rfl

theorem Sound.rank_lt (h : s.Sound) (v : Var) (hv : v < s.manager.varNum) :
    s.rank v < s.manager.varNum := by
  obtain ⟨l, -, hl, -, hlt⟩ := h.order.getD_levelOf hv
  rw [rank, hl]
  exact hlt

theorem Sound.rank_injective (h : s.Sound) (v w : Var) (hv : v < s.manager.varNum)
    (hw : w < s.manager.varNum) (heq : s.rank v = s.rank w) : v = w := by
  obtain ⟨l, -, hl, hat, -⟩ := h.order.getD_levelOf hv
  obtain ⟨l', -, hl', hat', -⟩ := h.order.getD_levelOf hw
  rw [rank, rank, hl, hl'] at heq
  subst heq
  exact Option.some.inj (hat.symm.trans hat')

/-- The diagram with levels for labels. -/
def ranked (s : Session) : Diagram := s.diagram.relabel s.rank

theorem Sound.ranked_reduced (h : s.Sound) : s.ranked.Reduced id s.manager.varNum :=
  h.reduced.relabel h.rank_lt (fun _ _ => rfl) h.rank_injective

/-- The values of the variables and those of their levels. -/
theorem ranked_eval {val : Level → Bool} {id : NodeId} {b : Bool}
    (h : s.diagram.Eval (fun v => val (s.rank v)) id b) : s.ranked.Eval val id b :=
  h.relabel fun _ => rfl

/-! ### The end of a session -/

/-- How the manager after a session comes about from the session. -/
structure Closes (s : Session) (m : Manager) : Prop where
  order : m.order = s.manager.order
  literals : m.literals = s.manager.literals
  pending : m.pending = s.manager.pending
  operands : m.operands = s.manager.operands
  roots : m.roots = s.manager.roots
  pairings : m.pairings = s.manager.pairings
  forest : m.forest = s.manager.forest
  auto : m.auto = s.manager.auto
  config : m.config = s.manager.config
  error : m.error = s.manager.error
  kept : ∀ {id}, s.diagram.Below s.manager.rootNodes id → m.diagram id = s.ranked id
  dropped : ∀ {id}, ¬ s.diagram.Below s.manager.rootNodes id → m.diagram id = none
  value : ∀ {id a b}, s.manager.Rooted id → s.diagram.Eval a id b → m.Value a id b

theorem Closes.rootNodes {m : Manager} (h : s.Closes m) : m.rootNodes = s.manager.rootNodes := by
  rw [Manager.rootNodes, Manager.rootNodes, h.pending, h.operands, h.roots, h.literals, h.pairings]

/-- A collection would keep the nodes that this one kept. -/
theorem Closes.kept_iff {m : Manager} (h : s.Closes m) {id : NodeId} :
    m.Kept id ↔ s.diagram.Below s.manager.rootNodes id := by
  have hranked : ∀ {id}, s.ranked.Below s.manager.rootNodes id ↔
      s.diagram.Below s.manager.rootNodes id := Diagram.below_relabel
  have hkept : ∀ id, s.ranked.Below s.manager.rootNodes id → m.diagram id = s.ranked id := fun id hid =>
    h.kept (hranked.mp hid)
  rw [Manager.Kept, h.rootNodes, ← hranked]
  constructor
  · rintro ⟨r, hr, hreach⟩
    have hclosed : m.diagram.Closed (s.ranked.Below s.manager.rootNodes) :=
      Diagram.Closed.congr (Diagram.below_closed _ _) hkept
    exact hclosed.reaches ⟨r, hr, .refl⟩ hreach
  · exact Diagram.Below.congr hkept (List.Subset.refl _)

theorem Closes.rooted {m : Manager} (h : s.Closes m) {id : NodeId} :
    m.Rooted id ↔ s.manager.Rooted id := by
  rw [Manager.Rooted, Manager.Rooted, h.pending, h.operands, h.roots, h.literals, h.pairings]

theorem Closes.varNum {m : Manager} (h : s.Closes m) : m.varNum = s.manager.varNum := by
  rw [Manager.varNum, h.order]
  rfl

/-- What has a name is live afterwards. -/
theorem Closes.live {m : Manager} (h : s.Closes m) (hs : s.Sound) {id : NodeId}
    (hid : s.manager.Rooted id) : m.diagram.Live id := by
  by_cases ht : id.isTerminal = true
  · exact Diagram.live_of_terminal ht
  · have hroot := Manager.mem_rootNodes.mpr ⟨Bool.eq_false_iff.mpr ht, hid⟩
    exact (Diagram.live_relabel.mpr (hs.rooted hid)).congr (h.kept (Diagram.below_of_mem hroot))

theorem Closes.reduced {m : Manager} (h : s.Closes m) (hs : s.Sound) :
    m.diagram.Reduced id s.manager.varNum :=
  hs.ranked_reduced.restrict (Diagram.below_closed _ s.manager.rootNodes)
    (fun _ hid => h.kept (Diagram.below_relabel.mp hid))
    fun _ hid => h.dropped fun hid' => hid (Diagram.below_relabel.mpr hid')

/-- A node that has the values of a variable, or their negations, is a literal. -/
theorem Closes.literal {m : Manager} (h : s.Closes m) (hs : s.Sound) {v : Var} {l : Level}
    (hl : s.manager.order.levelOf[v]? = some l) {id : NodeId} (hid : s.manager.Rooted id)
    {f : Bool → Bool} (hf : f false ≠ f true)
    (hval : ∀ a : Var → Bool, s.diagram.Eval a id (f (a v))) :
    m.diagram id = some ⟨l, NodeId.ofBool (f false), NodeId.ofBool (f true)⟩ := by
  refine (h.reduced hs).eq_literal (fun v hv => hv) (fun v w _ _ heq => heq) (h.live hs hid) hf
    fun val => ?_
  have hb := h.value hid (hval fun w => val (s.rank w))
  rw [rank_eq hl] at hb
  refine hb.congr_val fun {j n} hn => ?_
  obtain ⟨w, -, hw, hof, -⟩ := hs.order.getD_varAt ((h.reduced hs).label_lt hn)
  show val (s.rank (m.order.varAt.getD n.level 0)) = _
  rw [h.order, hw, rank_eq hof]

theorem Closes.sound {m : Manager} (h : s.Closes m) (hs : s.Sound) (hstore : m.store.Valid)
    (htable : m.table.Indexes m.store)
    (hcomputed : m.computed.Sound m.diagram m.pairings m.store.TerminalsAt)
    (hterm : m.store.TerminalsAt s.manager.varNum) : m.Sound := by
  have hvar := h.varNum
  refine ⟨⟨hstore, hvar ▸ h.reduced hs, htable, fun hid => h.live hs (h.rooted.mp hid), hcomputed,
    ?_⟩, ?_, hvar ▸ hterm, ?_, ?_, ?_⟩
  · rw [h.error]
    exact hs.error
  · rw [h.order]
    exact hs.order
  · rw [h.literals, hvar]
    exact hs.literals_size
  · intro v p l hp hl
    rw [h.literals] at hp
    rw [h.order] at hl
    obtain ⟨hpos, hneg⟩ := Manager.named_literal hp
    exact ⟨h.literal hs hl (f := fun b => b) hpos.rooted (by decide) fun a => (hs.literals hp a).1,
      h.literal hs hl (f := fun b => !b) hneg.rooted (by decide) fun a => (hs.literals hp a).2⟩
  · rw [h.pairings, hvar]
    exact hs.pairings

/-- The values under the variables are those under their levels. -/
theorem Sound.value_ranked (h : s.Sound) {a : Var → Bool} {id : NodeId} {b : Bool}
    (hb : s.diagram.Eval a id b) :
    s.ranked.Eval (fun l => a (s.manager.order.varAt.getD l 0)) id b := by
  refine hb.relabel fun {id n} hn => ?_
  obtain ⟨l, -, hl, hat, -⟩ := h.order.getD_levelOf (h.reduced.label_lt hn)
  rw [rank, hl, Array.getD_eq_getD_getElem?, hat]
  rfl

/-- The collection at the end of a session. -/
theorem Sound.closes (h : s.Sound) {store : Store} (hg : store.diagram = s.ranked) {m : Manager}
    (hC : Manager.Collected { s.manager with store } m) : s.Closes m := by
  have hbelow : ∀ {id}, Manager.Kept { s.manager with store } id ↔
      s.diagram.Below s.manager.rootNodes id := by
    intro id
    show store.diagram.Below _ id ↔ _
    rw [hg]
    exact Diagram.below_relabel
  refine ⟨hC.order, hC.literals, hC.pending, hC.operands, hC.roots, hC.pairings, hC.forest,
    hC.auto, hC.config, hC.error, fun hid => ?_, fun hid => ?_, fun {id a b} hid hb => ?_⟩
  · exact (hC.kept _ (hbelow.mpr hid)).trans (congrFun hg _)
  · exact hC.dropped _ fun hid' => hid (hbelow.mp hid')
  · have hval : store.diagram.Eval (fun l => a (s.manager.order.varAt.getD l 0)) id b := by
      rw [hg]
      exact h.value_ranked hb
    rw [Manager.Value, hC.order]
    exact hval.of_agreeOn (Manager.kept_closed _) hC.kept (Manager.kept_of_rooted hid)

/-- A sound session can be closed. -/
theorem Sound.exists_finish (h : s.Sound) :
    ∃ stats m, s.finish = some (stats, m) ∧ m.Sound ∧ s.Closes m := by
  obtain ⟨store, hrelabel, hs, -, hdiagram, hterm⟩ :=
    h.store.exists_relabel_all s.manager.order.levelOf fun hn => by
      rw [h.order.size]
      exact h.reduced.label_lt hn
  have hg : store.diagram = s.ranked := hdiagram
  have hreduced : store.diagram.Reduced id s.manager.varNum := by
    rw [hg]
    exact h.ranked_reduced
  obtain ⟨freed, m, hcollect, hC⟩ := Manager.exists_collect (m := { s.manager with store }) hs
    hreduced fun r hr => by
      show store.diagram.Live r
      rw [hg]
      exact Diagram.live_relabel.mpr (h.rooted (Manager.mem_rootNodes.mp hr).2)
  have hc := h.closes hg hC
  -- The computed table is emptied and the session is counted.
  have hcloses : s.Closes { m with
      computed := m.computed.clear
      counters := { m.counters with reorders := m.counters.reorders + 1 } } :=
    ⟨hc.order, hc.literals, hc.pending, hc.operands, hc.roots, hc.pairings, hc.forest, hc.auto,
      hc.config, hc.error, hc.kept, hc.dropped, hc.value⟩
  have hfinish : s.finish = some (⟨s.swaps, s.initialSize, m.store.usedCount⟩, { m with
      computed := m.computed.clear
      counters := { m.counters with reorders := m.counters.reorders + 1 } }) := by
    simp only [Session.finish, hrelabel, hcollect, Option.bind_eq_bind, Option.bind_some,
      Option.pure_def]
  refine ⟨_, _, hfinish, hcloses.sound h hC.store hC.table (.clear _ _ _ _) fun id ht => ?_,
    hcloses⟩
  obtain ⟨n, hn, hl⟩ := h.terminals id ht
  exact ⟨n, ((hC.terminals ht).trans (hterm id ht)).trans hn, hl⟩

theorem Sound.finish (h : s.Sound) {stats : ReorderStats} {m : Manager}
    (hf : s.finish = some (stats, m)) : m.Sound ∧ s.Closes m := by
  obtain ⟨stats', m', hf', hm⟩ := h.exists_finish
  obtain ⟨-, rfl⟩ := Prod.mk.inj (Option.some.inj (hf.symm.trans hf'))
  exact hm

end Session

end DecisionDiagram
