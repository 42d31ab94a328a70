/-
The size of a session is a function of the order.

The live nodes are those below the roots and below the nodes whose count of references is saturated,
which are never reclaimed.  What these are as functions does not change in a session, and with the order
they determine the trees that the nodes unfold to.

* `Session.Held` — the nodes that stay; `Sound.exists_held` — every node can be reached from one of them;
* `Session.shapes` — the trees of the nodes; `Sound.size_eq`, `Sound.count?_eq` — they are counted;
* `Session.Matches.size`, `.count?` — sessions in which the same nodes stay, with the same values, and
  that have the same order, are as large, in all and in each variable;
* `Session.Unsaturated` — no count is saturated, so the nodes that stay are those with a name;
  `Session.Shares.matches` — and they are the same when the roots are;
* `Walk.holding_le`, `Walk.matches` — no fewer nodes stay after some moves, and if there are no more,
  then a session that comes back to an order comes back to its size;
* `Session.Alike` — two sessions that look the same to a search for a better order.
-/
import Mathlib.Data.Finset.Union
import Mathlib.Data.Set.Card
import DecisionDiagram.Proofs.Reorder.Start
import DecisionDiagram.Proofs.Reorder.Walk
import DecisionDiagram.Proofs.Unfolding

namespace DecisionDiagram

/-! ### The parts of a tree -/

/-- The parts of a tree that decide a level. -/
def Tree.parts : Tree → Finset Tree
  | leaf _ => ∅
  | node k l h => insert (node k l h) (l.parts ∪ h.parts)

/-- The parts of the tree of a node are the trees of the inner nodes below it. -/
theorem Diagram.Reduced.mem_parts {g : Diagram} {bound : Nat} (hg : g.Reduced id bound) {f : NodeId}
    (hf : g.Live f) {t : Tree} :
    t ∈ (g.tree f).parts ↔ ∃ c n, g.Reaches f c ∧ g c = some n ∧ g.tree c = t := by
  have hu := hg.unfolds hf
  generalize g.tree f = u at hu
  -- A node with a record that is reached is the first one, or reached from a child.
  induction hu with
  | @terminal f ht =>
    have hnone : ∀ n, g f ≠ some n := fun n hn => by
      rw [hg.inner hn] at ht
      cases ht
    constructor
    · simp [Tree.parts]
    · rintro ⟨c, n, hc, hn, -⟩
      rcases hc.cases_head with rfl | ⟨d, hd, -⟩
      · exact absurd hn (hnone n)
      · exact absurd hd (hg.no_child ht)
  | @node f n l h hn hl hh ihl ihh =>
    have hlow : t ∈ l.parts ↔ _ := ihl (hg.below hn false).live
    have hhigh : t ∈ h.parts ↔ _ := ihh (hg.below hn true).live
    have htree : g.tree f = .node n.level l h := hg.tree_eq (.node hn hl hh)
    rw [Tree.parts, Finset.mem_insert, Finset.mem_union, hlow, hhigh]
    constructor
    · rintro (rfl | ⟨c, m, hc, hm, rfl⟩ | ⟨c, m, hc, hm, rfl⟩)
      · exact ⟨f, n, .refl, hn, htree⟩
      · exact ⟨c, m, .head ⟨n, false, hn, rfl⟩ hc, hm, rfl⟩
      · exact ⟨c, m, .head ⟨n, true, hn, rfl⟩ hc, hm, rfl⟩
    · rintro ⟨c, m, hc, hm, rfl⟩
      rcases hc.cases_head with rfl | ⟨d, ⟨n', b, hn', rfl⟩, hd⟩
      · exact .inl htree
      · obtain rfl := Option.some.inj (hn.symm.trans hn')
        right
        cases b
        · exact .inl ⟨c, m, hd, hm, rfl⟩
        · exact .inr ⟨c, m, hd, hm, rfl⟩

/-! ### The number of live nodes -/

namespace Store.Valid

variable {s : Store}

theorem finite_live (h : s.Valid) : {id | s.diagram.Live id}.Finite := by
  refine (Finset.range s.capacity).finite_toSet.subset fun id hid => ?_
  exact Finset.mem_coe.mpr (Finset.mem_range.mpr (FreeSlots.lt_of_isUsed (h.live_iff.mp hid)))

/-- The slots in use are those of the live nodes. -/
theorem usedCount_eq_ncard (h : s.Valid) : s.usedCount = {id | s.diagram.Live id}.ncard := by
  have hlive : {id | s.diagram.Live id} =
      ((Finset.range s.capacity).filter fun i => s.slots.isUsed i = true : Finset Nat) := by
    ext id
    rw [Set.mem_ofPred_eq, h.live_iff, Finset.mem_coe, Finset.mem_filter, Finset.mem_range]
    exact ⟨fun hid => ⟨FreeSlots.lt_of_isUsed hid, hid⟩, fun hid => hid.2⟩
  have hvacant : s.slots.vacancies =
      (Finset.range s.capacity).filter fun i => ¬ s.slots.isUsed i = true := by
    simp only [FreeSlots.vacancies, Bool.not_eq_true]
    rfl
  have hsplit := Finset.card_filter_add_card_filter_not (s := Finset.range s.capacity)
    (fun i => s.slots.isUsed i = true)
  rw [hlive, Set.ncard_coe_finset, usedCount, FreeSlots.usedCount, h.slots.free_eq, hvacant]
  rw [Finset.card_range] at hsplit
  show s.capacity - _ = _
  omega

/-- The live nodes are the inner nodes and the two terminals. -/
theorem usedCount_eq (h : s.Valid) :
    s.usedCount = {id | (s.diagram id).isSome = true}.ncard + 2 := by
  have hunion : {id | s.diagram.Live id} =
      {id | (s.diagram id).isSome = true} ∪ {NodeId.bot, NodeId.top} := by
    ext id
    rw [Set.mem_union, Set.mem_insert_iff, Set.mem_singleton_iff, Set.mem_ofPred_eq, Set.mem_ofPred_eq,
      Diagram.Live, or_comm]
    refine or_congr_right ⟨fun ht => NodeId.eq_bot_or_eq_top ht, ?_⟩
    rintro (rfl | rfl) <;> rfl
  have hdisjoint : Disjoint {id | (s.diagram id).isSome = true} {NodeId.bot, NodeId.top} := by
    rw [Set.disjoint_left]
    intro id hid ht
    obtain ⟨n, hn⟩ := Option.isSome_iff_exists.mp hid
    have hinner := inner_of_diagram hn
    rcases ht with rfl | rfl <;> cases hinner
  have hfinite : {id | (s.diagram id).isSome = true}.Finite :=
    h.finite_live.subset fun id hid => .inr hid
  rw [h.usedCount_eq_ncard, hunion, Set.ncard_union_eq hdisjoint hfinite, Set.ncard_pair (by decide)]

end Store.Valid

namespace Session

variable {s s' s'' t : Session}

/-! ### The nodes that stay -/

/-- An inner node that no move reclaims: the manager names it, or its count has got to its largest
value. -/
def Held (s : Session) (id : NodeId) : Prop :=
  (s.diagram id).isSome = true ∧ (s.manager.Rooted id ∨ s.refs.getD id 0 = maxRefs)

/-- No count is saturated, except for those of roots, which say nothing from the start. -/
def Unsaturated (s : Session) : Prop :=
  ∀ id, (s.diagram id).isSome = true → s.refs.getD id 0 = maxRefs → s.manager.Rooted id

theorem Unsaturated.held_iff (hu : s.Unsaturated) {id : NodeId} :
    s.Held id ↔ (s.diagram id).isSome = true ∧ s.manager.Rooted id :=
  and_congr_right fun hsome => or_iff_left_of_imp (hu id hsome)

/-- The counts of nodes that are no roots are the numbers of their parents. -/
theorem Sound.refs_eq (h : s.Sound) (hu : s.Unsaturated) {id : NodeId} {n : Node}
    (hn : s.diagram id = some n) (hid : ¬ s.manager.Rooted id) :
    s.refs.getD id 0 = s.diagram.indegree s.refs.size id := by
  have heq := (h.counted id).resolve_left fun hmax => hid (hu id (by rw [hn]; rfl) hmax)
  rwa [List.count_nil, Nat.add_zero] at heq

/-- Every node can be reached from one that stays.  The induction is on the level. -/
theorem Sound.exists_held (h : s.Sound) {id : NodeId} {n : Node} (hn : s.diagram id = some n) :
    ∃ r, s.Held r ∧ s.diagram.Reaches r id := by
  induction hk : s.rank n.level using Nat.strongRecOn generalizing id n with
  | ind k ih =>
    subst hk
    have hsome : (s.diagram id).isSome = true := by rw [hn]; rfl
    by_cases hid : s.Held id
    · exact ⟨id, hid, .refl⟩
    · obtain ⟨p, np, b, hp, rfl⟩ := h.counted.exists_parent (h.referred hsome)
        fun hmax => hid ⟨hsome, .inr hmax⟩
      have hlt := (h.reduced.below hp b).le (h.reduced.inner hn) hn
      obtain ⟨r, hr, hreach⟩ := ih _ hlt hp rfl
      exact ⟨r, hr, hreach.tail ⟨np, b, hp, rfl⟩⟩

/-- Every node can be reached from a root. -/
theorem Sound.below (h : s.Sound) (hu : s.Unsaturated) {id : NodeId} {n : Node}
    (hn : s.diagram id = some n) : s.diagram.Below s.manager.rootNodes id := by
  obtain ⟨r, hr, hreach⟩ := h.exists_held hn
  obtain ⟨hsome, hroot⟩ := hu.held_iff.mp hr
  obtain ⟨m, hm⟩ := Option.isSome_iff_exists.mp hsome
  exact ⟨r, .inr (Manager.mem_rootNodes.mpr ⟨h.reduced.inner hm, hroot⟩), hreach⟩

/-! ### Shapes -/

/-- A named node is an inner node or a terminal. -/
theorem Sound.isSome_iff (h : s.Sound) {id : NodeId} (hid : s.manager.Rooted id) :
    (s.diagram id).isSome = true ↔ id.isTerminal = false := by
  constructor
  · intro hsome
    obtain ⟨n, hn⟩ := Option.isSome_iff_exists.mp hsome
    exact h.reduced.inner hn
  · intro ht
    obtain ⟨n, hn⟩ := (h.rooted hid).eq_some ht
    rw [hn]
    rfl

/-- The trees of the inner nodes. -/
def shapes (s : Session) : Set Tree := s.ranked.tree '' {id | (s.diagram id).isSome = true}

/-- A live node is live with levels for labels. -/
theorem live_ranked {id : NodeId} : s.ranked.Live id ↔ s.diagram.Live id := Diagram.live_relabel

theorem Sound.root_live (h : s.Sound) {r : NodeId} (hr : r ∈ s.manager.rootNodes) :
    s.diagram.Live r := h.rooted (Manager.mem_rootNodes.mp hr).2

/-- The shapes are the parts of the trees of the nodes that stay. -/
theorem Sound.mem_shapes (h : s.Sound) {t : Tree} :
    t ∈ s.shapes ↔ ∃ r, s.Held r ∧ t ∈ (s.ranked.tree r).parts := by
  have hg := h.ranked_reduced
  constructor
  · rintro ⟨id, hsome, rfl⟩
    obtain ⟨n, hn⟩ := Option.isSome_iff_exists.mp hsome
    obtain ⟨r, hr, hreach⟩ := h.exists_held hn
    have hrel : s.ranked.Reaches r id := by
      rw [Diagram.Reaches, ranked, Diagram.childRel_relabel]
      exact hreach
    exact ⟨r, hr, (hg.mem_parts (live_ranked.mpr (.inr hr.1))).mpr
      ⟨id, _, hrel, Diagram.relabel_of_eq_some hn, rfl⟩⟩
  · rintro ⟨r, hr, ht⟩
    obtain ⟨c, n, -, hn, rfl⟩ := (hg.mem_parts (live_ranked.mpr (.inr hr.1))).mp ht
    obtain ⟨n', hn', -⟩ := Diagram.relabel_eq_some hn
    exact ⟨c, by rw [Set.mem_ofPred_eq, hn']; rfl, rfl⟩

theorem Sound.tree_injOn (h : s.Sound) (S : Set NodeId)
    (hS : ∀ id ∈ S, (s.diagram id).isSome = true) : S.InjOn s.ranked.tree := fun _ hi _ hj heq =>
  h.ranked_reduced.tree_injective (live_ranked.mpr (.inr (hS _ hi)))
    (live_ranked.mpr (.inr (hS _ hj))) heq

/-- The inner nodes and the two terminals. -/
theorem Sound.size_eq (h : s.Sound) : s.size = s.shapes.ncard + 2 := by
  have hcard := (h.tree_injOn {id | (s.diagram id).isSome = true} fun _ hid => hid).ncard_image
  rw [shapes, hcard, size, h.store.usedCount_eq]
  rfl

/-- The nodes of a variable. -/
theorem Sound.count?_eq_ncard (h : s.Sound) {v : Var} (hv : v < s.manager.varNum) :
    s.table.count? v = some {id | ∃ n, s.diagram id = some n ∧ n.level = v}.ncard := by
  obtain ⟨r, hr⟩ : ∃ r, s.table.regions[v]? = some r :=
    ⟨_, Array.getElem?_eq_getElem (h.regions ▸ hv)⟩
  obtain ⟨l, hnodup, hl, hcount⟩ := h.table.count hr
  have hset : {id | ∃ n, s.diagram id = some n ∧ n.level = v} = (l.toFinset : Set NodeId) := by
    ext id
    rw [Set.mem_ofPred_eq, Finset.mem_coe, List.mem_toFinset, hl]
    constructor
    · rintro ⟨n, hn, hlevel⟩
      have hsome : (s.diagram id).isSome = true := by rw [hn]; rfl
      exact ⟨⟨hsome, not_false⟩, (Reordering.labelled_iff hsome).mpr ⟨n, hn, hlevel⟩⟩
    · rintro ⟨⟨hsome, -⟩, hlabel⟩
      exact (Reordering.labelled_iff hsome).mp hlabel
  rw [LevelTable.count?, hr, hset, Set.ncard_coe_finset, List.toFinset_card_of_nodup hnodup, ← hcount]
  rfl

theorem Sound.count?_eq (h : s.Sound) {v : Var} (hv : v < s.manager.varNum) :
    s.table.count? v = some {t ∈ s.shapes | t.level? = some (s.rank v)}.ncard := by
  have hg := h.ranked_reduced
  have hlevel : ∀ {id n}, s.diagram id = some n →
      (s.ranked.tree id).level? = some (s.rank n.level) := fun hn => by
    rw [hg.tree_node (Diagram.relabel_of_eq_some hn)]
    rfl
  have himage : {t ∈ s.shapes | t.level? = some (s.rank v)} =
      s.ranked.tree '' {id | ∃ n, s.diagram id = some n ∧ n.level = v} := by
    ext t
    constructor
    · rintro ⟨⟨id, hsome, rfl⟩, hl⟩
      obtain ⟨n, hn⟩ := Option.isSome_iff_exists.mp hsome
      rw [hlevel hn] at hl
      exact ⟨id, ⟨n, hn, h.rank_injective _ _ (h.reduced.label_lt hn) hv (Option.some.inj hl)⟩, rfl⟩
    · rintro ⟨id, ⟨n, hn, rfl⟩, rfl⟩
      exact ⟨⟨id, by rw [Set.mem_ofPred_eq, hn]; rfl, rfl⟩, hlevel hn⟩
  have hcard := (h.tree_injOn {id | ∃ n, s.diagram id = some n ∧ n.level = v}
    fun _ ⟨_, hn, _⟩ => by rw [hn]; rfl).ncard_image
  rw [h.count?_eq_ncard hv, himage, hcard]

/-! ### Sessions that hold the same nodes -/

/-- The same nodes stay in the two sessions, and these have the same values. -/
structure Matches (s t : Session) : Prop where
  held : ∀ id, t.Held id ↔ s.Held id
  value : ∀ {id a b}, s.Held id → s.diagram.Eval a id b → t.diagram.Eval a id b

/-- Under one order, such a node has the same tree in both sessions. -/
theorem Matches.tree (hs : s.Sound) (ht : t.Sound) (h : s.Matches t)
    (ho : t.manager.order = s.manager.order) {r : NodeId} (hr : s.Held r) :
    t.ranked.tree r = s.ranked.tree r := by
  have hrank : t.rank = s.rank := by
    funext v
    rw [rank, rank, ho]
  have hsome : s.diagram.Live r := .inr hr.1
  have hlive := live_ranked.mpr hsome
  have hlive' : t.ranked.Live r := live_ranked.mpr (.inr ((h.held r).mpr hr).1)
  refine Tree.eq_of_eval (ht.ranked_reduced.tree_proper hlive'.under)
    (hs.ranked_reduced.tree_proper hlive.under) fun val => ?_
  obtain ⟨b, hb⟩ := hs.reduced.exists_eval hs.rank_lt (fun v => val (s.rank v)) hsome
  have hb' := h.value hr hb
  rw [← hrank] at hb'
  rw [(ht.ranked_reduced.eval_iff hlive').mp (ranked_eval hb'),
    (hs.ranked_reduced.eval_iff hlive).mp (ranked_eval hb)]

theorem Matches.shapes (hs : s.Sound) (ht : t.Sound) (h : s.Matches t)
    (ho : t.manager.order = s.manager.order) : t.shapes = s.shapes := by
  ext u
  rw [ht.mem_shapes, hs.mem_shapes]
  refine exists_congr fun r => ?_
  rw [h.held]
  exact and_congr_right fun hr => by rw [h.tree hs ht ho hr]

theorem Matches.size (hs : s.Sound) (ht : t.Sound) (h : s.Matches t)
    (ho : t.manager.order = s.manager.order) : t.size = s.size := by
  rw [hs.size_eq, ht.size_eq, h.shapes hs ht ho]

theorem Matches.count? (hs : s.Sound) (ht : t.Sound) (h : s.Matches t)
    (ho : t.manager.order = s.manager.order) (v : Var) : t.table.count? v = s.table.count? v := by
  have hvar : t.manager.varNum = s.manager.varNum := by rw [Manager.varNum, ho]; rfl
  have hrank : t.rank v = s.rank v := by rw [rank, rank, ho]
  by_cases hv : v < s.manager.varNum
  · rw [hs.count?_eq hv, ht.count?_eq (hvar ▸ hv), h.shapes hs ht ho, hrank]
  · have hnone : ∀ {s : Session}, s.Sound → ¬ v < s.manager.varNum → s.table.count? v = none := by
      intro s hs hv
      rw [LevelTable.count?, Array.getElem?_eq_none (by rw [hs.regions]; lia)]
      rfl
    rw [hnone hs hv, hnone ht (hvar ▸ hv)]

/-! ### Sessions with the same roots -/

/-- The two sessions name the same nodes, and these have the same values. -/
structure Shares (s t : Session) : Prop where
  rooted : ∀ id, t.manager.Rooted id ↔ s.manager.Rooted id
  value : ∀ {id a b}, s.manager.Rooted id → s.diagram.Eval a id b → t.diagram.Eval a id b

theorem Shares.trans (h : s.Shares s') (h' : s'.Shares s'') : s.Shares s'' :=
  ⟨fun id => (h'.rooted id).trans (h.rooted id), fun hid hb =>
    h'.value ((h.rooted _).mpr hid) (h.value hid hb)⟩

theorem Shares.symm (hs : s.Sound) (ht : t.Sound) (h : s.Shares t) : t.Shares s := by
  refine ⟨fun id => (h.rooted id).symm, fun {id a b} hid hb => ?_⟩
  have hid := (h.rooted id).mp hid
  obtain ⟨c, hc⟩ := hs.reduced.exists_eval hs.rank_lt a (hs.rooted hid)
  rwa [hb.unique ht.reduced.inner (h.value hid hc)]

/-- If no count is saturated, the nodes that stay are the named ones. -/
theorem Shares.matches (hs : s.Sound) (ht : t.Sound) (h : s.Shares t) (hu : s.Unsaturated)
    (hu' : t.Unsaturated) : s.Matches t := by
  refine ⟨fun id => ?_, fun hid hb => h.value (hu.held_iff.mp hid).2 hb⟩
  rw [hu.held_iff, hu'.held_iff, h.rooted]
  refine and_congr_left fun hroot => ?_
  rw [hs.isSome_iff hroot, ht.isSome_iff ((h.rooted id).mpr hroot)]

theorem Shares.size (hs : s.Sound) (ht : t.Sound) (h : s.Shares t)
    (ho : t.manager.order = s.manager.order) (hu : s.Unsaturated) (hu' : t.Unsaturated) :
    t.size = s.size := (h.matches hs ht hu hu').size hs ht ho

theorem Shares.count? (hs : s.Sound) (ht : t.Sound) (h : s.Shares t)
    (ho : t.manager.order = s.manager.order) (hu : s.Unsaturated) (hu' : t.Unsaturated) (v : Var) :
    t.table.count? v = s.table.count? v := (h.matches hs ht hu hu').count? hs ht ho v

/-! ### The account of a session -/

theorem finish_stats {stats : ReorderStats} {m : Manager} (h : s.finish = some (stats, m)) :
    stats = ⟨s.swaps, s.initialSize, m.store.usedCount⟩ := by
  simp only [finish, Option.bind_eq_bind, Option.bind_eq_some_iff, Option.pure_def,
    Option.some.injEq, Prod.mk.injEq] at h
  obtain ⟨store, -, ⟨freed, m₁⟩, -, rfl, rfl⟩ := h
  rfl

/-- After a session, all live nodes are kept by a collection. -/
theorem Closes.usedCount_eq {m : Manager} (h : s.Closes m) (hm : m.Sound) :
    m.store.usedCount = {id | m.Kept id}.ncard := by
  rw [hm.store.usedCount_eq_ncard]
  congr 1
  ext id
  refine ⟨fun hid => ?_, hm.kept_live⟩
  by_contra hdead
  rcases hid with ht | hsome
  · exact hdead (Manager.kept_of_terminal ht)
  · have hnone := h.dropped fun hbelow => hdead (h.kept_iff.mpr hbelow)
    rw [show m.store.diagram id = none from hnone] at hsome
    cases hsome

/-- If no count is saturated, the end of a session drops nothing. -/
theorem Closes.usedCount_eq_size {m : Manager} (h : s.Closes m) (hs : s.Sound) (hu : s.Unsaturated)
    (hm : m.Sound) : m.store.usedCount = s.size := by
  have hdiagram : ∀ id, (m.diagram id).isSome = (s.diagram id).isSome := by
    intro id
    by_cases hbelow : s.diagram.Below s.manager.rootNodes id
    · rw [h.kept hbelow, ranked, Diagram.isSome_relabel]
    · rw [h.dropped hbelow]
      rcases hid : s.diagram id with _ | n
      · rfl
      · exact absurd (hs.below hu hid) hbelow
  rw [size, hs.store.usedCount_eq, hm.store.usedCount_eq]
  congr 2
  ext id
  rw [Set.mem_ofPred_eq, Set.mem_ofPred_eq]
  exact Eq.congr_left (hdiagram id)

/-- A session starts with what a collection would keep. -/
theorem Opens.initialSize_eq {m : Manager} (h : Opens m s) (hs : s.Sound) (hm : m.Sound) :
    s.initialSize = {id | m.Kept id}.ncard := by
  rw [h.initialSize, size, hs.store.usedCount_eq_ncard]
  congr 1
  ext id
  constructor
  · rintro (ht | hsome)
    · exact Manager.kept_of_terminal ht
    · by_contra hdead
      rw [show s.manager.store.diagram id = none from h.dropped hdead] at hsome
      cases hsome
  · intro hkept
    refine (hm.kept_live hkept).imp_right fun hsome => ?_
    rw [show s.manager.store.diagram id = _ from h.kept hkept, Diagram.isSome_relabel]
    exact hsome

/-! ### Sessions that look the same -/

/-- Two sessions that may differ in what is known of the variables that interact. -/
structure Alike (s t : Session) : Prop extends Shares s t where
  left : s.Sound
  right : t.Sound
  order : t.manager.order = s.manager.order
  forest : t.manager.forest = s.manager.forest
  config : t.manager.config = s.manager.config
  swaps : t.swaps = s.swaps
  initialSize : t.initialSize = s.initialSize

end Session

namespace Reordering

variable {s s' : Session}

theorem Advances.shares (h : Advances s s') : s.Shares s' :=
  ⟨fun _ => h.keeps.rooted, h.keeps.value⟩

/-- What stays goes on to stay. -/
theorem Advances.held (h : Advances s s') {id : NodeId} (hid : s.Held id) : s'.Held id := by
  obtain ⟨hsome, hstays⟩ := hid
  obtain ⟨n, hn⟩ := Option.isSome_iff_exists.mp hsome
  have hinner := Store.inner_of_diagram hn
  rcases hstays with hroot | hmax
  · have hroot' := h.keeps.rooted.mpr hroot
    exact ⟨(h.sound.isSome_iff hroot').mpr hinner, .inl hroot'⟩
  · obtain ⟨hlive, hmax'⟩ := h.saturated ⟨.inr hsome, hmax⟩
    exact ⟨hlive.resolve_left (Bool.eq_false_iff.mp hinner), .inr hmax'⟩

theorem Advances.value (h : Advances s s') {id : NodeId} (hid : s.Held id) {a : Var → Bool} {b : Bool}
    (hb : s.diagram.Eval a id b) : s'.diagram.Eval a id b := by
  obtain ⟨hsome, hroot | hmax⟩ := hid
  · exact h.keeps.value hroot hb
  · exact h.constant ⟨.inr hsome, hmax⟩ hb

/-- A count that is not saturated now has never been. -/
theorem Advances.unsaturated (h : Advances s s') (hu : s'.Unsaturated) : s.Unsaturated := by
  intro id hsome hmax
  by_cases hid : s.manager.Rooted id
  · exact hid
  · obtain ⟨hlive, hmax'⟩ := h.saturated ⟨.inr hsome, hmax⟩
    obtain ⟨n, hn⟩ := Option.isSome_iff_exists.mp hsome
    have hinner := Store.inner_of_diagram hn
    rcases hlive with ht | hsome'
    · rw [hinner] at ht
      cases ht
    · exact absurd (h.keeps.rooted.mp (hu id hsome' hmax')) hid

end Reordering

namespace Session

/-! ### Moments of a session -/

/-- The number of nodes that stay. -/
noncomputable def holding (s : Session) : Nat := {id | s.Held id}.ncard

variable {s s' : Session}

theorem Sound.finite_held (h : s.Sound) : {id | s.Held id}.Finite :=
  h.store.finite_live.subset fun _ hid => .inr hid.1

/-- No fewer nodes stay after some moves. -/
theorem Walk.holding_le (h : s.Walk s') (hs : s.Sound) : s.holding ≤ s'.holding :=
  have ha := h.advances hs
  Set.ncard_le_ncard (fun _ hid => ha.held hid) ha.sound.finite_held

/-- If there are no more of them, these are the same nodes. -/
theorem Walk.matches (h : s.Walk s') (hs : s.Sound) (hle : s'.holding ≤ s.holding) :
    s.Matches s' := by
  have ha := h.advances hs
  have heq : {id | s.Held id} = {id | s'.Held id} :=
    Set.eq_of_subset_of_ncard_le (fun _ hid => ha.held hid) hle ha.sound.finite_held
  exact ⟨fun id => (Set.ext_iff.mp heq id).symm, fun hid hb => ha.value hid hb⟩

/-- If no count is saturated, only named nodes stay, and these are the same all the time. -/
theorem Walk.holding_eq (h : s.Walk s') (hs : s.Sound) (hu : s'.Unsaturated) :
    s'.holding = s.holding := by
  have ha := h.advances hs
  refine congrArg Set.ncard (Set.ext fun id => ?_)
  exact ((ha.shares.matches hs ha.sound (ha.unsaturated hu) hu).held id)

/-- Two moments of a session at which it has the same order. -/
theorem Walk.sizes_eq {s s₁ s₂ : Session} (h : s.Sound) (h₁ : s.Walk s₁) (h₂ : s.Walk s₂)
    (ho : s₂.manager.order = s₁.manager.order) (hu₁ : s₁.Unsaturated) (hu₂ : s₂.Unsaturated) :
    s₂.size = s₁.size ∧ ∀ v, s₂.table.count? v = s₁.table.count? v := by
  have ha₁ := h₁.advances h
  have ha₂ := h₂.advances h
  have hshares : s₁.Shares s₂ := (ha₁.shares.symm h ha₁.sound).trans ha₂.shares
  exact ⟨hshares.size ha₁.sound ha₂.sound ho hu₁ hu₂, hshares.count? ha₁.sound ha₂.sound ho hu₁ hu₂⟩

end Session

end DecisionDiagram
