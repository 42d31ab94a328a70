/-
The exchange of two adjacent levels is sound, and fails only when there is no room for it.

* `Rebuilding.start`, `Reclaiming.start` — the nodes of the two variables are divided off;
* `Achieves.rebuild_all`, `Achieves.reclaim_all` — all of them are rebuilt or looked through;
* `Achieves.swapNodes` — after room was made, all of this ends;
* `Achieves.vardown`, `Ensures.varup` — a variable changes places with its neighbour in a sound
  session, which stays sound.
-/
import DecisionDiagram.Proofs.Reorder.Rebuild
import DecisionDiagram.Proofs.Reorder.Reclaim

namespace DecisionDiagram.Reordering

open Session (Interact maxRefs)
open Diagram (Turning)

variable {s s₀ : Session} {rank : Nat → Nat} {x y : Var} {T held : List NodeId}
  {E : Session → Prop}

/-! ### All nodes of the two variables -/

/-- Which nodes are divided off for an exchange. -/
theorem dependsOn?_iff (ht : s.manager.store.TerminalsAt s.manager.varNum)
    (hy : y < s.manager.varNum) {id : NodeId} {n : Node} (hn : s.diagram id = some n)
    (hlive : ∀ c, s.diagram.Live (n.child c)) {b : Bool}
    (hb : dependsOn? s.manager.store y id = some b) :
    b = true ↔ ∃ c m, s.diagram (n.child c) = some m ∧ m.level = y := by
  obtain ⟨n', low, high, hnode, hlow, hhigh, rfl⟩ := dependsOn?_eq_some hb
  obtain rfl := Option.some.inj (hnode.symm.trans (Store.node?_of_diagram hn))
  -- A terminal stands at the level past all variables.
  have hchild : ∀ {c m}, s.diagram.Live c → s.manager.store.node? c = some m →
      (m.level = y ↔ ∃ m', s.diagram c = some m' ∧ m'.level = y) := by
    intro c m hc hm
    constructor
    · rintro rfl
      by_cases hterm : c.isTerminal = true
      · obtain ⟨m', hm', hlevel⟩ := ht c hterm
        obtain rfl := Option.some.inj (hm.symm.trans hm')
        lia
      · obtain ⟨m', hm'⟩ := hc.eq_some (Bool.eq_false_iff.mpr hterm)
        obtain rfl := Option.some.inj (hm.symm.trans (Store.node?_of_diagram hm'))
        exact ⟨m, hm', rfl⟩
    · rintro ⟨m', hm', hlevel⟩
      obtain rfl := Option.some.inj (hm.symm.trans (Store.node?_of_diagram hm'))
      exact hlevel
  have hl := hchild (hlive false) hlow
  have hr := hchild (hlive true) hhigh
  rw [Bool.or_eq_true, beq_iff_eq, beq_iff_eq, hl, hr]
  constructor
  · rintro (hm | hm)
    · exact ⟨false, hm⟩
    · exact ⟨true, hm⟩
  · rintro ⟨c, hm⟩
    cases c
    · exact .inl hm
    · exact .inr hm

/-- What the rebuilding of all nodes of a variable achieves. -/
structure Rebuilt (s s' : Session) (rank : Nat → Nat) : Prop where
  frame : s.SameFrame s'
  coherent : s'.Coherent (fun _ => False) []
  reduced : s'.diagram.Reduced rank s.manager.varNum
  referred : ∀ {id}, (s'.diagram id).isSome = true → 0 < s'.refs.getD id 0
  saturated : ∀ {j}, s.Saturated j → s'.Saturated j
  value : ∀ {a id b}, s'.diagram.Live id → s.diagram.Eval a id b → s'.diagram.Eval a id b

theorem Roomier.frame {s' : Session} (h : Roomier s s') : s.SameFrame s' := by
  refine ⟨?_, h.interactions, h.swaps⟩
  rw [h.manager]

theorem Roomier.saturated {s' : Session} (h : Roomier s s') {j : NodeId} (hj : s.Saturated j) :
    s'.Saturated j := by
  rw [Session.Saturated, h.diagram, h.refs]
  exact hj

theorem labelled_iff {id : NodeId} {v : Var} (hid : (s.diagram id).isSome = true) :
    Labelled s.manager.store.nodes v id ↔ ∃ n, s.diagram id = some n ∧ n.level = v := by
  constructor
  · rintro ⟨n, hn, hv⟩
    exact ⟨n, Store.diagram_of_isSome hid hn, hv⟩
  · rintro ⟨n, hn, hv⟩
    exact ⟨n, Store.nodes_of_diagram hn, hv⟩

/-- The nodes that do not depend on the lower variable go back into the table, the others are those
to be rebuilt. -/
theorem Rebuilding.start {s₁ : Session} (h : s.Sound)
    (ex : Diagram.Exchanged s.rank rank s.manager.varNum x y) (hroom : Roomier s s₁)
    {ids dependent others : List NodeId} {table' : LevelTable}
    (hids : ∀ id, id ∈ ids ↔ ((s₁.diagram id).isSome = true ∧ ¬ False) ∧
      Labelled s₁.manager.store.nodes x id)
    (hd : Division s₁.manager.store y ids dependent others)
    (hsize : table'.regions.size = s₁.table.regions.size) (hroomy : table'.Roomy)
    (htable : table'.Holds s₁.manager.store.nodes fun j =>
      j ∈ others ∨ ((s₁.diagram j).isSome = true ∧ ¬ False) ∧ j ∉ ids) :
    Rebuilding s { s₁ with table := table' } rank x y dependent [] := by
  have h₁ : s₁.Coherent (fun _ => False) [] := hroom.coherent h.toCoherent
  have hvar : s₁.manager.varNum = s.manager.varNum := hroom.frame.varNum
  have hiff : ∀ {id b}, id ∈ ids → dependsOn? s₁.manager.store y id = some b →
      (b = true ↔ s.diagram.Depends x y id) := by
    intro id b hid hb
    obtain ⟨hsome, hl⟩ := (hids id).mp hid
    obtain ⟨n, hn, hx⟩ := (labelled_iff hsome.1).mp hl
    have hn' : s.diagram id = some n := hroom.diagram ▸ hn
    rw [dependsOn?_iff h₁.terminals (hvar ▸ ex.lower_lt) hn
      (fun c => hroom.diagram ▸ (h.reduced.below hn' c).live) hb, hroom.diagram]
    constructor
    · intro hc
      exact ⟨n, hn', hx, hc⟩
    · rintro ⟨n', hn'', -, hc⟩
      obtain rfl := Option.some.inj (hn'.symm.trans hn'')
      exact hc
  have hdepends : s.diagram.Depends x y = (· ∈ dependent) := by
    funext id
    refine propext ⟨fun hD => ?_, fun hid => ?_⟩
    · have hlabel := hD
      obtain ⟨n, hn, hx, -⟩ := hlabel
      have hn₁ : s₁.diagram id = some n := hroom.diagram ▸ hn
      have hid : id ∈ ids := (hids id).mpr ⟨⟨by rw [hn₁]; rfl, not_false⟩,
        n, Store.nodes_of_diagram hn₁, hx⟩
      refine (hd.mem id hid).resolve_right fun ho => ?_
      have := (hiff hid ((hd.mem_others id).mp ho).2).mpr hD
      cases this
    · obtain ⟨hmem, hb⟩ := (hd.mem_dependent id).mp hid
      exact (hiff hmem hb).mp rfl
  refine ⟨hroom.frame.trans ⟨rfl, rfl, rfl⟩, h₁.setTable hsize hroomy (htable.congr fun j => ?_),
    ?_, ?_, hroom.saturated, by simp, fun hb => ?_⟩
  · -- Every node of the upper variable goes to exactly one of the two lists.
    have hnot : j ∈ others → j ∉ dependent := by
      intro ho hdep
      have := ((hd.mem_others j).mp ho).2.symm.trans ((hd.mem_dependent j).mp hdep).2
      cases this
    constructor
    · rintro (ho | ⟨⟨hsome, -⟩, hj⟩)
      · exact ⟨((hids j).mp ((hd.mem_others j).mp ho).1).1.1, hnot ho⟩
      · exact ⟨hsome, fun hdep => hj ((hd.mem_dependent j).mp hdep).1⟩
    · rintro ⟨hsome, hdep⟩
      by_cases hj : j ∈ ids
      · exact .inl ((hd.mem j hj).resolve_left hdep)
      · exact .inr ⟨⟨hsome, not_false⟩, hj⟩
  · show s₁.diagram.Amid rank s₁.manager.varNum x y (· ∈ dependent)
    rw [hvar, hroom.diagram, ← hdepends]
    exact h.reduced.amid ex
  · show Turning s.diagram s₁.diagram x y (· ∈ dependent) []
    rw [hroom.diagram, ← hdepends]
    exact .refl _
  · show s₁.diagram.Eval _ _ _
    rw [hroom.diagram]
    exact hb

/-- All nodes are rebuilt; those of the lower variable are taken out of the table. -/
theorem Reclaiming.start {s₁ : Session} (h : s.Sound) (h₁ : Rebuilding s s₁ rank x y [] [])
    {L : List NodeId} (hnodup : L.Nodup)
    (hL : ∀ id, id ∈ L ↔ ((s₁.diagram id).isSome = true ∧ id ∉ []) ∧
      Labelled s₁.manager.store.nodes y id)
    {table : LevelTable} (hsize : table.regions.size = s₁.table.regions.size)
    (hroomy : table.Roomy) (htable : table.Holds s₁.manager.store.nodes fun id =>
      ((s₁.diagram id).isSome = true ∧ id ∉ []) ∧ id ∉ L) :
    Reclaiming s { s₁ with table } rank y L := by
  have hturn : Turning s.diagram s₁.diagram x y (fun _ => False) [] := by
    simpa using h₁.turning
  have hmem : ∀ {id n}, s₁.diagram id = some n → (id ∈ L ↔ n.level = y) := by
    intro id n hn
    have hsome : (s₁.diagram id).isSome = true := by rw [hn]; rfl
    rw [hL, labelled_iff hsome]
    constructor
    · rintro ⟨-, n', hn', hy⟩
      obtain rfl := Option.some.inj (hn.symm.trans hn')
      exact hy
    · exact fun hy => ⟨⟨hsome, List.not_mem_nil⟩, n, hn, hy⟩
  -- A node is referred to just if it has a parent or its count is saturated.
  have href : ∀ {id}, (s.diagram id).isSome = true →
      s.Saturated id ∨ ∃ p, s.diagram.Child p id := by
    intro id hsome
    by_cases hmax : s.refs.getD id 0 = maxRefs
    · exact .inl ⟨.inr hsome, hmax⟩
    · exact .inr (h.counted.exists_parent (h.referred hsome) hmax)
  have hpos : ∀ {id}, s.Saturated id ∨ (∃ p, s₁.diagram.Child p id) → 0 < s₁.refs.getD id 0 := by
    rintro id (hsat | ⟨p, hc⟩)
    · rw [(h₁.saturated hsat).2]
      decide
    · exact h₁.coherent.pos hc
  refine ⟨h₁.frame.trans ⟨rfl, rfl, rfl⟩,
    h₁.coherent.setTable hsize hroomy (htable.congr fun j => ?_),
    h₁.amid.reduced (by simp), hnodup, fun id hid => ((hL id).mp hid).1.1,
    fun hid hn => (hmem hn).mp hid, fun {id} hsome hid => ?_, fun {id n} hid hn hzero b => ?_,
    h₁.saturated, fun _ hb => h₁.value hb⟩
  · simp
  · obtain ⟨n, hn⟩ := Option.isSome_iff_exists.mp hsome
    exact hpos (hturn.referred h.reduced href hn fun hy => hid ((hmem hn).mpr hy))
  · have hnone : ¬ (s.Saturated id ∨ ∃ p, s₁.diagram.Child p id) := fun hr =>
      absurd hzero (Nat.pos_iff_ne_zero.mp (hpos hr))
    rw [not_or, not_exists] at hnone
    obtain ⟨p, hp, hpy⟩ := hturn.child_referred h.reduced href hn ((hmem hn).mp hid) hnone.1
      hnone.2 b
    refine ⟨p, hp, fun hpL => hpos ?_⟩
    obtain ⟨np, -, hnp, -⟩ := hp
    exact hpy np hnp ((hmem hnp).mp hpL)

/-- There is no room for the nodes that an exchange may make, and nothing else has happened. -/
structure Starved (s : Session) (v : Var) (s' : Session) : Prop where
  roomier : Roomier s s'
  reserve : ∃ n, s.table.count? v = some n ∧
    Reordering.reserve (2 * n) s = .error (.error .nodeLimit) s'

/-- The nodes of a variable can be divided. -/
theorem exists_division {out : NodeId → Prop} (h : s.Coherent out held)
    (hred : s.diagram.Reduced rank s.manager.varNum) {ids : List NodeId} (hnodup : ids.Nodup)
    (hids : ∀ id ∈ ids, (s.diagram id).isSome = true) (v : Var) :
    ∃ dependent others, divide? s.manager.store v ids = some (dependent, others) ∧
      Division s.manager.store v ids dependent others := by
  obtain ⟨dependent, others, hdivide⟩ : ∃ dependent others,
      divide? s.manager.store v ids = some (dependent, others) := by
    refine exists_divide? fun id hid => ?_
    obtain ⟨n, hn⟩ := Option.isSome_iff_exists.mp (hids id hid)
    obtain ⟨low, hlow⟩ := exists_node h (hred.below hn false).live
    obtain ⟨high, hhigh⟩ := exists_node h (hred.below hn true).live
    exact exists_dependsOn? (Store.node?_of_diagram hn) hlow hhigh v
  exact ⟨dependent, others, hdivide, divide?_spec hnodup hdivide⟩

/-- All nodes that depend on the lower variable are rebuilt. -/
theorem Achieves.rebuild_all (h₀ : s₀.Sound) (h : Rebuilding s₀ s rank x y T []) (hT : T.Nodup)
    (hfree : 2 * T.length ≤ s.manager.store.freeCount) :
    Achieves s (T.forM (Reordering.rebuild x y)) (fun _ s' => Rebuilding s₀ s' rank x y [] []) E := by
  refine (Achieves.forM (I := fun T s' => Rebuilding s₀ s' rank x y T [] ∧ T.Nodup ∧
    2 * T.length ≤ s'.manager.store.freeCount) ⟨h, hT, hfree⟩ ?_).mono (fun _ _ hQ => hQ.1)
    fun _ hE => hE
  rintro id T s' ⟨h', hT, hfree'⟩
  obtain ⟨hid, hT⟩ := List.nodup_cons.mp hT
  refine (Achieves.rebuild h₀ h' hid (by rwa [List.length_cons] at hfree')).mono ?_ fun _ hE => hE
  rintro - s'' ⟨h'', hfree''⟩
  exact ⟨h'', hT, hfree''⟩

/-- The nodes of the lower variable are looked through. -/
theorem Achieves.reclaim_all (h₀ : s₀.Sound) (h : Rebuilding s₀ s rank x y [] []) :
    Achieves s (Reordering.takeAll y >>= fun ids => ids.forM Reordering.reclaim)
      (fun _ s' => Rebuilt s₀ s' rank) E := by
  refine (Achieves.takeAll h.coherent.table h.coherent.roomy
    (h.coherent.regions ▸ h.amid.lower_lt)).bind ?_
  rintro L s₁ ⟨hnodup, hL, table, rfl, hsize, htable, hroomy⟩
  have hreclaim : Reclaiming s₀ { s with table } rank y L :=
    .start h₀ h hnodup hL hsize hroomy htable
  refine (Achieves.forM (I := fun L s' => Reclaiming s₀ s' rank y L) hreclaim
    fun id rest s' h' => Achieves.reclaim h').mono ?_ fun _ hE => hE
  rintro - s' h'
  refine ⟨h'.frame, h'.coherent.setTable rfl h'.coherent.roomy ?_, ?_,
    fun hsome => h'.referred hsome (by simp), h'.saturated, h'.value⟩
  · exact h'.coherent.table.congr fun j => by simp
  · rw [← h'.frame.varNum]
    exact h'.reduced

theorem Achieves.swapNodes (h : s.Sound)
    (ex : Diagram.Exchanged s.rank rank s.manager.varNum x y) :
    Achieves s (swapNodes x y) (fun _ s' => Rebuilt s s' rank) (Starved s x) := by
  refine (Achieves.varSize h.table (h.regions ▸ ex.upper_lt)).bind ?_
  rintro n s' ⟨hs', hn, hcount⟩
  obtain rfl := hs'.symm
  refine ((Achieves.reserve h.store (2 * n)).self.mono (fun _ _ hQ => hQ)
    fun s₁ hE => ⟨hE.1, n, hn, hE.2⟩).bind ?_
  rintro - s₁ ⟨hroom, hs₁, hfree⟩
  have h₁ := hroom.coherent h.toCoherent
  have hvar : s₁.manager.varNum = s.manager.varNum := hroom.frame.varNum
  have hred : s₁.diagram.Reduced s.rank s₁.manager.varNum := by
    rw [hroom.diagram, hvar]
    exact h.reduced
  refine (Achieves.takeAll h₁.table h₁.roomy (h₁.regions ▸ hvar ▸ ex.upper_lt)).bind ?_
  rintro ids s₂ ⟨hnodup, hids, table, rfl, hsize, htable, hroomy⟩
  have hsome : ∀ id ∈ ids, (s₁.diagram id).isSome = true := fun id hid => ((hids id).mp hid).1.1
  obtain ⟨dependent, others, hdivide, hd⟩ := exists_division h₁ hred hnodup hsome y
  refine .expect hdivide ?_
  have hothers : ∀ id ∈ others, id ∈ ids := fun id hid => ((hd.mem_others id).mp hid).1
  refine (Achieves.index_all (s := { s₁ with table }) hs₁ hred.unique htable hroomy
    (fun j hj => hj.1.1) (fun id hid => ?_) hd.others_nodup
    fun id hid hP => hP.2 (hothers id hid)).bind ?_
  · obtain ⟨m, hm⟩ := Option.isSome_iff_exists.mp (hsome id (hothers id hid))
    exact ⟨m, hm, (hsize.trans h₁.regions) ▸ hred.label_lt hm⟩
  rintro - s₂ ⟨table', rfl, hsize', htable', hroomy'⟩
  -- All nodes of the variable were counted before there was room for the new ones.
  have hlen : ids.length ≤ n := by
    refine hcount ids hnodup fun id hid => ?_
    obtain ⟨m, hm, hx⟩ := (labelled_iff (hsome id hid)).mp ((hids id).mp hid).2
    rw [hroom.diagram] at hm
    exact ⟨⟨by rw [hm]; rfl, not_false⟩, m, Store.nodes_of_diagram hm, hx⟩
  have hdependent := hd.length_le
  have hstart := Rebuilding.start h ex hroom hids hd (hsize'.trans hsize) hroomy' htable'
  refine (Achieves.rebuild_all h hstart hd.dependent_nodup ?_).bind fun _ s₃ h₃ =>
    Achieves.reclaim_all h h₃
  show 2 * dependent.length ≤ s₁.manager.store.freeCount
  omega

/-! ### One exchange -/

/-- What every step of the work in a session achieves.  A node whose count is saturated stays, and so
do its values. -/
structure Advances (s s' : Session) : Prop where
  sound : s'.Sound
  keeps : s.Keeps s'
  saturated : ∀ {j}, s.Saturated j → s'.Saturated j
  constant : ∀ {j a b}, s.Saturated j → s.diagram.Eval a j b → s'.diagram.Eval a j b

theorem Advances.refl (h : s.Sound) : Advances s s := ⟨h, .refl s, fun hj => hj, fun _ hb => hb⟩

theorem Advances.trans {s' s'' : Session} (h : Advances s s') (h' : Advances s' s'') :
    Advances s s'' :=
  ⟨h'.sound, h.keeps.trans h'.keeps, fun hj => h'.saturated (h.saturated hj),
    fun hj hb => h'.constant (h.saturated hj) (h.constant hj hb)⟩

theorem keeps_of_frame {s' : Session} (hf : s.SameFrame s')
    (hvalue : ∀ {id a b}, s.manager.Rooted id → s.diagram.Eval a id b → s'.diagram.Eval a id b) :
    s.Keeps s' := by
  have hm := hf.manager
  have hcarried : Pairings.Carried s.manager.order s.manager.pairings s'.manager.order
      s'.manager.pairings := by
    rw [hm]
    exact .refl _ _
  refine ⟨?_, ?_, ?_, ?_, ?_, ?_, ?_, ?_, fun id => ?_, hcarried, hf.varNum, hvalue⟩ <;> rw [hm]

/-- More room does no harm. -/
theorem Roomier.advances {s' : Session} (hr : Roomier s s') (h : s.Sound) : Advances s s' := by
  have hm := hr.manager
  have hrank : s'.rank = s.rank := by
    funext v
    rw [Session.rank, hm]
    rfl
  refine ⟨⟨hr.coherent h.toCoherent, ?_, ?_, fun hsome => ?_, ?_, fun hp a => ?_, ?_, ?_⟩,
    keeps_of_frame hr.frame fun _ hb => hr.diagram ▸ hb, hr.saturated, fun _ hb => hr.diagram ▸ hb⟩
  · rw [hm]
    exact h.order
  · rw [hr.diagram, hrank, hr.frame.varNum]
    exact h.reduced
  · rw [hr.diagram] at hsome
    rw [hr.refs]
    exact h.referred hsome
  · rw [hr.frame.varNum, hm]
    exact h.literals_size
  · rw [hm] at hp
    rw [hr.diagram]
    exact h.literals hp a
  · rw [hr.frame.varNum, hm]
    exact h.pairings
  · rw [hm]
    exact h.error

/-- What an exchange achieves besides: all nodes that stay live keep their values.  It is counted, if
it takes place. -/
structure Swaps (s s' : Session) : Prop extends Advances s s' where
  value : ∀ {a id b}, s'.diagram.Live id → s.diagram.Eval a id b → s'.diagram.Eval a id b
  swaps : s'.swaps = s.swaps + if s'.manager.order = s.manager.order then 0 else 1

theorem Swaps.refl (h : s.Sound) : Swaps s s := ⟨.refl h, fun _ hb => hb, by rw [if_pos rfl]; rfl⟩

theorem exchanged (h : s.Sound) {level : Level} (hx : s.manager.order.varAt[level]? = some x)
    (hy : s.manager.order.varAt[level + 1]? = some y) :
    Diagram.Exchanged s.rank
      (fun v => (s.manager.order.exchange level x y).levelOf.getD v 0) s.manager.varNum x y := by
  have hlx := h.order.levelOf_varAt hx
  have hly := h.order.levelOf_varAt hy
  have hlt : ∀ {v : Var} {l : Level}, s.manager.order.levelOf[v]? = some l →
      v < s.manager.varNum := fun hl => by
    rw [Manager.varNum, VarOrder.size, ← h.order.size]
    exact (Array.getElem?_eq_some_iff.mp hl).1
  have hne : x ≠ y := by
    rintro rfl
    have := Option.some.inj (hlx.symm.trans hly)
    lia
  refine ⟨hlt hlx, hlt hly, by rw [Session.rank_eq hlx, Session.rank_eq hly], ?_, ?_, fun hvx hvy => ?_,
    fun hv hw heq => h.rank_injective _ _ hv hw heq⟩
  · rw [Array.getD_eq_getD_getElem?, h.order.levelOf_exchange hx hy, if_pos rfl, Session.rank_eq hlx]
    rfl
  · rw [Array.getD_eq_getD_getElem?, h.order.levelOf_exchange hx hy, if_neg hne, if_pos rfl,
      Session.rank_eq hlx]
    rfl
  · rw [Array.getD_eq_getD_getElem?, h.order.levelOf_exchange hx hy, if_neg hvy, if_neg hvx,
      Session.rank, Array.getD_eq_getD_getElem?]

/-- Two variables that do not interact change places without a change of any node. -/
theorem Rebuilt.refl (h : s.Sound) (ex : Diagram.Exchanged s.rank rank s.manager.varNum x y)
    (hn : interacts s x y = false) : Rebuilt s s rank := by
  refine ⟨.refl s, h.toCoherent, (h.reduced.amid ex).reduced fun id hD => ?_, h.referred,
    fun hj => hj, fun _ hb => hb⟩
  obtain ⟨n, hn₁, hx, b, m, hm, hy⟩ := hD
  have hR : Interact s.interactions x y :=
    h.cliques id x y (.here hn₁ hx) (.child b hn₁ (.here hm hy))
  rw [show interacts s x y = true from hR] at hn
  cases hn

/-- The order and the pairings follow the nodes. -/
theorem Rebuilt.exchange {s' : Session} (h : s.Sound) {level : Level}
    (hx : s.manager.order.varAt[level]? = some x)
    (hy : s.manager.order.varAt[level + 1]? = some y)
    (h' : Rebuilt s s' fun v => (s.manager.order.exchange level x y).levelOf.getD v 0) :
    Swaps s { s' with
      manager := { s'.manager with
        order := s'.manager.order.exchange level x y
        pairings := s'.manager.pairings.swapDown level }
      swaps := s'.swaps + 1 } := by
  have hm := h'.frame.manager
  have horder : s'.manager.order = s.manager.order := by rw [hm]
  have hpairings : s'.manager.pairings = s.manager.pairings := by rw [hm]
  have hvar : (s.manager.order.exchange level x y).size = s.manager.varNum :=
    VarOrder.size_exchange _ _ _ _
  have hlt : level + 1 < s.manager.varNum := (Array.getElem?_eq_some_iff.mp hy).1
  have hvalue : ∀ {id a b}, s.manager.Rooted id → s.diagram.Eval a id b →
      s'.diagram.Eval a id b := fun hid hb =>
    h'.value (h'.coherent.rooted (h'.frame.rooted.mpr hid)) hb
  -- The names of nodes are the same.
  have hrooted : ∀ {id}, Manager.Rooted { s'.manager with
      order := s'.manager.order.exchange level x y
      pairings := s'.manager.pairings.swapDown level } id ↔ s'.manager.Rooted id := by
    intro id
    rw [Manager.Rooted, Manager.Rooted, Pairings.mem_nodes_swapDown]
  rw [horder, hpairings] at hrooted ⊢
  have hswaps : s'.swaps + 1 =
      s.swaps + if s.manager.order.exchange level x y = s.manager.order then 0 else 1 := by
    rw [if_neg (h.order.exchange_ne hx hy), h'.frame.swaps]
  refine ⟨⟨⟨⟨h'.coherent.store, ?_, h'.coherent.table, ?_, h'.coherent.roomy,
    h'.coherent.refs_size, h'.coherent.counted, fun id hid => ?_,
    fun hid => h'.coherent.rooted (hrooted.mp hid), h'.coherent.cliques⟩,
    h.order.exchange hx hy, ?_, h'.referred, ?_, fun {v p} hp a => ?_, ?_, ?_⟩,
    ⟨?_, ?_, ?_, ?_, ?_, ?_, ?_, ?_, fun id => ?_,
      .exchange h.order h.pairings hx hy, hvar, hvalue⟩,
    h'.saturated, fun hj hb => h'.value (h'.saturated hj).1 hb⟩, h'.value, hswaps⟩
  · show s'.manager.store.TerminalsAt (s.manager.order.exchange level x y).size
    rw [hvar, ← h'.frame.varNum]
    exact h'.coherent.terminals
  · show _ = (s.manager.order.exchange level x y).size
    rw [hvar, ← h'.frame.varNum]
    exact h'.coherent.regions
  · refine h'.coherent.pinned id (Manager.mem_rootNodes.mpr ?_)
    obtain ⟨ht, hid⟩ := Manager.mem_rootNodes.mp hid
    exact ⟨ht, hrooted.mp hid⟩
  · show s'.diagram.Reduced _ (s.manager.order.exchange level x y).size
    rw [hvar]
    exact h'.reduced
  · show s'.manager.literals.size = (s.manager.order.exchange level x y).size
    rw [hvar, hm]
    exact h.literals_size
  · have hp : s.manager.literals[v]? = some p := by
      rw [show s.manager.literals = s'.manager.literals by rw [hm]]
      exact hp
    obtain ⟨hpos, hneg⟩ := Manager.named_literal hp
    exact ⟨hvalue hpos.rooted (h.literals hp a).1, hvalue hneg.rooted (h.literals hp a).2⟩
  · show (s.manager.pairings.swapDown level).Fits (s.manager.order.exchange level x y).size
    rw [hvar]
    exact h.pairings.swapDown hlt
  · show s'.manager.error = none ∨ s'.manager.error = some .nodeLimit
    rw [hm]
    exact h.error
  all_goals first | exact Pairings.mem_nodes_swapDown level | rw [hm]

/-- A variable of the order can be moved, unless there is no room for the new nodes. -/
theorem Achieves.vardown (h : s.Sound) {v : Var} {level : Level}
    (hl : s.manager.order.levelOf[v]? = some level) :
    Achieves s (vardown v)
      (fun _ s' => Swaps s s' ∧ VarOrder.Lowers s.manager.order v s'.manager.order)
      (Starved s v) := by
  refine .expect hl (.get ?_)
  have hx := h.order.varAt_levelOf hl
  have hlt : level < s.manager.varNum := (Array.getElem?_eq_some_iff.mp hx).1
  split
  · rename_i hbelow
    obtain ⟨w, hy⟩ : ∃ w, s.manager.order.varAt[level + 1]? = some w :=
      ⟨_, Array.getElem?_eq_getElem hbelow⟩
    refine .expect hy (.get ?_)
    have ex := exchanged h hx hy
    -- The order is exchanged after the nodes were rebuilt, or at once if none has to be.
    have place : ∀ {s'}, Rebuilt s s'
        (fun u => (s.manager.order.exchange level v w).levelOf.getD u 0) →
        Swaps s { s' with
          manager := { s'.manager with
            order := s'.manager.order.exchange level v w
            pairings := s'.manager.pairings.swapDown level }
          swaps := s'.swaps + 1 } ∧
        VarOrder.Lowers s.manager.order v (s'.manager.order.exchange level v w) := by
      intro s' h'
      refine ⟨h'.exchange h hx hy, ?_⟩
      rw [show s'.manager.order = s.manager.order by rw [h'.frame.manager]]
      exact .exchange hx hy
    split
    · refine (Achieves.swapNodes h ex).bind ?_
      rintro - s' h'
      exact place h'
    · rename_i hn
      exact place (Rebuilt.refl h ex (Bool.eq_false_iff.mpr hn))
  · rename_i hnot
    have hbottom : level + 1 = s.manager.varNum := by lia
    exact ⟨.refl h, .stay hl hbottom⟩

theorem Ensures.vardown (h : s.Sound) (v : Var) :
    Ensures s (vardown v)
      (fun _ s' => Swaps s s' ∧ VarOrder.Lowers s.manager.order v s'.manager.order)
      (fun s' => Advances s s' ∧ s'.manager.order = s.manager.order) := by
  rcases hl : s.manager.order.levelOf[v]? with _ | level
  · refine Ensures.expect fun level hlevel => ?_
    rw [hl] at hlevel
    cases hlevel
  · exact ((Achieves.vardown h hl).mono (fun _ _ hQ => hQ)
      fun s' hE => ⟨hE.roomier.advances h, by rw [hE.roomier.manager]⟩).ensures

theorem Ensures.varup (h : s.Sound) (v : Var) :
    Ensures s (varup v)
      (fun _ s' => Swaps s s' ∧ VarOrder.Raises s.manager.order v s'.manager.order)
      (fun s' => Advances s s' ∧ s'.manager.order = s.manager.order) := by
  refine Ensures.expect fun level hl => ?_
  split
  · exact ⟨.refl h, .stay hl⟩
  · rename_i level
    refine Ensures.expect fun w hw => ?_
    refine (Ensures.vardown h w).mono ?_ fun _ hE => hE
    rintro - s' ⟨hs', hlow⟩
    exact ⟨hs', hlow.raises h.order hl hw⟩

end DecisionDiagram.Reordering
