/-
The rules for work in a session.

`Reordering.Achieves` is the specification of a piece of work: it ends with a result, and the result
and the session satisfy the first postcondition, or it ends because the store cannot grow, and the
session satisfies the second one.  There is no other error, and there is an answer.
`Reordering.Ensures` says the same of the answer, if there is one.

* `Achieves.index` — a node is put into the table;
* `Achieves.takeAll` — the nodes of a variable are taken out;
* `Achieves.reserve` — there is room for as many nodes as were asked for, and nothing else changed;
* `exists_divide?`, `divide?_spec` — which nodes have to be rebuilt.
-/
import DecisionDiagram.Proofs.Reorder.Session
import DecisionDiagram.Reorder.Swap

namespace DecisionDiagram.Reordering

variable {α β : Type} {s s' : Session} {Q R : α → Session → Prop} {E F : Session → Prop}

/-- The work `x`, done in `s`, has no answer, or one that satisfies `Q` with the session after it, or
ends with an exhausted store in a session that satisfies `E`. -/
def Ensures (s : Session) (x : Reordering α) (Q : α → Session → Prop) (E : Session → Prop) : Prop :=
  match x s with
  | .ok a s' => Q a s'
  | .error .fault _ => True
  | .error (.error e) s' => e = .nodeLimit ∧ E s'

/-- The work `x`, done in `s`, ends with an answer that satisfies `Q` with the session after it, or
with an exhausted store in a session that satisfies `E`. -/
def Achieves (s : Session) (x : Reordering α) (Q : α → Session → Prop) (E : Session → Prop) : Prop :=
  match x s with
  | .ok a s' => Q a s'
  | .error .fault _ => False
  | .error (.error e) s' => e = .nodeLimit ∧ E s'

/-! ### Rules -/

theorem run_bind {x : Reordering α} {a : α} (h : x s = .ok a s') (f : α → Reordering β) :
    (x >>= f) s = f a s' := by
  show EStateM.bind x f s = _
  rw [EStateM.bind, h]

theorem run_bind_error {x : Reordering α} {e : Failure} (h : x s = .error e s')
    (f : α → Reordering β) : (x >>= f) s = .error e s' := by
  show EStateM.bind x f s = _
  rw [EStateM.bind, h]

theorem run_expect {f : Session → Option α} {a : α} (h : f s = some a) :
    Reordering.expect f s = .ok a s := by
  rw [Reordering.expect, h]

theorem run_expect_none {f : Session → Option α} (h : f s = none) :
    Reordering.expect f s = .error .fault s := by
  rw [Reordering.expect, h]

theorem Ensures.congr {x y : Reordering α} (h : Ensures s' y Q E) (hxy : x s = y s') :
    Ensures s x Q E := by
  rw [Ensures, hxy]
  exact h

theorem Ensures.pure {a : α} (h : Q a s) : Ensures s (Pure.pure a) Q E := h

theorem Ensures.fault : Ensures s (Reordering.fault : Reordering α) Q E := trivial

theorem Ensures.bind {x : Reordering α} {f : α → Reordering β} {R : β → Session → Prop}
    (h : Ensures s x Q E) (hf : ∀ a s', Q a s' → Ensures s' (f a) R E) :
    Ensures s (x >>= f) R E := by
  rcases hx : x s with ⟨a, s'⟩ | ⟨e, s'⟩
  · rw [Ensures, hx] at h
    exact (hf a s' h).congr (run_bind hx f)
  · rw [Ensures, hx] at h
    rw [Ensures, run_bind_error hx f]
    rcases e with e | _
    · exact h
    · trivial

theorem Ensures.mono {x : Reordering α} (h : Ensures s x Q E) (hQ : ∀ a s', Q a s' → R a s')
    (hE : ∀ s', E s' → F s') : Ensures s x R F := by
  rcases hx : x s with ⟨a, s'⟩ | ⟨e | _, s'⟩ <;> rw [Ensures, hx] at h ⊢
  · exact hQ a s' h
  · exact ⟨h.1, hE s' h.2⟩
  · trivial

theorem Ensures.get {k : Session → Reordering β} {Q : β → Session → Prop}
    (h : Ensures s (k s) Q E) : Ensures s (MonadState.get >>= k) Q E := h.congr rfl

theorem Ensures.expect {f : Session → Option α} {k : α → Reordering β} {Q : β → Session → Prop}
    (h : ∀ a, f s = some a → Ensures s (k a) Q E) :
    Ensures s (Reordering.expect f >>= k) Q E := by
  rcases hf : f s with _ | a
  · rw [Ensures, run_bind_error (run_expect_none hf) k]
    trivial
  · exact (h a hf).congr (run_bind (run_expect hf) k)

theorem Achieves.ensures {x : Reordering α} (h : Achieves s x Q E) : Ensures s x Q E := by
  rcases hx : x s with ⟨a, s'⟩ | ⟨e | _, s'⟩ <;> rw [Achieves, hx] at h <;> rw [Ensures, hx]
  · exact h
  · exact h
  · trivial

/-- The two ways in which the work can end. -/
theorem Achieves.cases {x : Reordering α} (h : Achieves s x Q E) :
    (∃ a s', x s = .ok a s' ∧ Q a s') ∨ ∃ s', x s = .error (.error .nodeLimit) s' ∧ E s' := by
  rcases hx : x s with ⟨a, s'⟩ | ⟨e | _, s'⟩ <;> rw [Achieves, hx] at h
  · exact .inl ⟨a, s', rfl, h⟩
  · obtain ⟨rfl, hE⟩ := h
    exact .inr ⟨s', rfl, hE⟩
  · exact h.elim

theorem Achieves.of_ok {x : Reordering α} {a : α} (h : x s = .ok a s') (hQ : Q a s') :
    Achieves s x Q E := by
  rw [Achieves, h]
  exact hQ

theorem Achieves.of_nodeLimit {x : Reordering α} (h : x s = .error (.error .nodeLimit) s')
    (hE : E s') : Achieves s x Q E := by
  rw [Achieves, h]
  exact ⟨rfl, hE⟩

theorem Achieves.congr {x y : Reordering α} (h : Achieves s' y Q E) (hxy : x s = y s') :
    Achieves s x Q E := by
  rw [Achieves, hxy]
  exact h

theorem Achieves.pure {a : α} (h : Q a s) : Achieves s (Pure.pure a) Q E := h

theorem Achieves.bind {x : Reordering α} {f : α → Reordering β} {R : β → Session → Prop}
    (h : Achieves s x Q E) (hf : ∀ a s', Q a s' → Achieves s' (f a) R E) :
    Achieves s (x >>= f) R E := by
  rcases h.cases with ⟨a, s', hx, hQ⟩ | ⟨s', hx, hE⟩
  · exact (hf a s' hQ).congr (run_bind hx f)
  · exact .of_nodeLimit (run_bind_error hx f) hE

theorem Achieves.mono {x : Reordering α} (h : Achieves s x Q E) (hQ : ∀ a s', Q a s' → R a s')
    (hE : ∀ s', E s' → F s') : Achieves s x R F := by
  rcases h.cases with ⟨a, s', hx, h⟩ | ⟨s', hx, h⟩
  · exact .of_ok hx (hQ a s' h)
  · exact .of_nodeLimit hx (hE s' h)

/-- The session after a failure is the one in which the work left it. -/
theorem Achieves.self {x : Reordering α} (h : Achieves s x Q E) :
    Achieves s x Q fun s' => E s' ∧ x s = .error (.error .nodeLimit) s' := by
  rcases h.cases with ⟨a, s', hx, h⟩ | ⟨s', hx, h⟩
  · exact .of_ok hx h
  · exact .of_nodeLimit hx ⟨h, hx⟩

theorem Achieves.get {k : Session → Reordering β} {Q : β → Session → Prop}
    (h : Achieves s (k s) Q E) : Achieves s (MonadState.get >>= k) Q E := h.congr rfl

theorem Achieves.update {f : Session → Session} {k : Unit → Reordering β} {Q : β → Session → Prop}
    (h : Achieves (f s) (k ()) Q E) : Achieves s ((modify f : Reordering Unit) >>= k) Q E :=
  h.congr rfl

theorem Achieves.expect {f : Session → Option α} {a : α} {k : α → Reordering β}
    {Q : β → Session → Prop} (hf : f s = some a) (h : Achieves s (k a) Q E) :
    Achieves s (Reordering.expect f >>= k) Q E :=
  h.congr (run_bind (run_expect hf) k)

/-- Work on the members of a list in turn.  The invariant depends on what is left of the list. -/
theorem Achieves.forM {f : α → Reordering Unit} {I : List α → Session → Prop} {l : List α}
    (h : I l s)
    (step : ∀ a rest s', I (a :: rest) s' → Achieves s' (f a) (fun _ s'' => I rest s'') E) :
    Achieves s (l.forM f) (fun _ s' => I [] s') E := by
  induction l generalizing s with
  | nil => exact .pure h
  | cons a l ih =>
    rw [List.forM_eq_forM, List.forM_cons]
    exact (step a l s h).bind fun _ s' hs' => ih hs'

/-! ### The table -/

/-- Nothing but the table changes, which holds the nodes of `P` afterwards. -/
def Files (s : Session) (P : NodeId → Prop) (s' : Session) : Prop :=
  ∃ table : LevelTable, s' = { s with table } ∧ table.regions.size = s.table.regions.size ∧
    table.Holds s.manager.store.nodes P ∧ table.Roomy

/-- A node that is not in the table is put into its region. -/
theorem Achieves.index {P : NodeId → Prop} {id : NodeId} {n : Node} (hs : s.manager.store.Valid)
    (hd : s.manager.store.Distinct) (ht : s.table.Holds s.manager.store.nodes P)
    (hroomy : s.table.Roomy) (hP : ∀ j, P j → (s.diagram j).isSome = true)
    (hn : s.diagram id = some n) (hlt : n.level < s.table.regions.size) (new : ¬ P id) :
    Achieves s (index id) (fun _ s' => Files s (fun j => j = id ∨ P j) s') E := by
  have hnode := Store.nodes_of_diagram hn
  refine .expect hnode (.get ?_)
  obtain ⟨t, hmake, hsize, ht', hroomy', hadmits⟩ := ht.exists_makeRoom hroomy
    (fun j hj => (ht.lt_size hj).trans (hs.arena ▸ hs.small)) (hd.on hP) n.level
  obtain ⟨slot, hslot⟩ := ht'.exists_vacancy? hroomy' hnode (hsize ▸ hlt) fun j hj hjn =>
    new (hd (Store.diagram_of_isSome (hP j hj) hjn) hn ▸ hj)
  -- After the table has made room, the node goes into the vacancy of its region.
  have place : Achieves { s with table := t }
      ((Reordering.expect fun s => s.table.vacancy? s.manager.store.nodes id) >>= fun p =>
        (modify fun s => { s with table := s.table.insertAt p.2 p.1 id } : Reordering Unit))
      (fun _ s' => Files s (fun j => j = id ∨ P j) s') E := by
    refine .expect hslot ⟨_, rfl, ?_, (ht'.insertAt (Store.ne_zero_of_diagram hn) hslot).2,
      hadmits.insertAt hroomy' slot id⟩
    rw [LevelTable.size_regions_insertAt]
    exact hsize
  dsimp only
  split
  · rename_i hcrowded
    rw [LevelTable.makeRoom?, if_pos hcrowded] at hmake
    exact .expect hmake (.update place)
  · rename_i hcrowded
    rw [LevelTable.makeRoom?, if_neg hcrowded] at hmake
    obtain rfl := Option.some.inj hmake
    exact place

theorem Achieves.index_all {P : NodeId → Prop} {ids : List NodeId} (hs : s.manager.store.Valid)
    (hd : s.manager.store.Distinct) (ht : s.table.Holds s.manager.store.nodes P)
    (hroomy : s.table.Roomy) (hP : ∀ j, P j → (s.diagram j).isSome = true)
    (hids : ∀ id ∈ ids, ∃ n, s.diagram id = some n ∧ n.level < s.table.regions.size)
    (hnodup : ids.Nodup) (new : ∀ id ∈ ids, ¬ P id) :
    Achieves s (ids.forM Reordering.index) (fun _ s' => Files s (fun j => j ∈ ids ∨ P j) s') E := by
  -- The set `P` collects the nodes that are in the table so far.
  induction ids generalizing s P with
  | nil => exact .pure ⟨s.table, rfl, rfl, ht.congr fun j => by simp, hroomy⟩
  | cons id ids ih =>
    obtain ⟨hid, hnodup⟩ := List.nodup_cons.mp hnodup
    obtain ⟨n, hn, hlt⟩ := hids id List.mem_cons_self
    rw [List.forM_eq_forM, List.forM_cons]
    refine (Achieves.index hs hd ht hroomy hP hn hlt (new id List.mem_cons_self)).bind ?_
    rintro - s' ⟨t, rfl, hsize, ht', hroomy'⟩
    refine (ih (s := { s with table := t }) hs hd ht' hroomy' (fun j hj => ?_) (fun j hj => ?_)
      hnodup fun j hj hjP => ?_).mono ?_ fun _ hE => hE
    · rcases hj with rfl | hj
      · exact Option.isSome_iff_exists.mpr ⟨n, hn⟩
      · exact hP j hj
    · rw [hsize]
      exact hids j (List.mem_cons_of_mem _ hj)
    · rcases hjP with rfl | hjP
      · exact hid hj
      · exact new j (List.mem_cons_of_mem _ hj) hjP
    · rintro - s' ⟨t', rfl, hsize', ht'', hroomy''⟩
      refine ⟨t', rfl, hsize'.trans hsize, ht''.congr fun j => ?_, hroomy''⟩
      rw [List.mem_cons]
      tauto

/-- The nodes of a variable are taken out of the table. -/
theorem Achieves.takeAll {P : NodeId → Prop} {v : Var}
    (ht : s.table.Holds s.manager.store.nodes P) (hroomy : s.table.Roomy)
    (hv : v < s.table.regions.size) :
    Achieves s (takeAll v) (fun ids s' => ids.Nodup ∧
      (∀ id, id ∈ ids ↔ P id ∧ Labelled s.manager.store.nodes v id) ∧
      Files s (fun id => P id ∧ id ∉ ids) s') E := by
  have hr := Array.getElem?_eq_getElem hv
  refine .expect hr (.get (.update (.pure ?_)))
  have hmem : ∀ id, id ∈ s.table.members s.table.regions[v] ↔
      P id ∧ Labelled s.manager.store.nodes v id := fun id => ht.mem_members hr
  refine ⟨ht.members_nodup hr, hmem, _, rfl, LevelTable.size_regions_clear _ _ _,
    (ht.clear hr).congr fun id => ?_, hroomy.clear _ _⟩
  rw [hmem]
  tauto

theorem Achieves.varSize {P : NodeId → Prop} {v : Var}
    (ht : s.table.Holds s.manager.store.nodes P) (hv : v < s.table.regions.size) :
    Achieves s (varSize v) (fun n s' => s' = s ∧ s.table.count? v = some n ∧
      ∀ ids : List NodeId, ids.Nodup →
        (∀ id ∈ ids, P id ∧ Labelled s.manager.store.nodes v id) → ids.length ≤ n) E := by
  have hr := Array.getElem?_eq_getElem hv
  have hn : s.table.count? v = some s.table.regions[v].count := by
    rw [LevelTable.count?, hr]
    rfl
  refine .of_ok (run_expect hn) ⟨rfl, hn, fun ids hnodup hids => ?_⟩
  obtain ⟨l, -, hl, hlen⟩ := ht.count hr
  rw [hlen]
  exact (List.subperm_of_subset hnodup fun id hid => (hl id).mpr (hids id hid)).length_le

/-! ### Room -/

/-- What a growth step leaves as it is: all but the number of slots and the number of such steps. -/
structure Roomier (s s' : Session) : Prop where
  manager : s'.manager = { s.manager with
    store := s'.manager.store,
    counters := { s.manager.counters with growths := s'.manager.counters.growths } }
  growths : s.manager.counters.growths ≤ s'.manager.counters.growths
  table : s'.table = s.table
  interactions : s'.interactions = s.interactions
  swaps : s'.swaps = s.swaps
  initialSize : s'.initialSize = s.initialSize
  refs : ∀ j, s'.refs.getD j 0 = s.refs.getD j 0
  record : ∀ {id n}, s.manager.store.node? id = some n → s'.manager.store.node? id = some n
  live : s'.manager.store.isLive = s.manager.store.isLive
  diagram : s'.diagram = s.diagram
  capacity : s.manager.store.capacity ≤ s'.manager.store.capacity
  free : s.manager.store.freeCount ≤ s'.manager.store.freeCount
  coherent : ∀ {out held}, s.Coherent out held → s'.Coherent out held

theorem Roomier.refl (s : Session) : Roomier s s :=
  ⟨rfl, Nat.le_refl _, rfl, rfl, rfl, rfl, fun _ => rfl, fun h => h, rfl, rfl, Nat.le_refl _,
    Nat.le_refl _, fun h => h⟩

theorem Roomier.trans {s'' : Session} (h : Roomier s s') (h' : Roomier s' s'') : Roomier s s'' where
  manager := by
    rw [h'.manager, h.manager]
  growths := Nat.le_trans h.growths h'.growths
  table := h'.table.trans h.table
  interactions := h'.interactions.trans h.interactions
  swaps := h'.swaps.trans h.swaps
  initialSize := h'.initialSize.trans h.initialSize
  refs j := (h'.refs j).trans (h.refs j)
  record hn := h'.record (h.record hn)
  live := h'.live.trans h.live
  diagram := h'.diagram.trans h.diagram
  capacity := Nat.le_trans h.capacity h'.capacity
  free := Nat.le_trans h.free h'.free
  coherent hc := h'.coherent (h.coherent hc)

theorem getD_append_zero (refs : Array Nat) (n j : Nat) :
    (refs ++ Array.replicate n 0).getD j 0 = refs.getD j 0 := by
  rw [Array.getD_eq_getD_getElem?, Array.getD_eq_getD_getElem?, Array.getElem?_append]
  split
  · rfl
  · rename_i hj
    rw [Array.getElem?_eq_none (Nat.le_of_not_lt hj), Array.getElem?_replicate]
    split <;> rfl

/-- A growth step adds at least one slot. -/
theorem Achieves.grow (hs : s.manager.store.Valid) :
    Achieves s grow (fun _ s' => Roomier s s' ∧ s'.manager.store.Valid ∧
      s.manager.store.freeCount < s'.manager.store.freeCount) (fun s' => s' = s) := by
  refine .get ?_
  rcases hcap : s.manager.nextCapacity? with _ | capacity
  · exact ⟨rfl, rfl⟩
  · obtain ⟨hlt, hsmall⟩ := Manager.nextCapacity?_spec hs.small hcap
    have hdiagram : (s.manager.store.grow capacity).diagram = s.diagram := hs.diagram_grow capacity
    have hfree := Store.freeCount_grow hs hlt
    have hfree' : s.manager.store.freeCount < (s.manager.store.grow capacity).freeCount := by omega
    have hcapacity := Store.capacity_grow hs hlt
    have hle : s.manager.store.capacity ≤ (s.manager.store.grow capacity).capacity := by omega
    refine ⟨⟨rfl, Nat.le_succ _, rfl, rfl, rfl, rfl, getD_append_zero _ _, fun {id n} hn => ?_,
      funext (hs.isLive_grow capacity), hdiagram, hle,
      Nat.le_of_lt hfree', ?_⟩, hs.grow hlt hsmall, hfree'⟩
    · exact (Store.node?_grow (Array.getElem?_eq_some_iff.mp hn).1 capacity).trans hn
    -- New slots have no record and no references, so the session is as coherent as before.
    intro out held h
    have hsize : (s.refs ++ Array.replicate (capacity - s.refs.size) 0).size = capacity := by
      rw [Array.size_append, Array.size_replicate, h.refs_size]
      omega
    refine ⟨hs.grow hlt hsmall, h.terminals.grow capacity, ?_, h.regions, h.roomy, ?_, ?_, ?_, ?_,
      ?_⟩
    · show s.table.Holds (s.manager.store.grow capacity).nodes fun id =>
        ((s.manager.store.grow capacity).diagram id).isSome = true ∧ ¬ out id
      rw [hdiagram]
      refine h.table.congr_nodes fun id hid => ?_
      refine Store.node?_grow ?_ capacity
      rw [hs.arena]
      exact hs.lt_of_isSome hid.1
    · exact hsize.trans hcapacity.symm
    · intro j
      show (s.refs ++ _).getD j 0 = _ ∨
        (s.refs ++ _).getD j 0 =
          (s.manager.store.grow capacity).diagram.indegree (s.refs ++ _).size j + _
      rw [hdiagram, hsize, getD_append_zero,
        Diagram.indegree_extend (show s.refs.size ≤ capacity by rw [h.refs_size]; omega)]
      · exact h.counted j
      · intro p hp
        rw [Option.eq_none_iff_forall_ne_some]
        intro n hn
        have hsome : (s.manager.store.diagram p).isSome = true := by
          rw [show s.manager.store.diagram p = _ from hn]
          rfl
        have := hs.lt_of_isSome hsome
        rw [h.refs_size] at hp
        lia
    · intro id hid
      show (s.refs ++ _).getD id 0 = _
      rw [getD_append_zero]
      exact h.pinned id hid
    · intro id hid
      show (s.manager.store.grow capacity).diagram.Live id
      rw [hdiagram]
      exact h.rooted hid
    · show (s.manager.store.grow capacity).diagram.Cliques _
      rw [hdiagram]
      exact h.cliques

theorem Achieves.reserveWithin {n needed : Nat} (hs : s.manager.store.Valid)
    (hn : needed ≤ s.manager.store.freeCount + n) :
    Achieves s (reserveWithin n needed) (fun _ s' => Roomier s s' ∧ s'.manager.store.Valid ∧
      needed ≤ s'.manager.store.freeCount) (fun s' => Roomier s s') := by
  induction n generalizing s with
  | zero => exact .pure ⟨.refl s, hs, by omega⟩
  | succ n ih =>
    refine .get ?_
    by_cases hless : s.manager.store.freeCount < needed
    · rw [if_pos hless]
      refine ((Achieves.grow hs).mono (fun _ _ h => h) (F := fun s' => Roomier s s') ?_).bind ?_
      · rintro s' rfl
        exact .refl s'
      · rintro - s' ⟨hroom, hs', hfree⟩
        refine (ih hs' (by omega)).mono ?_ fun s'' h => hroom.trans h
        rintro - s'' ⟨hroom', hs'', hle⟩
        exact ⟨hroom.trans hroom', hs'', hle⟩
    · rw [if_neg hless]
      exact .pure ⟨.refl s, hs, by omega⟩

theorem Achieves.reserve (hs : s.manager.store.Valid) (needed : Nat) :
    Achieves s (reserve needed) (fun _ s' => Roomier s s' ∧ s'.manager.store.Valid ∧
      needed ≤ s'.manager.store.freeCount) (fun s' => Roomier s s') :=
  .reserveWithin hs (by omega)

/-! ### Which nodes are rebuilt -/

theorem dependsOn?_eq_some {store : Store} {lower : Var} {id : NodeId} {b : Bool}
    (h : dependsOn? store lower id = some b) :
    ∃ n low high, store.node? id = some n ∧ store.node? n.low = some low ∧
      store.node? n.high = some high ∧ b = (low.level == lower || high.level == lower) := by
  simp only [dependsOn?, Option.bind_eq_bind, Option.bind_eq_some_iff, Option.pure_def,
    Option.some.injEq] at h
  obtain ⟨n, hn, low, hlow, high, hhigh, rfl⟩ := h
  exact ⟨n, low, high, hn, hlow, hhigh, rfl⟩

theorem exists_dependsOn? {store : Store} {id : NodeId} {n low high : Node}
    (hn : store.node? id = some n) (hlow : store.node? n.low = some low)
    (hhigh : store.node? n.high = some high) (lower : Var) :
    ∃ b, dependsOn? store lower id = some b := by
  refine ⟨low.level == lower || high.level == lower, ?_⟩
  simp only [dependsOn?, hn, hlow, hhigh, Option.bind_eq_bind, Option.bind_some, Option.pure_def]

theorem mapM_flags {f : NodeId → Option Bool} {ids : List NodeId} {flags : List (NodeId × Bool)}
    (h : ids.mapM (fun id => (f id).map fun b => (id, b)) = some flags) :
    flags.map Prod.fst = ids ∧ ∀ p ∈ flags, f p.1 = some p.2 := by
  induction ids generalizing flags with
  | nil =>
    obtain rfl := Option.some.inj h
    exact ⟨rfl, by simp⟩
  | cons id ids ih =>
    simp only [List.mapM_cons, Option.bind_eq_bind, Option.bind_eq_some_iff, Option.map_eq_some_iff,
      Option.pure_def, Option.some.injEq] at h
    obtain ⟨_, ⟨b, hb, rfl⟩, flags, hflags, rfl⟩ := h
    obtain ⟨hmap, hall⟩ := ih hflags
    refine ⟨by rw [List.map_cons, hmap], fun p hp => ?_⟩
    rcases List.mem_cons.mp hp with rfl | hp
    · exact hb
    · exact hall p hp

theorem exists_mapM_flags {f : NodeId → Option Bool} {ids : List NodeId}
    (h : ∀ id ∈ ids, ∃ b, f id = some b) :
    ∃ flags, ids.mapM (fun id => (f id).map fun b => (id, b)) = some flags := by
  induction ids with
  | nil => exact ⟨[], rfl⟩
  | cons id ids ih =>
    obtain ⟨b, hb⟩ := h id List.mem_cons_self
    obtain ⟨flags, hflags⟩ := ih fun j hj => h j (List.mem_cons_of_mem _ hj)
    refine ⟨(id, b) :: flags, ?_⟩
    rw [List.mapM_cons, hb, hflags]
    rfl

theorem exists_divide? {store : Store} {lower : Var} {ids : List NodeId}
    (h : ∀ id ∈ ids, ∃ b, dependsOn? store lower id = some b) :
    ∃ dependent others, divide? store lower ids = some (dependent, others) := by
  obtain ⟨flags, hflags⟩ := exists_mapM_flags h
  simp only [divide?, hflags, Option.bind_eq_bind, Option.bind_some, Option.pure_def]
  exact ⟨_, _, rfl⟩

/-- The nodes `ids` are divided into those that depend on the variable and the others. -/
structure Division (store : Store) (lower : Var) (ids dependent others : List NodeId) : Prop where
  dependent_nodup : dependent.Nodup
  others_nodup : others.Nodup
  length_le : dependent.length ≤ ids.length
  mem_dependent : ∀ id, id ∈ dependent ↔ id ∈ ids ∧ dependsOn? store lower id = some true
  mem_others : ∀ id, id ∈ others ↔ id ∈ ids ∧ dependsOn? store lower id = some false
  mem : ∀ id ∈ ids, id ∈ dependent ∨ id ∈ others

theorem divide?_spec {store : Store} {lower : Var} {ids dependent others : List NodeId}
    (hnodup : ids.Nodup) (h : divide? store lower ids = some (dependent, others)) :
    Division store lower ids dependent others := by
  simp only [divide?, Option.bind_eq_bind, Option.bind_eq_some_iff, Option.pure_def,
    Option.some.injEq, Prod.mk.injEq, List.partition_eq_filter_filter] at h
  obtain ⟨flags, hflags, rfl, rfl⟩ := h
  obtain ⟨hmap, hall⟩ := mapM_flags hflags
  have hsub : ∀ p, ((flags.filter p).map Prod.fst).Sublist ids := fun p => by
    rw [← hmap]
    exact List.filter_sublist.map _
  have hmem : ∀ id, id ∈ ids ↔ ∃ b, (id, b) ∈ flags := by
    intro id
    rw [← hmap, List.mem_map]
    constructor
    · rintro ⟨⟨_, b⟩, hp, rfl⟩
      exact ⟨b, hp⟩
    · rintro ⟨b, hp⟩
      exact ⟨_, hp, rfl⟩
  -- Each node was flagged by whether it depends on the lower variable.
  have hflag : ∀ id c, (id, c) ∈ flags ↔ id ∈ ids ∧ dependsOn? store lower id = some c := by
    intro id c
    rw [hmem]
    constructor
    · intro hp
      exact ⟨⟨c, hp⟩, hall _ hp⟩
    · rintro ⟨⟨b, hp⟩, hc⟩
      obtain rfl := Option.some.inj ((hall _ hp).symm.trans hc)
      exact hp
  have hfilter : ∀ (p : NodeId × Bool → Bool) c, (∀ q : NodeId × Bool, p q = true ↔ q.2 = c) →
      ∀ id, id ∈ (flags.filter p).map Prod.fst ↔ (id, c) ∈ flags := by
    intro p c hp id
    rw [List.mem_map]
    constructor
    · rintro ⟨⟨j, b⟩, hq, rfl⟩
      obtain ⟨hq, hb⟩ := List.mem_filter.mp hq
      obtain rfl : b = c := (hp _).mp hb
      exact hq
    · intro hq
      exact ⟨_, List.mem_filter.mpr ⟨hq, (hp _).mpr rfl⟩, rfl⟩
  have hdependent := hfilter Prod.snd true fun _ => .rfl
  have hothers := hfilter (not ∘ Prod.snd) false fun q => by simp
  refine ⟨(hsub _).nodup hnodup, (hsub _).nodup hnodup, (hsub _).length_le,
    fun id => (hdependent id).trans (hflag id true), fun id => (hothers id).trans (hflag id false),
    fun id hid => ?_⟩
  obtain ⟨b, hp⟩ := (hmem id).mp hid
  cases b
  · exact .inr ((hothers id).mpr hp)
  · exact .inl ((hdependent id).mpr hp)

end DecisionDiagram.Reordering
