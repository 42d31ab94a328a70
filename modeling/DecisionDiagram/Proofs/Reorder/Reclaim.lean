/-
A node of the lower of two adjacent variables is kept or, when nothing refers to it, freed.

* `Reclaiming` — what holds while the nodes of the lower variable are looked through;
* `Reclaiming.free` — a node that is freed has no parent and no other name;
* `Achieves.reclaim` — one node is looked at.
-/
import DecisionDiagram.Proofs.Reorder.Work

namespace DecisionDiagram.Reordering

open Session (Counted maxRefs)

variable {s s₀ : Session} {rank : Nat → Nat} {y : Var} {E : Session → Prop}

/-! ### Reclaiming nodes -/

/-- The session `s` comes about from `s₀` while nodes of `y` without references are reclaimed.  Those
of `L` have still to be looked at. -/
structure Reclaiming (s₀ s : Session) (rank : Nat → Nat) (y : Var) (L : List NodeId) : Prop where
  frame : s₀.SameFrame s
  coherent : s.Coherent (· ∈ L) []
  reduced : s.diagram.Reduced rank s.manager.varNum
  nodup : L.Nodup
  left : ∀ id ∈ L, (s.diagram id).isSome = true
  level : ∀ {id n}, id ∈ L → s.diagram id = some n → n.level = y
  referred : ∀ {id}, (s.diagram id).isSome = true → id ∉ L → 0 < s.refs.getD id 0
  child_referred : ∀ {id n}, id ∈ L → s.diagram id = some n → s.refs.getD id 0 = 0 → ∀ b,
    ∃ p, s.diagram.Child p (n.child b) ∧ (p ∈ L → 0 < s.refs.getD p 0)
  saturated : ∀ {j}, s₀.Saturated j → s.Saturated j
  value : ∀ {a id b}, s.diagram.Live id → s₀.diagram.Eval a id b → s.diagram.Eval a id b

/-- The session in which the node `id` with the record `n` is freed. -/
def freed (s : Session) (id : NodeId) (n : Node) : Session :=
  { s with
    manager := { s.manager with store := s.manager.store.free id }
    refs := Session.dropEdges s.refs n }

section Free

variable {id : NodeId} {n : Node} {L : List NodeId}

theorem diagram_freed (s : Session) (id : NodeId) (n : Node) :
    (freed s id n).diagram = Function.update s.diagram id none :=
  s.manager.store.diagram_free id

theorem diagram_freed_of_ne {j : NodeId} (hj : j ≠ id) :
    (freed s id n).diagram j = s.diagram j :=
  s.manager.store.diagram_free_of_ne hj

theorem diagram_freed_eq_some {j : NodeId} {m : Node} :
    (freed s id n).diagram j = some m ↔ j ≠ id ∧ s.diagram j = some m := by
  rw [diagram_freed, Function.update_apply]
  split
  · rename_i hj
    exact ⟨nofun, fun h => absurd hj h.1⟩
  · rename_i hj
    exact ⟨fun hm => ⟨hj, hm⟩, fun h => h.2⟩

/-- What is live afterwards is another node than the one that is freed. -/
theorem ne_of_live_freed (hid : id.isTerminal = false) {j : NodeId}
    (hj : (freed s id n).diagram.Live j) : j ≠ id := by
  rintro rfl
  obtain ⟨m, hm⟩ := hj.eq_some hid
  exact (diagram_freed_eq_some.mp hm).1 rfl

theorem Reclaiming.no_parent (h : Reclaiming s₀ s rank y (id :: L))
    (hzero : s.refs.getD id 0 = 0) (p : NodeId) : ¬ s.diagram.Child p id :=
  h.coherent.counted.no_parent (fun hm => h.coherent.lt_refs (Diagram.live_of_eq_some hm)) hzero p

/-- A saturated node is not one without references. -/
theorem ne_of_max (hzero : s.refs.getD id 0 = 0) {j : NodeId} (hj : s.refs.getD j 0 = maxRefs) :
    j ≠ id := by
  rintro rfl
  rw [hzero] at hj
  cases hj

variable (h : Reclaiming s₀ s rank y (id :: L)) (hn : s.diagram id = some n)
include h hn

theorem Reclaiming.child_lt (b : Bool) : n.child b < s.refs.size :=
  h.coherent.lt_refs (h.reduced.below hn b).live

/-- The children of the node stand below the nodes that are left. -/
theorem Reclaiming.left_ne {j : NodeId} (hj : j ∈ L) (b : Bool) : j ≠ n.child b := by
  rintro rfl
  obtain ⟨m, hm⟩ := Option.isSome_iff_exists.mp (h.left _ (List.mem_cons_of_mem _ hj))
  have hle := (h.reduced.below hn b).le (h.reduced.inner hm) hm
  rw [h.level List.mem_cons_self hn, h.level (List.mem_cons_of_mem _ hj) hm] at hle
  lia

/-- The counts of the nodes that are left stay. -/
theorem Reclaiming.refs_left {j : NodeId} (hj : j ∈ L) :
    (freed s id n).refs.getD j 0 = s.refs.getD j 0 :=
  Session.getD_dropEdges_of_ne (h.child_lt hn) (h.left_ne hn hj)

theorem Reclaiming.holds_freed : s.table.Holds (s.manager.store.free id).nodes
    fun j => ((freed s id n).diagram j).isSome = true ∧ j ∉ L := by
  have htable : s.table.Holds (s.manager.store.free id).nodes
      fun j => (s.diagram j).isSome = true ∧ j ∉ id :: L := by
    refine h.coherent.table.congr_nodes ?_
    rintro j ⟨-, hj⟩
    refine Store.node?_free ?_
    rintro rfl
    exact hj List.mem_cons_self
  refine htable.congr fun j => ?_
  by_cases hj : j = id
  · rw [hj, diagram_freed, Function.update_self]
    simp
  · rw [diagram_freed_of_ne hj]
    simp [hj]

variable (hzero : s.refs.getD id 0 = 0)
include hzero

theorem Reclaiming.coherent_freed : (freed s id n).Coherent (· ∈ L) [] := by
  have hinner := h.reduced.inner hn
  have hcap : id < s.manager.store.capacity :=
    h.coherent.refs_size ▸ h.coherent.lt_refs (Diagram.live_of_eq_some hn)
  refine h.coherent.change (h.coherent.store.free hinner hcap) (fun j hj => ?_)
    (h.holds_freed hn) rfl h.coherent.roomy ?_ ?_
    (fun _ hj => Session.dropEdges_eq_max (h.child_lt hn) hj) (fun {j} hj => ?_) ?_ _
  · refine Store.node?_free ?_
    rintro rfl
    rw [hinner] at hj
    cases hj
  · show (Session.dropEdges s.refs n).size = (s.manager.store.slots.release id).capacity
    rw [Session.size_dropEdges, FreeSlots.capacity_release]
    exact h.coherent.refs_size
  · rw [Store.diagram_free]
    exact Counted.change (o := none) (h.child_lt hn) h.coherent.counted
      (h.coherent.refs_size ▸ hcap) hn
  · -- A node that has a name is saturated.
    refine (h.coherent.rooted hj).congr (diagram_freed_of_ne (n := n) ?_)
    rintro rfl
    exact ne_of_max hzero
      (h.coherent.pinned j (Manager.mem_rootNodes.mpr ⟨hinner, hj⟩)) rfl
  · exact h.coherent.cliques.of_subset fun hm =>
      (diagram_freed_eq_some (s := s) (n := n).mp hm).2

/-- A child of a node without references has a parent that stays. -/
theorem Reclaiming.parent_freed {j : NodeId} {m : Node} (hj : j ∈ id :: L)
    (hm : s.diagram j = some m) (hjzero : s.refs.getD j 0 = 0) (b : Bool) :
    ∃ p, (freed s id n).diagram.Child p (m.child b) ∧ (p ∈ L → 0 < s.refs.getD p 0) := by
  obtain ⟨p, ⟨np, c, hp, hpc⟩, hpL⟩ := h.child_referred hj hm hjzero b
  have hpi : p ≠ id := by
    rintro rfl
    exact absurd hzero (Nat.pos_iff_ne_zero.mp (hpL List.mem_cons_self))
  exact ⟨p, ⟨np, c, (diagram_freed_of_ne hpi).trans hp, hpc⟩,
    fun hpmem => hpL (List.mem_cons_of_mem _ hpmem)⟩

/-- A node that has no references is freed. -/
theorem Reclaiming.free : Reclaiming s₀ (freed s id n) rank y L := by
  have hcoherent := h.coherent_freed hn hzero
  have hnodup := List.nodup_cons.mp h.nodup
  refine ⟨h.frame.trans ⟨rfl, rfl, rfl⟩, hcoherent, ?_, hnodup.2, fun j hj => ?_,
    fun hj hm => h.level (List.mem_cons_of_mem _ hj) (diagram_freed_eq_some.mp hm).2,
    fun {j} hsome hj => ?_, fun {j m} hj hm hjzero b => ?_, fun {j} hj => ?_,
    fun {a j b} hj hb => ?_⟩
  · rw [diagram_freed]
    exact h.reduced.remove (h.no_parent hzero)
  · rw [diagram_freed_of_ne]
    · exact h.left j (List.mem_cons_of_mem _ hj)
    · rintro rfl
      exact hnodup.1 hj
  · -- A child of the node has another parent, which stays.
    obtain ⟨m, hm⟩ := Option.isSome_iff_exists.mp hsome
    obtain ⟨hji, hm⟩ := diagram_freed_eq_some.mp hm
    by_cases hc : ∃ b, j = n.child b
    · obtain ⟨b, rfl⟩ := hc
      obtain ⟨p, hp, -⟩ := h.parent_freed hn hzero List.mem_cons_self hn hzero b
      exact hcoherent.pos hp
    · show 0 < (Session.dropEdges s.refs n).getD j 0
      rw [Session.getD_dropEdges_of_ne (h.child_lt hn) fun b hb => hc ⟨b, hb⟩]
      exact h.referred (by rw [hm]; rfl) (by simp [hji, hj])
  · rw [h.refs_left hn hj] at hjzero
    obtain ⟨p, hp, hpL⟩ := h.parent_freed hn hzero (List.mem_cons_of_mem _ hj)
      (diagram_freed_eq_some.mp hm).2 hjzero b
    refine ⟨p, hp, fun hpmem => ?_⟩
    rw [h.refs_left hn hpmem]
    exact hpL hpmem
  · obtain ⟨hlive, hm⟩ := h.saturated hj
    exact ⟨hlive.congr (diagram_freed_of_ne (ne_of_max hzero hm)),
      Session.dropEdges_eq_max (h.child_lt hn) hm⟩
  · have hji := ne_of_live_freed (h.reduced.inner hn) hj
    rw [diagram_freed]
    exact (h.value (hj.congr (diagram_freed_of_ne hji).symm) hb).remove (h.no_parent hzero) hji

end Free

theorem Achieves.reclaim {id : NodeId} {L : List NodeId}
    (h : Reclaiming s₀ s rank y (id :: L)) :
    Achieves s (reclaim id) (fun _ s' => Reclaiming s₀ s' rank y L) E := by
  have hsome := h.left id List.mem_cons_self
  have hnodup := List.nodup_cons.mp h.nodup
  obtain ⟨n, hn⟩ := Option.isSome_iff_exists.mp hsome
  refine .get ?_
  by_cases hpos : 0 < s.refs.getD id 0
  · -- A node with references goes back into the table.
    rw [if_pos hpos]
    refine (Achieves.index h.coherent.store h.reduced.unique h.coherent.table h.coherent.roomy
      (fun j hj => hj.1) hn (h.coherent.regions ▸ h.reduced.label_lt hn)
      fun hP => hP.2 List.mem_cons_self).mono ?_ fun _ hE => hE
    · rintro - s' ⟨table, rfl, hsize, htable, hroomy⟩
      refine ⟨h.frame.trans ⟨rfl, rfl, rfl⟩,
        h.coherent.setTable hsize hroomy (htable.congr fun j => ?_), h.reduced, hnodup.2,
        fun j hj => h.left j (List.mem_cons_of_mem _ hj),
        fun hj hm => h.level (List.mem_cons_of_mem _ hj) hm, fun {j} hsome hj => ?_,
        fun hj hm hzero b => ?_, h.saturated, h.value⟩
      · by_cases hj : j = id
        · subst hj
          simp [hsome, hnodup.1]
        · simp [hj]
      · by_cases hji : j = id
        · rw [hji]
          exact hpos
        · exact h.referred hsome (by simp [hji, hj])
      · obtain ⟨p, hp, hpL⟩ := h.child_referred (List.mem_cons_of_mem _ hj) hm hzero b
        exact ⟨p, hp, fun hpmem => hpL (List.mem_cons_of_mem _ hpmem)⟩
  · -- Any other is freed, and its children lose a reference each.
    rw [if_neg hpos]
    refine .expect (Store.node?_of_diagram hn) ?_
    exact Achieves.update (Achieves.update (h.free hn (by omega)))

end DecisionDiagram.Reordering
