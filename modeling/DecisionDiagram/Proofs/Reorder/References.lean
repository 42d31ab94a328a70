/-
Counts of references are exact until they saturate.

During a change of the order, what is live is told by counts.  A count that got to its largest value
says nothing any more; any other is the number of references.  So a node without a count has no
parent, and a node with a count that says something has one.

* `Session.Counted` — the counts are those of the edges of the diagram and of a list of nodes that
  the running work holds on to;
* `Counted.replace` — when a node gets another record, the references of the new one have to be held
  already, and those of the old one are held afterwards;
* `Counted.no_parent` — a node whose count is zero is nobody's child;
* `Counted.exists_parent`, `Counted.pos` — when the work holds on to no node, a node has a parent just
  if its count says so.
-/
import Mathlib.Algebra.BigOperators.Group.Finset.Basic
import Mathlib.Algebra.Order.BigOperators.Group.Finset
import DecisionDiagram.Proofs.Diagram
import DecisionDiagram.Reorder.Session

namespace DecisionDiagram

namespace Diagram

/-- The children of a record, none if there is no record. -/
def edges : Option Node → List NodeId
  | none => []
  | some n => [n.low, n.high]

theorem child_mem_edges (n : Node) (b : Bool) : n.child b ∈ edges (some n) := by
  cases b <;> simp [edges]

/-- The number of references to `j` in the records of the first `capacity` ids. -/
def indegree (g : Diagram) (capacity : Nat) (j : NodeId) : Nat :=
  ∑ p ∈ Finset.range capacity, (edges (g p)).count j

variable {g : Diagram} {capacity : Nat}

theorem indegree_update {id : NodeId} (hid : id < capacity) (o : Option Node) (j : NodeId) :
    indegree (Function.update g id o) capacity j + (edges (g id)).count j =
      indegree g capacity j + (edges o).count j := by
  have hmem : id ∈ Finset.range capacity := Finset.mem_range.mpr hid
  have hsum : ∀ h : Diagram, indegree h capacity j =
      (edges (h id)).count j + ∑ p ∈ (Finset.range capacity).erase id, (edges (h p)).count j :=
    fun h => (Finset.add_sum_erase _ _ hmem).symm
  have hrest : ∑ p ∈ (Finset.range capacity).erase id,
        (edges (Function.update g id o p)).count j =
      ∑ p ∈ (Finset.range capacity).erase id, (edges (g p)).count j := by
    refine Finset.sum_congr rfl fun p hp => ?_
    rw [Function.update_of_ne (Finset.ne_of_mem_erase hp)]
  rw [hsum g, hsum (Function.update g id o), hrest, Function.update_self]
  omega

/-- Ids without a record have no references. -/
theorem indegree_extend {capacity' : Nat} (hle : capacity ≤ capacity')
    (hnone : ∀ p, capacity ≤ p → g p = none) (j : NodeId) :
    indegree g capacity' j = indegree g capacity j := by
  symm
  refine Finset.sum_subset (Finset.range_subset_range.mpr hle) fun p _ hp => ?_
  rw [hnone p (Nat.le_of_not_lt fun hlt => hp (Finset.mem_range.mpr hlt))]
  rfl

theorem indegree_pos {p j : NodeId} (hp : p < capacity) (hc : g.Child p j) :
    0 < indegree g capacity j := by
  obtain ⟨n, b, hn, rfl⟩ := hc
  have hone : 0 < (edges (g p)).count (n.child b) := by
    rw [hn]
    exact List.count_pos_iff.mpr (child_mem_edges n b)
  exact Nat.lt_of_lt_of_le hone
    (Finset.single_le_sum (f := fun p => (edges (g p)).count (n.child b))
      (fun _ _ => Nat.zero_le _) (Finset.mem_range.mpr hp))

theorem indegree_eq_zero {j : NodeId} (h : ∀ p, ¬ g.Child p j) : indegree g capacity j = 0 := by
  refine Finset.sum_eq_zero fun p _ => ?_
  rw [List.count_eq_zero]
  intro hj
  rcases hg : g p with _ | n
  · rw [hg] at hj
    cases hj
  · rw [hg] at hj
    rcases List.mem_cons.mp hj with rfl | hj
    · exact h p ⟨n, false, hg, rfl⟩
    · exact h p ⟨n, true, hg, List.mem_singleton.mp hj⟩

end Diagram

namespace Session

variable {refs : Array Nat} {g : Diagram} {held : List NodeId}

/-- Each count is at its largest value, or is the number of references from the diagram and from the
nodes held. -/
def Counted (refs : Array Nat) (g : Diagram) (held : List NodeId) : Prop :=
  ∀ j, refs.getD j 0 = maxRefs ∨ refs.getD j 0 = g.indegree refs.size j + held.count j

theorem getD_modify (refs : Array Nat) (f : Nat → Nat) {id : NodeId} (hid : id < refs.size)
    (j : NodeId) :
    (refs.modify id f).getD j 0 = if j = id then f (refs.getD j 0) else refs.getD j 0 := by
  rw [Array.getD_eq_getD_getElem?, Array.getD_eq_getD_getElem?, Array.getElem?_modify]
  by_cases hj : j = id
  · subst hj
    rw [if_pos rfl, if_pos rfl, Array.getElem?_eq_getElem hid]
    rfl
  · rw [if_neg (Ne.symm hj), if_neg hj]

theorem getD_setRef (refs : Array Nat) {id : NodeId} (hid : id < refs.size) (count : Nat)
    (j : NodeId) : (setRef refs id count).getD j 0 = if j = id then count else refs.getD j 0 := by
  rw [setRef, Array.getD_eq_getD_getElem?, Array.getD_eq_getD_getElem?,
    Array.getElem?_setIfInBounds]
  by_cases hj : j = id
  · rw [if_pos hj.symm, if_pos hj, if_pos hid]
    rfl
  · rw [if_neg (Ne.symm hj), if_neg hj]

@[simp] theorem size_addRef (refs : Array Nat) (id : NodeId) : (addRef refs id).size = refs.size :=
  Array.size_modify

@[simp] theorem size_dropRef (refs : Array Nat) (id : NodeId) :
    (dropRef refs id).size = refs.size := Array.size_modify

@[simp] theorem size_setRef (refs : Array Nat) (id : NodeId) (count : Nat) :
    (setRef refs id count).size = refs.size := Array.size_setIfInBounds

/-! ### Counts at the largest value stay there -/

theorem addRef_eq_max {id j : NodeId} (hid : id < refs.size) (h : refs.getD j 0 = maxRefs) :
    (addRef refs id).getD j 0 = maxRefs := by
  rw [addRef, getD_modify _ _ hid, h]
  split <;> rfl

theorem dropRef_eq_max {id j : NodeId} (hid : id < refs.size) (h : refs.getD j 0 = maxRefs) :
    (dropRef refs id).getD j 0 = maxRefs := by
  rw [dropRef, getD_modify _ _ hid, h]
  split <;> rfl

theorem getD_dropRef_of_ne {id j : NodeId} (hid : id < refs.size) (hj : j ≠ id) :
    (dropRef refs id).getD j 0 = refs.getD j 0 := by
  rw [dropRef, getD_modify _ _ hid, if_neg hj]

/-! ### Steps -/

theorem Counted.perm (h : Counted refs g held) {held' : List NodeId} (hp : held.Perm held') :
    Counted refs g held' := by
  intro j
  rw [← hp.count_eq j]
  exact h j

theorem Counted.addRef (h : Counted refs g held) {id : NodeId} (hid : id < refs.size) :
    Counted (addRef refs id) g (id :: held) := by
  intro j
  rw [size_addRef, Session.addRef, getD_modify _ _ hid, List.count_cons]
  by_cases hj : j = id
  · subst hj
    rw [if_pos rfl, if_pos (beq_self_eq_true j)]
    by_cases hmax : refs.getD j 0 = maxRefs
    · rw [if_pos hmax]
      exact .inl hmax
    · rw [if_neg hmax]
      exact .inr (by have := (h j).resolve_left hmax; omega)
  · rw [if_neg hj, if_neg (by simpa using Ne.symm hj)]
    exact h j

theorem Counted.dropRef {id : NodeId} (h : Counted refs g (id :: held)) (hid : id < refs.size) :
    Counted (dropRef refs id) g held := by
  intro j
  have hcount := h j
  rw [List.count_cons] at hcount
  rw [size_dropRef, Session.dropRef, getD_modify _ _ hid]
  by_cases hj : j = id
  · subst hj
    rw [if_pos (beq_self_eq_true j)] at hcount
    rw [if_pos rfl]
    by_cases hmax : refs.getD j 0 = maxRefs
    · rw [if_pos hmax]
      exact .inl hmax
    · rw [if_neg hmax]
      exact .inr (by have := hcount.resolve_left hmax; omega)
  · rw [if_neg (by simpa using Ne.symm hj)] at hcount
    rw [if_neg hj]
    exact hcount

/-- A count is set to the right number. -/
theorem Counted.setRef (h : Counted refs g held) {id : NodeId} (hid : id < refs.size)
    {held' : List NodeId} {count : Nat} (hother : ∀ j, j ≠ id → held'.count j = held.count j)
    (hself : count = maxRefs ∨ count = g.indegree refs.size id + held'.count id) :
    Counted (setRef refs id count) g held' := by
  intro j
  rw [size_setRef, getD_setRef _ hid]
  by_cases hj : j = id
  · subst hj
    rw [if_pos rfl]
    exact hself
  · rw [if_neg hj, hother j hj]
    exact h j

/-- A node gets another record, or none. -/
theorem Counted.replace {id : NodeId} {o : Option Node}
    (h : Counted refs g (Diagram.edges o ++ held)) (hid : id < refs.size) :
    Counted refs (Function.update g id o) (Diagram.edges (g id) ++ held) := by
  intro j
  have hup := Diagram.indegree_update (g := g) hid o j
  rcases h j with hj | hj
  · exact .inl hj
  · rw [List.count_append] at hj ⊢
    exact .inr (by omega)

/-! ### The references of a record -/

/-- One more reference to both children of a record. -/
def addEdges (refs : Array Nat) (n : Node) : Array Nat := addRef (addRef refs n.low) n.high

/-- One reference less to both children of a record. -/
def dropEdges (refs : Array Nat) (n : Node) : Array Nat := dropRef (dropRef refs n.low) n.high

@[simp] theorem size_addEdges (refs : Array Nat) (n : Node) :
    (addEdges refs n).size = refs.size := by
  rw [addEdges, size_addRef, size_addRef]

@[simp] theorem size_dropEdges (refs : Array Nat) (n : Node) :
    (dropEdges refs n).size = refs.size := by
  rw [dropEdges, size_dropRef, size_dropRef]

section Edges

variable {n : Node} (hn : ∀ b, n.child b < refs.size)
include hn

theorem addEdges_eq_max {j : NodeId} (h : refs.getD j 0 = maxRefs) :
    (addEdges refs n).getD j 0 = maxRefs :=
  addRef_eq_max (by rw [size_addRef]; exact hn true) (addRef_eq_max (hn false) h)

theorem dropEdges_eq_max {j : NodeId} (h : refs.getD j 0 = maxRefs) :
    (dropEdges refs n).getD j 0 = maxRefs :=
  dropRef_eq_max (by rw [size_dropRef]; exact hn true) (dropRef_eq_max (hn false) h)

theorem getD_dropEdges_of_ne {j : NodeId} (hj : ∀ b, j ≠ n.child b) :
    (dropEdges refs n).getD j 0 = refs.getD j 0 :=
  (getD_dropRef_of_ne (by rw [size_dropRef]; exact hn true) (hj true)).trans
    (getD_dropRef_of_ne (hn false) (hj false))

theorem Counted.addEdges (h : Counted refs g held) :
    Counted (addEdges refs n) g (Diagram.edges (some n) ++ held) :=
  ((h.addRef (hn false)).addRef (by rw [size_addRef]; exact hn true)).perm (List.Perm.swap _ _ _)

theorem Counted.dropEdges (h : Counted refs g (Diagram.edges (some n) ++ held)) :
    Counted (dropEdges refs n) g held :=
  (Counted.dropRef h (hn false)).dropRef (by rw [size_dropRef]; exact hn true)

/-- A node gets its first record. -/
theorem Counted.put (h : Counted refs g held) {id : NodeId} (hid : id < refs.size)
    (fresh : g id = none) :
    Counted (Session.addEdges refs n) (Function.update g id (some n)) held := by
  have hrep := (h.addEdges hn).replace (by rwa [size_addEdges])
  rwa [fresh] at hrep

/-- A node gets another record or none, and the references of the old one are dropped. -/
theorem Counted.change {o : Option Node} (h : Counted refs g (Diagram.edges o ++ held))
    {id : NodeId} (hid : id < refs.size) (hg : g id = some n) :
    Counted (Session.dropEdges refs n) (Function.update g id o) held := by
  have hrep := h.replace hid
  rw [hg] at hrep
  exact hrep.dropEdges hn

end Edges

/-! ### Parents -/

/-- What is referred to has a count. -/
theorem Counted.pos (h : Counted refs g held) (hg : ∀ {p n}, g p = some n → p < refs.size)
    {p j : NodeId} (hc : g.Child p j) : 0 < refs.getD j 0 := by
  obtain ⟨n, b, hn, hj⟩ := hc
  have hpos := Diagram.indegree_pos (hg hn) ⟨n, b, hn, hj⟩
  rcases h j with hmax | heq
  · rw [hmax]
    decide
  · omega

theorem Counted.no_parent (h : Counted refs g held) (hg : ∀ {p n}, g p = some n → p < refs.size)
    {j : NodeId} (hzero : refs.getD j 0 = 0) (p : NodeId) : ¬ g.Child p j := by
  intro hc
  have := h.pos hg hc
  omega

/-- A count that says something tells of a parent. -/
theorem Counted.exists_parent (h : Counted refs g []) {j : NodeId} (hpos : 0 < refs.getD j 0)
    (hmax : refs.getD j 0 ≠ maxRefs) : ∃ p, g.Child p j := by
  by_contra hnone
  have heq := (h j).resolve_left hmax
  rw [Diagram.indegree_eq_zero fun p hp => hnone ⟨p, hp⟩] at heq
  exact absurd heq (Nat.pos_iff_ne_zero.mp hpos)

end Session

end DecisionDiagram
