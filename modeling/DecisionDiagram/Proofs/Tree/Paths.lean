/-
The paths of a decision tree to its leaves for true.

* `Tree.paths` — the literals along these paths, low branches first;
* `Tree.Parts` — two paths have a common beginning, and then the first goes low and the second high;
* `Tree.eval_iff_paths` — an assignment satisfies the tree if it satisfies the literals of a path;
* `Tree.Between.sum_paths` — the assignments that satisfy some path, counted path by path.
-/
import DecisionDiagram.Proofs.Tree.Count

namespace DecisionDiagram.Tree

variable {d j k : Level} {l h t : Tree} {b : Bool} {p q : List (Level × Bool)}

/-- The literals along the paths to a leaf for true, low branches first. -/
def paths : Tree → List (List (Level × Bool))
  | leaf b => if b then [[]] else []
  | node k l h => l.paths.map ((k, false) :: ·) ++ h.paths.map ((k, true) :: ·)

theorem mem_paths_node : p ∈ (node k l h).paths ↔
    ∃ b, ∃ q ∈ (if b then h else l).paths, p = (k, b) :: q := by
  rw [paths, List.mem_append, List.mem_map, List.mem_map]
  constructor
  · rintro (⟨q, hq, rfl⟩ | ⟨q, hq, rfl⟩)
    · exact ⟨false, q, hq, rfl⟩
    · exact ⟨true, q, hq, rfl⟩
  · rintro ⟨b, q, hq, rfl⟩
    cases b
    · exact .inl ⟨q, hq, rfl⟩
    · exact .inr ⟨q, hq, rfl⟩

/-! ### The order of the paths -/

/-- After a common beginning the first path goes low and the second high. -/
inductive Parts : List (Level × Bool) → List (Level × Bool) → Prop
  | here (k : Level) (p q : List (Level × Bool)) : Parts ((k, false) :: p) ((k, true) :: q)
  | there (x : Level × Bool) {p q : List (Level × Bool)} (h : Parts p q) : Parts (x :: p) (x :: q)

theorem pairwise_paths (t : Tree) : t.paths.Pairwise Parts := by
  induction t with
  | leaf b =>
    cases b
    · exact .nil
    · exact List.pairwise_singleton _ _
  | node k l h ihl ihh =>
    have prepend : ∀ x {ps : List (List (Level × Bool))}, ps.Pairwise Parts →
        (ps.map (x :: ·)).Pairwise Parts := fun x ps hps =>
      List.pairwise_map.mpr (hps.imp fun h => .there x h)
    refine List.pairwise_append.mpr ⟨prepend _ ihl, prepend _ ihh, fun p hp q hq => ?_⟩
    obtain ⟨p, -, rfl⟩ := List.mem_map.mp hp
    obtain ⟨q, -, rfl⟩ := List.mem_map.mp hq
    exact .here k p q

/-! ### The levels on a path -/

theorem Between.mem_paths (ht : t.Between d k) (hp : p ∈ t.paths) :
    ∀ x ∈ p, k ≤ x.1 ∧ x.1 < d := by
  induction ht generalizing p with
  | leaf _ b =>
    cases b
    · cases hp
    · rw [List.mem_singleton.mp hp]
      exact fun x hx => by cases hx
  | @node k j l h le lt ne low high ihl ihh =>
    obtain ⟨b, q, hq, rfl⟩ := mem_paths_node.mp hp
    have hbranch : ∀ x ∈ q, j + 1 ≤ x.1 ∧ x.1 < d := by
      cases b
      · exact ihl hq
      · exact ihh hq
    refine List.forall_mem_cons.mpr ⟨⟨le, lt⟩, fun x hx => ?_⟩
    have := hbranch x hx
    exact ⟨by lia, this.2⟩

/-- The levels get larger along a path. -/
theorem Between.pairwise_lt (ht : t.Between d k) (hp : p ∈ t.paths) :
    (p.map Prod.fst).Pairwise (· < ·) := by
  induction ht generalizing p with
  | leaf _ b =>
    cases b
    · cases hp
    · rw [List.mem_singleton.mp hp]
      exact .nil
  | @node k j l h le lt ne low high ihl ihh =>
    obtain ⟨b, q, hq, rfl⟩ := mem_paths_node.mp hp
    have hbranch : (∀ x ∈ q, j + 1 ≤ x.1 ∧ x.1 < d) ∧ (q.map Prod.fst).Pairwise (· < ·) := by
      cases b
      · exact ⟨low.mem_paths hq, ihl hq⟩
      · exact ⟨high.mem_paths hq, ihh hq⟩
    refine List.pairwise_cons.mpr ⟨fun i hi => ?_, hbranch.2⟩
    obtain ⟨x, hx, rfl⟩ := List.mem_map.mp hi
    exact (hbranch.1 x hx).1

theorem Between.length_le (ht : t.Between d k) (hp : p ∈ t.paths) : k + p.length ≤ d := by
  induction ht generalizing p with
  | leaf le b =>
    cases b
    · cases hp
    · rw [List.mem_singleton.mp hp]
      exact le
  | @node k j l h le lt ne low high ihl ihh =>
    obtain ⟨b, q, hq, rfl⟩ := mem_paths_node.mp hp
    have hbranch : j + 1 + q.length ≤ d := by
      cases b
      · exact ihl hq
      · exact ihh hq
    rw [List.length_cons]
    lia

/-! ### Values -/

/-- The assignments that satisfy the tree are those that satisfy the literals of a path. -/
theorem eval_iff_paths (t : Tree) (x : Level → Bool) :
    t.eval x = true ↔ ∃ p ∈ t.paths, ∀ i ∈ p, x i.1 = i.2 := by
  induction t with
  | leaf b => cases b <;> simp [paths]
  | node k l h ihl ihh =>
    have hbranch : (node k l h).eval x = (if x k then h else l).eval x := by
      rw [eval_node]
      split <;> rfl
    have ih : (if x k then h else l).eval x = true ↔
        ∃ p ∈ (if x k then h else l).paths, ∀ i ∈ p, x i.1 = i.2 := by
      split
      · exact ihh
      · exact ihl
    rw [hbranch, ih]
    constructor
    · rintro ⟨q, hq, hx⟩
      exact ⟨(k, x k) :: q, mem_paths_node.mpr ⟨x k, q, hq, rfl⟩,
        List.forall_mem_cons.mpr ⟨rfl, hx⟩⟩
    · rintro ⟨p, hp, hx⟩
      obtain ⟨b, q, hq, rfl⟩ := mem_paths_node.mp hp
      obtain ⟨hk, hx⟩ := List.forall_mem_cons.mp hx
      have hk : x k = b := hk
      exact ⟨q, hk ▸ hq, hx⟩

/-! ### Counts -/

/-- Each path leaves all levels free that it does not decide. -/
theorem Between.sum_paths (ht : t.Between d k) :
    t.weight d * 2 ^ t.levelOr d = (t.paths.map fun p => 2 ^ (d - p.length)).sum := by
  refine Between.weight_mul (μ := fun t => (t.paths.map fun p => 2 ^ (d - p.length)).sum) ?_ ?_
    (fun {k j l h} ht => ?_) ht
  · rfl
  · simp [paths]
  · cases ht with
    | node le lt ne low high =>
      -- The literal at the level of the node takes half of the assignments of a path.
      have half : ∀ (b : Bool) {c : Tree}, c.Between d (j + 1) →
          2 * ((c.paths.map ((j, b) :: ·)).map fun p => 2 ^ (d - p.length)).sum =
            (c.paths.map fun p => 2 ^ (d - p.length)).sum := by
        intro b c hc
        rw [List.map_map, ← List.sum_map_mul_left]
        refine congrArg List.sum (List.map_congr_left fun p hp => ?_)
        have hle := hc.length_le hp
        have hsucc : d - p.length = d - (p.length + 1) + 1 := by lia
        rw [Function.comp_apply, List.length_cons, hsucc, Nat.pow_succ, Nat.mul_comm]
      rw [paths, List.map_append, List.sum_append, Nat.mul_add, half false low, half true high]

end DecisionDiagram.Tree
