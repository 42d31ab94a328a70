/-
The search for satisfying paths finds them all, one after the other.

The search keeps one path, which it cuts back when it turns to a node that waits on the stack.  No node
waits deeper than those above it, so what is cut off is never needed again.

* `Manager.items` — the assignments of the paths below a node;
* `Manager.Searching` — what holds of a search between two steps;
* `Manager.Sound.searchOn_eq` — a search comes to the first of the items that are left;
* `Manager.Yields` — a search comes to the items of a list in turn, and then to its end;
* `Manager.Sound.allSat_eq` — as many items as are asked for, if there are so many.
-/
import DecisionDiagram.Proofs.ExactCount
import DecisionDiagram.Proofs.Tree.Paths

namespace DecisionDiagram.Manager

variable {m : Manager} {f : NodeId} {n : Nat} {search search' : PathSearch} {visit : Visit}
  {stack : List Visit} {path path' : List (Var × Bool)} {p : PartialAssignment}
  {ps : List PartialAssignment}

/-! ### Items -/

/-- Literals with the variables for the levels. -/
def named (m : Manager) (literals : List (Level × Bool)) : List (Var × Bool) :=
  literals.map fun x => (m.order.varAt.getD x.1 0, x.2)

/-- The assignments of the paths that go on from a node, which a path leads to. -/
noncomputable def items (m : Manager) (path : List (Var × Bool)) (f : NodeId) :
    List PartialAssignment :=
  (m.diagram.tree f).paths.map fun p => assigning m.varNum (path ++ m.named p)

theorem Sound.items_bot (hm : m.Sound) (hf : f.isBot = true) : m.items path f = [] := by
  rw [items, hm.tree_leaf_of_isBot hf]
  rfl

theorem Sound.items_top (hm : m.Sound) (hf : f.isTop = true) :
    m.items path f = [assigning m.varNum path] := by
  rw [items, hm.tree_leaf_of_isTop hf]
  show [assigning m.varNum (path ++ [])] = _
  rw [List.append_nil]

/-- The paths from a node go on to its children. -/
theorem Sound.items_node (hm : m.Sound) {r : Node} (hr : m.diagram f = some r) {v : Var}
    (hv : m.order.varAt[r.level]? = some v) :
    m.items path f = m.items (path ++ [(v, false)]) r.low ++ m.items (path ++ [(v, true)]) r.high := by
  have hget : m.order.varAt.getD r.level 0 = v := by
    rw [Array.getD_eq_getD_getElem?, hv]
    rfl
  rw [items, hm.reduced.tree_node hr, Tree.paths, List.map_append, List.map_map, List.map_map, items,
    items]
  simp only [Function.comp_def, named, List.map_cons, hget, List.append_assoc, List.singleton_append]

/-! ### Searches -/

/-- The path to a node that waits on the stack. -/
def Visit.comeTo (visit : Visit) (path : List (Var × Bool)) : List (Var × Bool) :=
  path.take visit.depth ++ visit.literal.toList

/-- The items that are left to a search. -/
noncomputable def left (m : Manager) (search : PathSearch) : List PartialAssignment :=
  search.stack.flatMap fun visit => m.items (visit.comeTo search.path) visit.node

/-- The nodes on the stack are live, none waits deeper than those above it, and the path reaches down to
all of them. -/
structure Searching (m : Manager) (search : PathSearch) : Prop where
  live : ∀ visit ∈ search.stack, m.diagram.Live visit.node
  reach : ∀ visit ∈ search.stack, visit.depth ≤ search.path.length
  nested : search.stack.Pairwise fun visit other => other.depth ≤ visit.depth

theorem Searching.start (hf : m.diagram.Live f) : m.Searching (.start f) :=
  ⟨List.forall_mem_singleton.mpr hf, List.forall_mem_singleton.mpr (Nat.zero_le _),
    List.pairwise_singleton _ _⟩

theorem left_start (m : Manager) (f : NodeId) : m.left (.start f) = m.items [] f := by
  show m.items [] f ++ [] = m.items [] f
  rw [List.append_nil]

/-- A node is taken from the stack.  The path is cut back to it, but not further than to the nodes that
go on waiting. -/
theorem Searching.pop (h : m.Searching ⟨visit :: stack, path⟩) :
    m.Searching ⟨stack, visit.comeTo path⟩ ∧
      m.left ⟨visit :: stack, path⟩ =
        m.items (visit.comeTo path) visit.node ++ m.left ⟨stack, visit.comeTo path⟩ := by
  obtain ⟨-, hlive⟩ := List.forall_mem_cons.mp h.live
  obtain ⟨hdepth, -⟩ := List.forall_mem_cons.mp h.reach
  obtain ⟨hbelow, hnested⟩ := List.pairwise_cons.mp h.nested
  have hlength : (path.take visit.depth).length = visit.depth := List.length_take_of_le hdepth
  have hreach : ∀ other ∈ stack, other.depth ≤ (visit.comeTo path).length := fun other ho => by
    rw [Visit.comeTo, List.length_append, hlength]
    exact Nat.le_add_right_of_le (hbelow other ho)
  refine ⟨⟨hlive, hreach, hnested⟩, ?_⟩
  -- Those that wait below need no more of the path than what is kept.
  have hkeep : ∀ other ∈ stack, m.items (other.comeTo path) other.node =
      m.items (other.comeTo (visit.comeTo path)) other.node := fun other ho => by
    have hle := hbelow other ho
    have htake : (visit.comeTo path).take other.depth = path.take other.depth := by
      rw [Visit.comeTo, List.take_append_of_le_length (by rwa [hlength]), List.take_take,
        Nat.min_eq_left hle]
    rw [Visit.comeTo, Visit.comeTo, htake]
  exact congrArg (_ ++ ·) (List.flatMap_congr hkeep)

/-- The children of a node are put on the stack, the low one on top. -/
theorem Searching.push (h : m.Searching ⟨stack, path⟩) {r : Node} (hlow : m.diagram.Live r.low)
    (hhigh : m.diagram.Live r.high) (v : Var) :
    m.Searching ⟨⟨r.low, path.length, some (v, false)⟩ ::
      ⟨r.high, path.length, some (v, true)⟩ :: stack, path⟩ := by
  have hle := Nat.le_refl path.length
  refine ⟨List.forall_mem_cons.mpr ⟨hlow, List.forall_mem_cons.mpr ⟨hhigh, h.live⟩⟩,
    List.forall_mem_cons.mpr ⟨hle, List.forall_mem_cons.mpr ⟨hle, h.reach⟩⟩,
    List.pairwise_cons.mpr ⟨List.forall_mem_cons.mpr ⟨hle, h.reach⟩,
      List.pairwise_cons.mpr ⟨h.reach, h.nested⟩⟩⟩

/-- A bound on the number of nodes that are visited before the next path is complete: those on top of
the stack that are false, and two on each level from the first one that is not. -/
noncomputable def visits (m : Manager) : List Visit → Nat
  | [] => 0
  | visit :: stack =>
    if visit.node.isBot then m.visits stack + 1
    else 2 * (m.varNum - (m.diagram.tree visit.node).levelOr m.varNum) + 1

theorem visits_lt (m : Manager) (stack : List Visit) :
    m.visits stack < stack.length + 2 * m.depth := by
  induction stack with
  | nil =>
    rw [visits, depth]
    omega
  | cons visit stack ih =>
    rw [visits, List.length_cons]
    rw [depth] at ih ⊢
    split
    · omega
    · omega

/-- At most one of the children of a node is false, and the other one stands below the node. -/
theorem Sound.visits_children (hm : m.Sound) {r : Node} (hr : m.diagram f = some r) (d : Nat)
    (low high : Option (Var × Bool)) (stack : List Visit) :
    m.visits (⟨r.low, d, low⟩ :: ⟨r.high, d, high⟩ :: stack) + 1 ≤
      2 * (m.varNum - (m.diagram.tree f).levelOr m.varNum) + 1 := by
  have hlevel : (m.diagram.tree f).levelOr m.varNum = r.level := by
    rw [hm.reduced.tree_node hr]
    rfl
  have hlt := hm.reduced.label_lt hr
  have child : ∀ b, r.level + 1 ≤ (m.diagram.tree (r.child b)).levelOr m.varNum := fun b =>
    (hm.reduced.tree_between (hm.reduced.below hr b) hlt).le_levelOr
  have hl : r.level + 1 ≤ (m.diagram.tree r.low).levelOr m.varNum := child false
  have hh : r.level + 1 ≤ (m.diagram.tree r.high).levelOr m.varNum := child true
  rw [visits, visits, hlevel]
  dsimp only
  split
  · rename_i hlow
    have hhigh : ¬ r.high.isBot = true := fun hhigh =>
      hm.reduced.low_ne_high hr ((eq_of_beq hlow).trans (eq_of_beq hhigh).symm)
    rw [if_neg hhigh]
    lia
  · lia

/-! ### The search -/

/-- A search comes to the first of the items that are left, if there is one.  The induction is on the
bound. -/
theorem Sound.searchOn_eq (hm : m.Sound) (h : m.Searching search)
    (hn : m.visits search.stack < n) : ∃ search', m.searchOn n search =
        .ok ((m.left search).head?, search') ∧ m.Searching search' ∧
      m.left search' = (m.left search).tail := by
  induction n generalizing search with
  | zero => exact absurd hn (Nat.not_lt_zero _)
  | succ n ih =>
    obtain ⟨_ | ⟨visit, stack⟩, path⟩ := search
    · exact ⟨⟨[], path⟩, rfl, h, rfl⟩
    obtain ⟨hpop, hleft⟩ := h.pop
    have hlive := h.live visit List.mem_cons_self
    rw [hleft, searchOn]
    by_cases hbot : visit.node.isBot = true
    · rw [hm.items_bot hbot, List.nil_append]
      rw [visits, if_pos hbot] at hn
      obtain ⟨search', hrun, h', hleft'⟩ := ih hpop (Nat.lt_of_succ_lt_succ hn)
      exact ⟨search', (if_pos hbot).trans hrun, h', hleft'⟩
    · by_cases htop : visit.node.isTop = true
      · rw [hm.items_top htop]
        exact ⟨_, (if_neg hbot).trans (if_pos htop), hpop, rfl⟩
      · obtain ⟨r, hr⟩ := hlive.eq_some (NodeId.inner_of_not hbot htop)
        obtain ⟨v, hv, -⟩ := hm.order.getD_varAt (hm.reduced.label_lt hr)
        have hpush := hpop.push (hm.reduced.below hr false).live (hm.reduced.below hr true).live v
        have hvisits := hm.visits_children hr (visit.comeTo path).length (some (v, false))
          (some (v, true)) stack
        rw [visits, if_neg hbot] at hn
        obtain ⟨search', hrun, h', hleft'⟩ := ih hpush (by dsimp only; omega)
        -- The children take the place of the node, and together they have its items.
        have hsame : m.left ⟨⟨r.low, (visit.comeTo path).length, some (v, false)⟩ ::
              ⟨r.high, (visit.comeTo path).length, some (v, true)⟩ :: stack, visit.comeTo path⟩ =
            m.items (visit.comeTo path) visit.node ++ m.left ⟨stack, visit.comeTo path⟩ := by
          rw [hm.items_node hr hv, List.append_assoc]
          simp only [left, List.flatMap_cons, Visit.comeTo, List.take_length, Option.toList_some]
        rw [hsame] at hrun hleft'
        refine ⟨search', ?_, h', hleft'⟩
        rw [← hrun]
        refine (if_neg hbot).trans ((if_neg htop).trans ?_)
        rw [node_of_diagram hr]
        show (m.varAt r.level >>= _) = _
        rw [varAt, hv]
        rfl

/-- The next path of a search, and the search after it. -/
theorem Sound.nextPath_eq (hm : m.Sound) (h : m.Searching search) :
    ∃ search', m.nextPath search = .ok ((m.left search).head?, search') ∧ m.Searching search' ∧
      m.left search' = (m.left search).tail := hm.searchOn_eq h (visits_lt m search.stack)

/-- The search comes to the items of a list one after the other, and then to its end. -/
inductive Yields (m : Manager) : PathSearch → List PartialAssignment → Prop
  | done {search search' : PathSearch} (h : m.nextPath search = .ok (none, search')) :
    Yields m search []
  | item {search search' : PathSearch} {p : PartialAssignment} {ps : List PartialAssignment}
    (h : m.nextPath search = .ok (some p, search')) (rest : Yields m search' ps) :
    Yields m search (p :: ps)

theorem Sound.yields (hm : m.Sound) (h : m.Searching search) (hleft : m.left search = ps) :
    m.Yields search ps := by
  induction ps generalizing search with
  | nil =>
    obtain ⟨search', hnext, -⟩ := hm.nextPath_eq h
    rw [hleft] at hnext
    exact .done hnext
  | cons p ps ih =>
    obtain ⟨search', hnext, h', hleft'⟩ := hm.nextPath_eq h
    rw [hleft] at hnext hleft'
    exact .item hnext (ih h' hleft')

/-- Of the items of a search, as many as are asked for are answered. -/
theorem Yields.nextPaths_eq (h : m.Yields search ps) (n : Nat) :
    m.nextPaths n search = .ok (ps.take n) := by
  induction h generalizing n with
  | done h =>
    cases n with
    | zero => rfl
    | succ n =>
      rw [nextPaths, h]
      rfl
  | item h rest ih =>
    cases n with
    | zero => rfl
    | succ n =>
      rw [nextPaths, h]
      simp only [bind, Except.bind, ih n]
      rfl

/-- The search below a live node ends after the assignments of its paths. -/
theorem Sound.yields_start (hm : m.Sound) (hf : m.diagram.Live f) :
    m.Yields (.start f) (m.items [] f) := hm.yields (.start hf) (left_start m f)

theorem Sound.allSat_eq (hm : m.Sound) (hf : m.diagram.Live f) (limit : Nat) :
    m.allSat f limit = .ok ((m.items [] f).take limit) := by
  rw [allSat, (checkNode_eq hm.store).mpr hf]
  exact (hm.yields_start hf).nextPaths_eq limit

theorem Sound.answered_allSat (hm : m.Sound) (f : NodeId) (limit : Nat) :
    Answered (m.allSat f limit) := by
  by_cases hf : m.diagram.Live f
  · exact .of_eq (hm.allSat_eq hf limit)
  · exact (answered_checkNode m f).bind fun _ h => absurd ((checkNode_eq hm.store).mp h) hf

end DecisionDiagram.Manager
