/-
The satisfying paths are a disjoint cover, in lexicographic order.

* `Manager.getElem?_assigning` — the assignment of a path gives each variable its literal, if there is
  one;
* `Manager.Precedes` — the order of assignments, level by level and false before true;
* `Manager.Excludes`, `Manager.Extends` — two partial assignments contradict each other, and a total
  one has all values of a partial one;
* `Manager.Settled.path_cover` — what the search for satisfying paths finds.
-/
import DecisionDiagram.Proofs.PathSearch

namespace DecisionDiagram

/-- Two paths that part have a common beginning. -/
theorem Tree.Parts.exists_common {p q : List (Level × Bool)} (h : Tree.Parts p q) :
    ∃ c k p' q', p = c ++ (k, false) :: p' ∧ q = c ++ (k, true) :: q' := by
  induction h with
  | here k p q => exact ⟨[], k, p, q, rfl, rfl⟩
  | there x _ ih =>
    obtain ⟨c, k, p', q', rfl, rfl⟩ := ih
    exact ⟨x :: c, k, p', q', rfl, rfl⟩

namespace Manager

variable {m : Manager} {f : NodeId} {n : Nat} {v w : Var} {k l : Level} {b : Bool}
  {assignment : Array Bool} {p q : PartialAssignment} {path path' : List (Var × Bool)}
  {ls : List (Level × Bool)}

/-! ### The assignment of a path -/

/-- The values of an assignment are those at its indices. -/
theorem getElem?_eq_valuation (hv : v < assignment.size) :
    assignment[v]? = some (valuation assignment v) := by
  have hget := Array.getElem?_eq_getElem hv
  rw [hget, valuation_eq hget]

/-- One more literal.  No variable comes up twice. -/
theorem getElem?_assign {cube : PartialAssignment} (hnodup : (path.map Prod.fst).Nodup)
    (hv : v < cube.size) :
    (path.foldl (fun cube x => cube.setIfInBounds x.1 (some x.2)) cube)[v]? =
      if v ∈ path.map Prod.fst then some (path.lookup v) else cube[v]? := by
  induction path generalizing cube with
  | nil => rfl
  | cons x path ih =>
    obtain ⟨w, b⟩ := x
    obtain ⟨hw, hnodup⟩ := List.nodup_cons.mp hnodup
    rw [List.foldl_cons, ih hnodup (by rwa [Array.size_setIfInBounds]), List.map_cons,
      List.lookup_cons, Array.getElem?_setIfInBounds]
    by_cases hvw : v = w
    · subst hvw
      rw [if_neg hw, if_pos rfl, if_pos hv, if_pos List.mem_cons_self]
      simp
    · have hne : (v == w) = false := beq_false_of_ne hvw
      simp [hvw, Ne.symm hvw, hne]

theorem lookup_eq_none (hv : v ∉ path.map Prod.fst) : path.lookup v = none :=
  List.lookup_eq_none_iff.mpr fun x hx => by
    rw [bne_iff_ne]
    rintro rfl
    exact hv (List.mem_map_of_mem hx)

theorem lookup_eq_some (hnodup : (path.map Prod.fst).Nodup) :
    path.lookup v = some b ↔ (v, b) ∈ path := by
  induction path with
  | nil => simp
  | cons x path ih =>
    obtain ⟨w, c⟩ := x
    obtain ⟨hw, hnodup⟩ := List.nodup_cons.mp hnodup
    rw [List.lookup_cons, List.mem_cons]
    by_cases hvw : v = w
    · subst hvw
      have hmem : (v, b) ∉ path := fun h => hw (List.mem_map.mpr ⟨_, h, rfl⟩)
      simp [hmem, eq_comm]
    · have hne : (v == w) = false := beq_false_of_ne hvw
      simp [hne, hvw, ih hnodup]

/-- The assignment of a path gives each variable its literal, if there is one. -/
theorem getElem?_assigning (hnodup : (path.map Prod.fst).Nodup) (hv : v < n) :
    (assigning n path)[v]? = some (path.lookup v) := by
  rw [assigning, getElem?_assign hnodup (by rwa [Array.size_replicate])]
  split
  · rfl
  · rename_i hmem
    rw [lookup_eq_none hmem, Array.getElem?_replicate, if_pos hv]

theorem size_assigning (n : Nat) (path : List (Var × Bool)) : (assigning n path).size = n := by
  have hsize : ∀ cube : PartialAssignment,
      (path.foldl (fun cube x => cube.setIfInBounds x.1 (some x.2)) cube).size = cube.size := by
    induction path with
    | nil => exact fun _ => rfl
    | cons x path ih =>
      intro cube
      rw [List.foldl_cons, ih, Array.size_setIfInBounds]
  rw [assigning, hsize, Array.size_replicate]

/-- The variables without a literal are free. -/
theorem count_none_assigning (hnodup : (path.map Prod.fst).Nodup) (hlt : ∀ x ∈ path, x.1 < n) :
    (assigning n path).count none = n - path.length := by
  have hcount : ∀ cube : PartialAssignment, (∀ x ∈ path, cube[x.1]? = some none) →
      (path.foldl (fun cube x => cube.setIfInBounds x.1 (some x.2)) cube).count none =
        cube.count none - path.length := by
    clear hlt
    induction path with
    | nil => exact fun _ _ => rfl
    | cons x path ih =>
      intro cube hfree
      obtain ⟨hx, hfree⟩ := List.forall_mem_cons.mp hfree
      obtain ⟨hmem, hnodup⟩ := List.nodup_cons.mp hnodup
      obtain ⟨hlt, hget⟩ := Array.getElem?_eq_some_iff.mp hx
      have hrest : ∀ y ∈ path, (cube.setIfInBounds x.1 (some x.2))[y.1]? = some none := by
        intro y hy
        have hne : x.1 ≠ y.1 := fun heq => hmem (heq ▸ List.mem_map_of_mem hy)
        rw [Array.getElem?_setIfInBounds, if_neg hne]
        exact hfree y hy
      rw [List.foldl_cons, ih hnodup _ hrest, Array.setIfInBounds_def, dif_pos hlt,
        Array.count_set hlt, hget, List.length_cons]
      simp
      omega
  rw [assigning, hcount, Array.count_replicate_self]
  intro x hx
  rw [Array.getElem?_replicate, if_pos (hlt x hx)]

/-! ### Orders of assignments -/

/-- At the first level, from the top down, where the assignments differ, `p` is false and `q` is true. -/
def Precedes (m : Manager) (p q : PartialAssignment) : Prop :=
  ∃ (l : Level) (v : Var), m.order.varAt[l]? = some v ∧ p[v]? = some (some false) ∧
    q[v]? = some (some true) ∧
      ∀ (k : Level) (w : Var), k < l → m.order.varAt[k]? = some w → p[w]? = q[w]?

/-- Both give a value to some variable, and not the same one. -/
def Excludes (p q : PartialAssignment) : Prop :=
  ∃ (v : Var) (b : Bool), p[v]? = some (some b) ∧ q[v]? = some (some (!b))

/-- The assignment has all values that the partial one gives. -/
def Extends (assignment : Array Bool) (p : PartialAssignment) : Prop :=
  ∀ (v : Var) (b : Bool), p[v]? = some (some b) → assignment[v]? = some b

theorem Precedes.excludes (h : m.Precedes p q) : Excludes p q := by
  obtain ⟨-, v, -, hp, hq, -⟩ := h
  exact ⟨v, false, hp, hq⟩

theorem Excludes.symm (h : Excludes p q) : Excludes q p := by
  obtain ⟨v, b, hp, hq⟩ := h
  exact ⟨v, !b, hq, by rwa [Bool.not_not]⟩

theorem Excludes.not_extends (h : Excludes p q) (hp : Extends assignment p) :
    ¬ Extends assignment q := by
  intro hq
  obtain ⟨v, b, hpv, hqv⟩ := h
  have heq := Option.some.inj ((hp v b hpv).symm.trans (hq v (!b) hqv))
  cases b <;> cases heq

/-! ### Paths of a tree -/

/-- The levels along a path are known, and get larger. -/
structure Threads (m : Manager) (ls : List (Level × Bool)) : Prop where
  lt : ∀ x ∈ ls, x.1 < m.varNum
  sorted : (ls.map Prod.fst).Pairwise (· < ·)

theorem Sound.threads (hm : m.Sound) (hf : m.diagram.Live f) (h : ls ∈ (m.diagram.tree f).paths) :
    m.Threads ls :=
  ⟨fun x hx => ((hm.tree_between hf).mem_paths h x hx).2, (hm.tree_between hf).pairwise_lt h⟩

theorem Sound.mem_named (hm : m.Sound) (hls : m.Threads ls) (hw : m.order.varAt[l]? = some w) :
    (w, b) ∈ m.named ls ↔ (l, b) ∈ ls := by
  rw [named, List.mem_map]
  constructor
  · rintro ⟨⟨k, c⟩, hx, heq⟩
    obtain ⟨v, hv, hget, -⟩ := hm.order.getD_varAt (hls.lt _ hx)
    obtain ⟨rfl, rfl⟩ := Prod.mk.inj (hget ▸ heq)
    obtain rfl := Option.some.inj ((hm.order.levelOf_varAt hv).symm.trans (hm.order.levelOf_varAt hw))
    exact hx
  · intro hx
    refine ⟨(l, b), hx, ?_⟩
    rw [Array.getD_eq_getD_getElem?, hw]
    rfl

theorem Sound.named_lt (hm : m.Sound) (hls : m.Threads ls) : ∀ x ∈ m.named ls, x.1 < m.varNum := by
  intro x hx
  obtain ⟨y, hy, rfl⟩ := List.mem_map.mp hx
  obtain ⟨v, -, hget, -, hlt⟩ := hm.order.getD_varAt (hls.lt y hy)
  exact hget ▸ hlt

theorem Sound.nodup_named (hm : m.Sound) (hls : m.Threads ls) :
    ((m.named ls).map Prod.fst).Nodup := by
  have hmap : (m.named ls).map Prod.fst = (ls.map Prod.fst).map fun l => m.order.varAt.getD l 0 := by
    rw [named, List.map_map, List.map_map]
    rfl
  rw [hmap]
  refine List.Nodup.map_on (fun k hk l hl heq => ?_) (hls.sorted.imp Nat.ne_of_lt)
  obtain ⟨x, hx, rfl⟩ := List.mem_map.mp hk
  obtain ⟨y, hy, rfl⟩ := List.mem_map.mp hl
  obtain ⟨v, -, hv, hk, -⟩ := hm.order.getD_varAt (hls.lt x hx)
  obtain ⟨w, -, hw, hl, -⟩ := hm.order.getD_varAt (hls.lt y hy)
  rw [hv, hw] at heq
  subst heq
  exact Option.some.inj (hk.symm.trans hl)

/-- The value that a variable has in the item of a path. -/
theorem Sound.lookup_named (hm : m.Sound) (hls : m.Threads ls) (hw : m.order.varAt[l]? = some w) :
    (assigning m.varNum (m.named ls))[w]? = some ((m.named ls).lookup w) ∧
      ∀ b, (m.named ls).lookup w = some b ↔ (l, b) ∈ ls := by
  have hlt := (Array.getElem?_eq_some_iff.mp (hm.order.levelOf_varAt hw)).1
  rw [hm.order.size] at hlt
  exact ⟨getElem?_assigning (hm.nodup_named hls) hlt, fun b =>
    (lookup_eq_some (hm.nodup_named hls)).trans (hm.mem_named hls hw)⟩

/-- Before the level at which two paths part, they have the same literals. -/
theorem mem_of_lt {c p : List (Level × Bool)} {x : Bool}
    (hsorted : ((c ++ (k, x) :: p).map Prod.fst).Pairwise (· < ·)) (hlt : l < k) :
    (l, b) ∈ c ++ (k, x) :: p ↔ (l, b) ∈ c := by
  rw [List.map_append, List.map_cons] at hsorted
  have hbelow := (List.pairwise_cons.mp (List.pairwise_append.mp hsorted).2.1).1
  rw [List.mem_append, List.mem_cons]
  refine ⟨fun h => h.elim id fun h => ?_, .inl⟩
  rcases h with heq | h
  · cases heq
    exact absurd hlt (Nat.lt_irrefl k)
  · exact absurd (hbelow l (List.mem_map.mpr ⟨_, h, rfl⟩)) (Nat.lt_asymm hlt)

/-- The items of two paths are in the order in which the paths part. -/
theorem Sound.precedes (hm : m.Sound) {ls ls' : List (Level × Bool)} (hls : m.Threads ls)
    (hls' : m.Threads ls') (h : Tree.Parts ls ls') :
    m.Precedes (assigning m.varNum (m.named ls)) (assigning m.varNum (m.named ls')) := by
  obtain ⟨c, k, p, q, rfl, rfl⟩ := h.exists_common
  obtain ⟨v, hv, -⟩ := hm.order.getD_varAt (hls.lt (k, false) (List.mem_append_right _ List.mem_cons_self))
  obtain ⟨hget, hvalue⟩ := hm.lookup_named hls hv
  obtain ⟨hget', hvalue'⟩ := hm.lookup_named hls' hv
  refine ⟨k, v, hv, ?_, ?_, fun j w hj hw => ?_⟩
  · rw [hget, (hvalue false).mpr (by simp)]
  · rw [hget', (hvalue' true).mpr (by simp)]
  · obtain ⟨hget, hvalue⟩ := hm.lookup_named hls hw
    obtain ⟨hget', hvalue'⟩ := hm.lookup_named hls' hw
    rw [hget, hget']
    refine congrArg some (Option.ext fun b => ?_)
    rw [hvalue, hvalue', mem_of_lt hls.sorted hj, mem_of_lt hls'.sorted hj]

/-- An assignment extends the item of a path if it satisfies the literals of the path. -/
theorem Sound.extends_iff (hm : m.Sound) (hls : m.Threads ls) (ha : m.varNum ≤ assignment.size) :
    Extends assignment (assigning m.varNum (m.named ls)) ↔
      ∀ x ∈ ls, valuation assignment (m.order.varAt.getD x.1 0) = x.2 := by
  have hvalue : ∀ {v : Var}, v < m.varNum → assignment[v]? = some (valuation assignment v) :=
    fun hv => getElem?_eq_valuation (Nat.lt_of_lt_of_le hv ha)
  constructor
  · intro h x hx
    obtain ⟨v, hv, hget, -, hlt⟩ := hm.order.getD_varAt (hls.lt x hx)
    obtain ⟨hitem, hmem⟩ := hm.lookup_named hls hv
    have hvx := h v x.2 (by rw [hitem, (hmem x.2).mpr hx])
    rw [hget]
    exact Option.some.inj ((hvalue hlt).symm.trans hvx)
  · intro h v b hvb
    have hlt : v < m.varNum := by
      have := (Array.getElem?_eq_some_iff.mp hvb).1
      rwa [size_assigning] at this
    obtain ⟨l, hl, -, hat, -⟩ := hm.order.getD_levelOf hlt
    obtain ⟨hitem, hmem⟩ := hm.lookup_named hls hat
    have hx := (hmem b).mp (Option.some.inj (hitem.symm.trans hvb))
    have hvb : valuation assignment (m.order.varAt.getD l 0) = b := h (l, b) hx
    rw [Array.getD_eq_getD_getElem?, hat] at hvb
    rw [hvalue hlt]
    exact congrArg some hvb

/-- The items of a live node: their number of free variables, their order, and what extends them. -/
theorem Sound.items_spec (hm : m.Sound) (hf : m.diagram.Live f) :
    (∀ p ∈ m.items [] f, p.size = m.varNum) ∧ (m.items [] f).Pairwise m.Precedes ∧
      (∀ assignment : Array Bool, m.varNum ≤ assignment.size →
        (m.eval f assignment = .ok true ↔ ∃ p ∈ m.items [] f, Extends assignment p)) ∧
      ((m.items [] f).map fun p => 2 ^ p.count none).sum =
        ((m.diagram.tree f).models m.varNum).card := by
  have hthreads : ∀ ls ∈ (m.diagram.tree f).paths, m.Threads ls := fun _ => hm.threads hf
  refine ⟨fun p hp => ?_, ?_, fun assignment ha => ?_, ?_⟩
  · obtain ⟨ls, -, rfl⟩ := List.mem_map.mp hp
    exact size_assigning _ _
  · refine List.pairwise_map.mpr ((Tree.pairwise_paths _).imp_of_mem fun hls hls' h => ?_)
    exact hm.precedes (hthreads _ hls) (hthreads _ hls') h
  · rw [hm.eval_eq hf ha, Except.ok.injEq, meaning, Tree.eval_iff_paths]
    simp only [items, List.mem_map, exists_exists_and_eq_and, List.nil_append]
    refine exists_congr fun ls => and_congr_right fun hls => ?_
    exact (hm.extends_iff (hthreads ls hls) ha).symm
  · rw [items, List.map_map, ← (hm.tree_between hf).weight_eq_card, (hm.tree_between hf).sum_paths]
    refine congrArg List.sum (List.map_congr_left fun ls hls => ?_)
    have hcount := count_none_assigning (hm.nodup_named (hthreads ls hls)) (hm.named_lt (hthreads ls hls))
    rw [Function.comp_apply, List.nil_append, hcount, named, List.length_map]

/-! ### Paths of a node -/

/-- The search for the satisfying paths of a live node comes to an end.  The cubes that it finds are
disjoint and in lexicographic order, an assignment satisfies the node if and only if it extends one of
them, and together they have as many extensions as the exact count says.  A bounded enumeration answers
as many of them as are asked for. -/
theorem Settled.path_cover (hm : m.Settled) (hf : m.store.isLive f = true) :
    ∃ cubes : List PartialAssignment, m.Yields (.start f) cubes ∧
      (∀ limit, m.allSat f limit = .ok (cubes.take limit)) ∧
      (∀ p ∈ cubes, p.size = m.varNum) ∧ cubes.Pairwise Excludes ∧ cubes.Pairwise m.Precedes ∧
      (∀ assignment : Array Bool, m.varNum ≤ assignment.size →
        (m.eval f assignment = .ok true ↔ ∃! p, p ∈ cubes ∧ Extends assignment p)) ∧
      m.satCountExact f = .ok (cubes.map fun p => 2 ^ p.count none).sum := by
  have hsound := hm.ready.toSound
  have hlive := hsound.store.live_iff.mpr hf
  obtain ⟨hsize, horder, hcover, hsum⟩ := hsound.items_spec hlive
  have hdisjoint : (m.items [] f).Pairwise Excludes := horder.imp fun h => h.excludes
  refine ⟨m.items [] f, hsound.yields_start hlive, hsound.allSat_eq hlive, hsize, hdisjoint, horder,
    fun assignment ha => ?_, ?_⟩
  · rw [hcover assignment ha]
    refine ⟨fun ⟨p, hp, hext⟩ => ⟨p, ⟨hp, hext⟩, fun q ⟨hq, hext'⟩ => ?_⟩, ExistsUnique.exists⟩
    by_contra hne
    have : Std.Symm Excludes := ⟨fun _ _ h => h.symm⟩
    exact (hdisjoint.forall hq hp hne).not_extends hext' hext
  · rw [hsound.satCountExact_eq hlive, hsum]

/-- Of three variables in reversed order, a disjunction of the lower two. -/
theorem path_cover_reversed :
    ∃ m, after (.small 16 0) [.setVarNum 3, .swapVar 0 2, .apply .or 2 4] = some m ∧
      m.Yields (.start 8) [#[some true, some false, none], #[none, some true, none]] ∧
      m.satCountExact 8 = .ok 6 := by
  have hrun : (after (.small 16 0) [.setVarNum 3, .swapVar 0 2, .apply .or 2 4]).any fun m =>
      m.store.isLive 8 &&
        match m.allSat 8 3 with
        | .ok cubes => cubes == [#[some true, some false, none], #[none, some true, none]]
        | .error _ => false := by
    decide +kernel
  obtain ⟨m, hm, hrun⟩ := (Option.any_eq_true _ _).mp hrun
  obtain ⟨hlive, hrun⟩ := Bool.and_eq_true_iff.mp hrun
  split at hrun
  · rename_i answered hanswered
    obtain rfl := eq_of_beq hrun
    obtain ⟨cubes, hyields, htake, -, -, -, -, hcount⟩ := (settled_after hm).path_cover hlive
    have hthree := Except.ok.inj ((htake 3).symm.trans hanswered)
    -- There would be a third cube if there were more than two.
    have hlength : cubes.length = 2 := by
      have := congrArg List.length hthree
      rw [List.length_take] at this
      simp at this
      omega
    rw [List.take_of_length_le (by omega)] at hthree
    subst hthree
    exact ⟨m, hm, hyields, hcount⟩
  · cases hrun

end Manager

end DecisionDiagram
