/-
The quantifiers are right.

The set of the quantified levels is read off the cube; it lists the spine of the cube's tree.

* `LevelSet.Lists` — a set that has the given levels for members;
* `Program.Yields.quantify`, `.unique` — the recursions on one operand;
* `Program.Yields.applyQuantify`, `.applyUnique` — those on the operands of a connective.
-/
import DecisionDiagram.Operator.Quantify
import DecisionDiagram.Proofs.Operator.Connective

namespace DecisionDiagram

open Manager

/-! ### Sets of levels -/

/-- The members of the set are the given levels. -/
structure LevelSet.Lists (s : LevelSet) (ks : List Level) : Prop where
  contains : ∀ k, s.contains k = true ↔ k ∈ ks
  above : ∀ k, s.isAbove k = true → ∀ j ∈ ks, j < k

theorem Quantifier.apply_self {q : Quantifier} (hq : q ≠ .unique) {k : Level} {t : Tree}
    (ht : t.Proper k) : Tree.apply q.connective t t = t := by
  cases q
  · exact Tree.apply_self_or ht
  · exact Tree.apply_self_and ht
  · exact absurd rfl hq

namespace Program

variable {S : Scope} {m : Manager} {k n : Nat} {f l r cube : NodeId} {set : LevelSet}
  {ks : List Level} {s t : Tree} {low high : Program NodeId}

/-- The levels of a cube are read off its spine, from the top. -/
theorem observes_collectLevels (hm : m.Sound) {id : NodeId} (hid : m.Operand k id)
    (hn : m.varNum < n + k) (hset : set.Lists ks) (hks : ∀ j ∈ ks, j < k) :
    Observes m (collectLevels n id set) fun s =>
      s.cube = set.cube ∧ s.Lists (ks ++ (m.diagram.tree id).spine) := by
  induction n generalizing k id set ks with
  | zero =>
    have := hid.le
    lia
  | succ n ih =>
    rw [collectLevels]
    by_cases ht : id.isTerminal = true
    · rw [if_pos ht, hm.reduced.tree_terminal ht, Tree.spine, List.append_nil]
      exact ⟨rfl, hset⟩
    · rw [if_neg ht]
      refine .node hm hid.live fun nd hread => ?_
      have hd := hread.inner (Bool.eq_false_iff.mpr ht)
      have hk := hid.le_level hread
      rw [hm.reduced.tree_node hd, Tree.spine, List.append_cons]
      refine ih (hid.child hm hd true) (by lia) ⟨fun j => ?_, fun i hi j hj => ?_⟩ fun j hj => ?_
      · simp only [LevelSet.contains, BitSet.contains_insert, List.mem_append, List.mem_singleton,
          ← hset.contains, Bool.or_eq_true]
        lia
      · -- The level that was added last is the lowest.
        have hlast : nd.level < i := of_decide_eq_true hi
        rcases List.mem_append.mp hj with hj | hj
        · have := hks j hj
          lia
        · rw [List.mem_singleton.mp hj]
          exact hlast
      · rcases List.mem_append.mp hj with hj | hj
        · have := hks j hj
          lia
        · rw [List.mem_singleton.mp hj]
          lia

theorem observes_levelSet (hm : m.Sound) (hcube : m.Kept cube) :
    Observes m (levelSet cube) fun s =>
      s.cube = cube ∧ s.Lists (m.diagram.tree cube).spine := by
  have hdepth : m.depth = m.varNum + 2 := rfl
  refine .check hm (hm.kept_live hcube) ⟨rfl, _, rfl, rfl, _, rfl, ?_⟩
  have hempty : LevelSet.Lists ⟨cube, BitSet.ofCapacity m.varNum, none⟩ [] :=
    ⟨fun j => by simp [LevelSet.contains], by simp⟩
  exact observes_collectLevels hm (hm.operand hcube) (by lia) hempty (by simp)

/-! ### What the recursions name -/

theorem Tidy.quantify {q : Quantifier} (hf : f ∈ S) (hcube : set.cube ∈ S) :
    Tidy S (Program.quantify q set f n) := by
  induction n generalizing S f with
  | zero => exact .fault
  | succ n ih =>
    rw [Program.quantify]
    refine .node hf fun nf hS hl hh => ?_
    split
    · exact .pure (hS f hf)
    · refine .memo (by simpa [Query.nodes] using ⟨hS f hf, hS _ hcube⟩) ?_
      refine .branch (ih hl (hS _ hcube)) (ih hh (hS _ hcube)) fun low high _ hl hh => ?_
      split
      · exact .depth fun _ => .apply hl hh
      · exact .make _ hl hh

theorem Tidy.unique (hf : f ∈ S) (hcube : cube ∈ S) : Tidy S (Program.unique f cube n) := by
  induction n generalizing S f cube with
  | zero => exact .fault
  | succ n ih =>
    rw [Program.unique]
    refine .node hf fun nf hS hl hh => .node (hS _ hcube) fun nc hS' _ hch => ?_
    have hf := hS' _ (hS _ hf)
    have hcube := hS' _ (hS _ hcube)
    have hl := hS' _ hl
    have hh := hS' _ hh
    split
    · exact .pure (Scope.terminal _ rfl)
    split
    · exact .pure hf
    refine .memo (by simpa [Query.nodes] using ⟨hf, hcube⟩) ?_
    split
    · exact .branch (ih hl hch) (ih hh hch) fun _ _ _ hl hh => .depth fun _ => .apply hl hh
    · exact .branch (ih hl hcube) (ih hh hcube) fun _ _ _ hl hh => .make _ hl hh

theorem Tidy.applyQuantify {q : Quantifier} {op : Connective} (hl : l ∈ S) (hr : r ∈ S)
    (hcube : set.cube ∈ S) : Tidy S (Program.applyQuantify q op set l r n) := by
  induction n generalizing S l r with
  | zero => exact .fault
  | succ n ih =>
    rw [Program.applyQuantify]
    split
    · rename_i res hs
      refine .depth fun _ => .quantify ?_ hcube
      rcases Connective.shortcut_mem hs with rfl | rfl | ht
      · exact hl
      · exact hr
      · exact S.terminal ht
    · refine .node hl fun nl hS hll hlh => .node (hS r hr) fun nr hS' hrl hrh => ?_
      have hl := hS' l (hS l hl)
      have hr := hS' r (hS r hr)
      have hcube := hS' _ (hS _ hcube)
      split
      · exact .depth fun _ => .apply hl hr
      refine .memo (by simpa [Query.nodes] using ⟨hl, hr, hcube⟩) ?_
      simp only [Node.cofactors_eq]
      have cl := fun b => cofactor_mem (min nl.level nr.level) hl (hS' _ hll) (hS' _ hlh) b
      have cr := fun b => cofactor_mem (min nl.level nr.level) hr hrl hrh b
      refine .branch (ih (cl false) (cr false) hcube) (ih (cl true) (cr true) hcube)
        fun _ _ _ hl hh => ?_
      split
      · exact .depth fun _ => .apply hl hh
      · exact .make _ hl hh

theorem Tidy.applyUnique {op : Connective} (hl : l ∈ S) (hr : r ∈ S) (hcube : cube ∈ S) :
    Tidy S (Program.applyUnique op l r cube n) := by
  induction n generalizing S l r cube with
  | zero => exact .fault
  | succ n ih =>
    rw [Program.applyUnique]
    refine .node hl fun nl hS hll hlh => .node (hS r hr) fun nr hS' hrl hrh =>
      .node (hS' _ (hS _ hcube)) fun nc hS'' _ hch => ?_
    have hl := hS'' _ (hS' l (hS l hl))
    have hr := hS'' _ (hS' r (hS r hr))
    have hcube := hS'' _ (hS' _ (hS _ hcube))
    split
    · exact .pure (Scope.terminal _ rfl)
    split
    · exact .pure (Scope.terminal _ (by cases op.eval l.isTop r.isTop <;> rfl))
    split
    · exact .depth fun _ => .apply hl hr
    refine .memo (by simpa [Query.nodes] using ⟨hl, hr, hcube⟩) ?_
    simp only [Node.cofactors_eq]
    have cl := fun b => cofactor_mem (min nl.level nr.level) hl (hS'' _ (hS' _ hll))
      (hS'' _ (hS' _ hlh)) b
    have cr := fun b => cofactor_mem (min nl.level nr.level) hr (hS'' _ hrl)
      (hS'' _ hrh) b
    split
    · exact .branch (ih (cl false) (cr false) hch) (ih (cl true) (cr true) hch)
        fun _ _ _ hl hh => .depth fun _ => .apply hl hh
    · exact .branch (ih (cl false) (cr false) hcube) (ih (cl true) (cr true) hcube)
        fun _ _ _ hl hh => .make _ hl hh

/-! ### The recursions -/

/-- Branches joined by a connective. -/
theorem Yields.joined (op : Connective) (hm : m.Sound) (hlow : Yields m low (· = s))
    (hhigh : ∀ m', m.Evolves m' → m'.Sound → Yields m' high (· = t))
    (thigh : Tidy m.scope high) :
    Yields m (Program.branch low high fun l h => do Program.apply op l h (← Program.depth))
      (· = Tree.apply op s t) := by
  refine .branch hm hlow hhigh thigh (fun l h _ hl hh => .depth fun _ => .apply hl hh) ?_
  rintro m' l h - hm' hl hh rfl rfl
  exact .depth hm' (.apply_depth hm' hl hh)

/-- Branches joined by a connective at a quantified level, and by a node elsewhere. -/
theorem Yields.joinedAt (op : Connective) {b : Bool} {level : Level} (hm : m.Sound)
    (hlevel : level < m.varNum) (hs : s.Proper (level + 1)) (ht : t.Proper (level + 1))
    (hlow : Yields m low (· = s))
    (hhigh : ∀ m', m.Evolves m' → m'.Sound → Yields m' high (· = t))
    (thigh : Tidy m.scope high) :
    Yields m
      (Program.branch low high fun l h => do
        if b then Program.apply op l h (← Program.depth) else Program.mk level l h)
      (· = if b then Tree.apply op s t else Tree.make level s t) := by
  cases b
  · exact .split hm hlevel hs ht hlow hhigh thigh
  · exact .joined op hm hlow hhigh thigh

theorem Yields.quantify {q : Quantifier} (hq : q ≠ .unique) (hm : m.Sound) (hset : set.Lists ks)
    (hcube : m.Kept set.cube) (hks : (m.diagram.tree set.cube).spine = ks) (hf : m.Operand k f)
    (hn : m.varNum < n + k) :
    Yields m (Program.quantify q set f n)
      (· = Tree.quantify q.connective ks (m.diagram.tree f)) := by
  induction n generalizing m k f with
  | zero =>
    have := hf.le
    lia
  | succ n ih =>
    rw [Program.quantify]
    refine .node hm hf.live fun nf hnf => ?_
    split
    · -- Nothing is quantified from `f` on.
      rename_i hstop
      refine .pure hm hf.live ?_
      rcases Bool.or_eq_true_iff.mp hstop with ht | habove
      · rw [hm.reduced.tree_terminal ht]
        rfl
      · exact (((hf.lower hm hnf (Nat.le_refl _)).proper hm).quantify_eq (hset.above _ habove)).symm
    rename_i hgo
    rw [Bool.or_eq_true_iff, not_or] at hgo
    have ht := Bool.eq_false_iff.mpr hgo.1
    refine (Yields.memo (q := .quantify q f set.cube) hm
      (by simpa [Query.nodes] using ⟨hf.kept, hcube⟩) fun m' he hm' => ?_).mono ?_
    · have hf' := hf.evolves he
      have hnf' := hnf.evolves he hf.kept
      have hd := hnf'.inner ht
      have hlt := hnf'.lt hm' ht
      have hk := hf'.le_level hnf'
      have hvar := he.varNum
      have hks' := (congrArg Tree.spine (hm.tree hm' he hcube)).trans hks
      have child := fun b => hf'.child hm' hd b
      have side := fun b => ((child b).proper hm').quantify q.connective ks
      refine (Yields.joinedAt q.connective hm' hlt (side false) (side true)
        (ih hm' (he.of_kept hcube) hks' (child false) (by lia)) (fun m'' he' hm'' => ?_)
        (.quantify (child true).kept (he.of_kept hcube))).mono ?_
      · have hvar' := he'.varNum
        rw [← hm'.tree hm'' he' (child true).kept]
        exact ih hm'' (he'.of_kept (he.of_kept hcube))
          ((congrArg Tree.spine (hm'.tree hm'' he' (he.of_kept hcube))).trans hks')
          ((child true).evolves he') (by lia)
      · rintro t rfl
        rw [Tells, Query.Tells, Tree.quantifyCube_of_ne hq, hks', hm'.reduced.tree_node hd,
          Tree.quantify]
        simp only [← hset.contains]
        rfl
    · intro t h
      rw [Tells, Query.Tells, Tree.quantifyCube_of_ne hq, hks] at h
      exact h

theorem Yields.quantify_depth {q : Quantifier} (hq : q ≠ .unique) (hm : m.Sound)
    (hset : set.Lists ks) (hcube : m.Kept set.cube) (hks : (m.diagram.tree set.cube).spine = ks)
    (hf : m.Kept f) :
    Yields m (Program.quantify q set f m.depth)
      (· = Tree.quantify q.connective ks (m.diagram.tree f)) := by
  have hdepth : m.depth = m.varNum + 2 := rfl
  exact .quantify hq hm hset hcube hks (hm.operand hf) (by lia)

/-- A node above the levels of a cube is the next one of its spine. -/
theorem spine_of_inner (hm : m.Sound) {nc : Node} (hnc : m.Reads cube nc)
    (ht : cube.isTerminal = false) :
    (m.diagram.tree cube).spine = nc.level :: (m.diagram.tree nc.high).spine := by
  rw [hm.reduced.tree_node (hnc.inner ht), Tree.spine]

theorem spine_of_terminal (hm : m.Sound) (ht : cube.isTerminal = true) :
    (m.diagram.tree cube).spine = [] := by
  rw [hm.reduced.tree_terminal ht, Tree.spine]

theorem Yields.unique (hm : m.Sound) (hf : m.Operand k f) (hcube : m.Kept cube)
    (hn : m.varNum < n + k) :
    Yields m (Program.unique f cube n)
      (· = Tree.unique (m.diagram.tree f) (m.diagram.tree cube).spine) := by
  induction n generalizing m k f cube with
  | zero =>
    have := hf.le
    lia
  | succ n ih =>
    rw [Program.unique]
    refine .node hm hf.live fun nf hnf => .node hm (hm.kept_live hcube) fun nc hnc => ?_
    have hle := hnf.level_le hm
    split
    · -- Nothing depends on the first variable of the cube.
      rename_i hlt
      have htc := hnc.inner_of_lt (by lia)
      refine .pure hm (.inl rfl) ?_
      rw [spine_of_inner hm hnc htc, ((hf.lower hm hnf hlt).proper hm).unique_eq, hm.reduced.tree_bot]
    rename_i hge
    split
    · rename_i hstop
      have htc : cube.isTerminal = true := by
        rcases Bool.or_eq_true_iff.mp hstop with ht | ht
        · have := hnf.terminal ht
          by_contra htc
          have := hnc.lt hm (Bool.eq_false_iff.mpr htc)
          lia
        · exact ht
      refine .pure hm hf.live ?_
      rw [spine_of_terminal hm htc, Tree.unique]
    rename_i hgo
    rw [Bool.or_eq_true_iff, not_or] at hgo
    have ht := Bool.eq_false_iff.mpr hgo.1
    have htc := Bool.eq_false_iff.mpr hgo.2
    refine Yields.memo (q := .quantify .unique f cube) hm
      (by simpa [Query.nodes] using ⟨hf.kept, hcube⟩) fun m' he hm' => ?_
    have hf' := hf.evolves he
    have hnf' := hnf.evolves he hf.kept
    have hnc' := hnc.evolves he hcube
    have hc := he.of_kept hcube
    have hd := hnf'.inner ht
    have hlt := hnf'.lt hm' ht
    have hk := hf'.le_level hnf'
    have hvar := he.varNum
    have child := fun b => hf'.child hm' hd b
    have hrest : m'.Kept nc.high := hc.child (hnc'.inner htc) true
    -- The branches are quantified by a cube that both of them see, or by the rest of it.
    have side := fun b {c} (hc : m'.Kept c) => ih hm' (child b) hc (by lia)
    have later : ∀ {c} m'', m'.Kept c → m'.Evolves m'' → m''.Sound →
        Yields m'' (Program.unique (nf.child true) c n)
          (· = Tree.unique (m'.diagram.tree (nf.child true)) (m'.diagram.tree c).spine) := by
      intro c m'' hc he' hm''
      have hvar' := he'.varNum
      rw [← hm'.tree hm'' he' (child true).kept, ← hm'.tree hm'' he' hc]
      exact ih hm'' ((child true).evolves he') (he'.of_kept hc) (by lia)
    split
    · rename_i heq
      refine (Yields.joined .xor hm' (side false hrest) (later · hrest)
        (.unique (child true).kept hrest)).mono ?_
      rintro t rfl
      rw [Tells, Query.Tells, Tree.quantifyCube, hm'.reduced.tree_node hd,
        spine_of_inner hm' hnc' htc, Tree.unique, if_neg (by lia), if_pos heq.symm]
      rfl
    · have proper := fun b => ((child b).proper hm').unique (m'.diagram.tree cube).spine
      refine (Yields.split hm' hlt (proper false) (proper true) (side false hc) (later · hc)
        (.unique (child true).kept hc)).mono ?_
      rintro t rfl
      rw [Tells, Query.Tells, Tree.quantifyCube, hm'.reduced.tree_node hd,
        spine_of_inner hm' hnc' htc, Tree.unique, if_neg (by lia), if_neg (by lia)]
      rfl

/-! ### The recursions on a connective -/

section Connective

variable {q : Quantifier} {op : Connective} {nl nr : Node}

theorem Yields.applyQuantify (hq : q ≠ .unique) (hm : m.Sound) (hset : set.Lists ks)
    (hcube : m.Kept set.cube) (hks : (m.diagram.tree set.cube).spine = ks) (hl : m.Operand k l)
    (hr : m.Operand k r) (hn : m.varNum < n + k) :
    Yields m (Program.applyQuantify q op set l r n)
      (· = Tree.quantify q.connective ks
        (Tree.apply op (m.diagram.tree l) (m.diagram.tree r))) := by
  induction n generalizing m k l r with
  | zero =>
    have := hl.le
    lia
  | succ n ih =>
    rw [Program.applyQuantify]
    rcases hs : op.shortcut l r with _ | res
    · refine .node hm hl.live fun nl hnl => .node hm hr.live fun nr hnr => ?_
      have hlt := min_level_lt hm hnl hnr (Connective.not_terminal_of_shortcut hs)
      split
      · -- Nothing is quantified from the operands on.
        rename_i habove
        obtain ⟨hal, har⟩ := Bool.and_eq_true_iff.mp habove
        refine .depth hm ((Yields.apply_depth hm hl.kept hr.kept).mono ?_)
        rintro t rfl
        have pl := (hl.lower hm hnl (Nat.min_le_left _ nr.level)).proper hm
        have pr := (hr.lower hm hnr (Nat.min_le_right nl.level _)).proper hm
        refine ((pl.apply op pr).quantify_eq fun j hj => ?_).symm
        have := hset.above _ hal j hj
        have := hset.above _ har j hj
        lia
      refine (Yields.memo (q := .applyQuantify q op l r set.cube) hm
        (by simpa [Query.nodes] using ⟨hl.kept, hr.kept, hcube⟩) fun m' he hm' => ?_).mono ?_
      · simp only [Node.cofactors_eq]
        have hl' := hl.evolves he
        have hr' := hr.evolves he
        have hnl' := hnl.evolves he hl.kept
        have hnr' := hnr.evolves he hr.kept
        have hc := he.of_kept hcube
        have hks' := (congrArg Tree.spine (hm.tree hm' he hcube)).trans hks
        have hvar := he.varNum
        have hlt : min nl.level nr.level < m'.varNum := by lia
        have hkl := hl'.le_level hnl'
        have hkr := hr'.le_level hnr'
        have cl := fun b => hl'.cofactor hm' hnl' (Nat.min_le_left _ nr.level) hlt b
        have cr := fun b => hr'.cofactor hm' hnr' (Nat.min_le_right nl.level _) hlt b
        have below := fun b => Tree.Proper.apply op ((cl b).proper hm') ((cr b).proper hm')
        have side := fun b => (below b).quantify q.connective ks
        refine (Yields.joinedAt q.connective hm' hlt (side false) (side true)
          (ih hm' hc hks' (cl false) (cr false) (by lia)) (fun m'' he' hm'' => ?_)
          (.applyQuantify (cl true).kept (cr true).kept hc)).mono ?_
        · have hvar' := he'.varNum
          rw [← hm'.tree hm'' he' (cl true).kept, ← hm'.tree hm'' he' (cr true).kept]
          exact ih hm'' (he'.of_kept hc)
            ((congrArg Tree.spine (hm'.tree hm'' he' hc)).trans hks')
            ((cl true).evolves he') ((cr true).evolves he') (by lia)
        · rintro t rfl
          rw [Tells, Query.Tells, Tree.quantifyCube_of_ne hq, hks',
            tree_apply_split op hm' hl' hr' hnl' hnr' hlt,
            Tree.quantify_make (Quantifier.apply_self hq) (below false)]
          simp only [← hset.contains]
      · intro t h
        rw [Tells, Query.Tells, Tree.quantifyCube_of_ne hq, hks] at h
        exact h
    · obtain ⟨hlive, htree⟩ := hm.tree_shortcut hl.live hr.live hs
      have hres : m.Kept res := by
        rcases Connective.shortcut_mem hs with rfl | rfl | ht
        · exact hl.kept
        · exact hr.kept
        · exact kept_of_terminal ht
      rw [← htree]
      exact .depth hm (.quantify_depth hq hm hset hcube hks hres)

theorem Yields.applyUnique (hm : m.Sound) (hl : m.Operand k l) (hr : m.Operand k r)
    (hcube : m.Kept cube) (hn : m.varNum < n + k) :
    Yields m (Program.applyUnique op l r cube n)
      (· = Tree.unique (Tree.apply op (m.diagram.tree l) (m.diagram.tree r))
        (m.diagram.tree cube).spine) := by
  induction n generalizing m k l r cube with
  | zero =>
    have := hl.le
    lia
  | succ n ih =>
    rw [Program.applyUnique]
    refine .node hm hl.live fun nl hnl => .node hm hr.live fun nr hnr =>
      .node hm (hm.kept_live hcube) fun nc hnc => ?_
    have hle := hnl.level_le hm
    split
    · -- Nothing depends on the first variable of the cube.
      rename_i hlt
      rw [Bool.and_eq_true_iff, decide_eq_true_eq, decide_eq_true_eq] at hlt
      have htc := hnc.inner_of_lt (by lia)
      have pl := (hl.lower hm hnl hlt.1).proper hm
      have pr := (hr.lower hm hnr hlt.2).proper hm
      refine .pure hm (.inl rfl) ?_
      rw [spine_of_inner hm hnc htc, (pl.apply op pr).unique_eq, hm.reduced.tree_bot]
    rename_i hge
    rw [Bool.and_eq_true_iff, decide_eq_true_eq, decide_eq_true_eq] at hge
    split
    · rename_i hterm
      have htc : cube.isTerminal = true := by
        obtain ⟨hlt, hrt⟩ := Bool.and_eq_true_iff.mp hterm
        have := hnl.terminal hlt
        have := hnr.terminal hrt
        by_contra htc
        have := hnc.lt hm (Bool.eq_false_iff.mpr htc)
        lia
      have hs : op.shortcut l r = some (NodeId.ofBool (op.eval l.isTop r.isTop)) := if_pos hterm
      obtain ⟨hlive, htree⟩ := hm.tree_shortcut hl.live hr.live hs
      refine .pure hm hlive ?_
      rw [spine_of_terminal hm htc, Tree.unique, htree]
    rename_i hinner
    rw [Bool.and_eq_true_iff, not_and_or, Bool.not_eq_true, Bool.not_eq_true] at hinner
    have hlt := min_level_lt hm hnl hnr hinner
    split
    · rename_i htc
      refine .depth hm ((Yields.apply_depth hm hl.kept hr.kept).mono ?_)
      rintro t rfl
      rw [spine_of_terminal hm htc, Tree.unique]
    rename_i htc
    have htc := Bool.eq_false_iff.mpr htc
    refine Yields.memo (q := .applyQuantify .unique op l r cube) hm
      (by simpa [Query.nodes] using ⟨hl.kept, hr.kept, hcube⟩) fun m' he hm' => ?_
    simp only [Node.cofactors_eq]
    have hl' := hl.evolves he
    have hr' := hr.evolves he
    have hnl' := hnl.evolves he hl.kept
    have hnr' := hnr.evolves he hr.kept
    have hnc' := hnc.evolves he hcube
    have hc := he.of_kept hcube
    have hvar := he.varNum
    have hlt : min nl.level nr.level < m'.varNum := by lia
    have hkl := hl'.le_level hnl'
    have hkr := hr'.le_level hnr'
    have hrest : m'.Kept nc.high := hc.child (hnc'.inner htc) true
    have cl := fun b => hl'.cofactor hm' hnl' (Nat.min_le_left _ nr.level) hlt b
    have cr := fun b => hr'.cofactor hm' hnr' (Nat.min_le_right nl.level _) hlt b
    have below := fun b => Tree.Proper.apply op ((cl b).proper hm') ((cr b).proper hm')
    -- The branches are quantified by a cube that both of them see, or by the rest of it.
    have side := fun b {c} (hc : m'.Kept c) => ih hm' (cl b) (cr b) hc (by lia)
    have later : ∀ {c} m'', m'.Kept c → m'.Evolves m'' → m''.Sound →
        Yields m'' (Program.applyUnique op (nl.cofactor l (min nl.level nr.level) true)
            (nr.cofactor r (min nl.level nr.level) true) c n)
          (· = Tree.unique
            (Tree.apply op (m'.diagram.tree (nl.cofactor l (min nl.level nr.level) true))
              (m'.diagram.tree (nr.cofactor r (min nl.level nr.level) true)))
            (m'.diagram.tree c).spine) := by
      intro c m'' hc he' hm''
      have hvar' := he'.varNum
      rw [← hm'.tree hm'' he' (cl true).kept, ← hm'.tree hm'' he' (cr true).kept,
        ← hm'.tree hm'' he' hc]
      exact ih hm'' ((cl true).evolves he') ((cr true).evolves he') (he'.of_kept hc) (by lia)
    have split := tree_apply_split op hm' hl' hr' hnl' hnr' hlt
    split
    · rename_i heq
      refine (Yields.joined .xor hm' (side false hrest) (later · hrest)
        (.applyUnique (cl true).kept (cr true).kept hrest)).mono ?_
      rintro t rfl
      rw [Tells, Query.Tells, Tree.quantifyCube, split, spine_of_inner hm' hnc' htc, ← heq,
        Tree.unique_make (below false)]
    · have proper := fun b => (below b).unique (m'.diagram.tree cube).spine
      refine (Yields.split hm' hlt (proper false) (proper true) (side false hc) (later · hc)
        (.applyUnique (cl true).kept (cr true).kept hc)).mono ?_
      rintro t rfl
      rw [Tells, Query.Tells, Tree.quantifyCube, split, spine_of_inner hm' hnc' htc,
        Tree.unique_make_of_lt (by lia)]

end Connective

/-! ### The operators -/

theorem Yields.quantifyCube (q : Quantifier) (hm : m.Sound) (hf : m.Kept f) (hcube : m.Kept cube) :
    Yields m (Program.quantifyCube q f cube m.depth)
      (· = Tree.quantifyCube q (m.diagram.tree f) (m.diagram.tree cube)) := by
  have hdepth : m.depth = m.varNum + 2 := rfl
  refine .observe hm (observes_levelSet hm hcube) ?_
  rintro set ⟨rfl, hset⟩
  cases q with
  | unique => exact .unique hm (hm.operand hf) hcube (by lia)
  | _ => exact .quantify_depth nofun hm hset hcube rfl hf

theorem Yields.applyQuantifyCube (q : Quantifier) (op : Connective) (hm : m.Sound) (hl : m.Kept l)
    (hr : m.Kept r) (hcube : m.Kept cube) :
    Yields m (Program.applyQuantifyCube q op l r cube m.depth)
      (· = Tree.quantifyCube q (Tree.apply op (m.diagram.tree l) (m.diagram.tree r))
        (m.diagram.tree cube)) := by
  have hdepth : m.depth = m.varNum + 2 := rfl
  refine .observe hm (observes_levelSet hm hcube) ?_
  rintro set ⟨rfl, hset⟩
  cases q with
  | unique => exact .applyUnique hm (hm.operand hl) (hm.operand hr) hcube (by lia)
  | _ => exact .applyQuantify nofun hm hset hcube rfl (hm.operand hl) (hm.operand hr) (by lia)

end Program

end DecisionDiagram
