/-
The cofactors are right.

* `Valuation.Fixes` — a valuation that fixes the given levels to the given values;
* `Program.Yields.restrict` — restriction to a cube of literals;
* `Program.Undecided` — an operand and a care set that the recursions split;
* `Program.Yields.constrain`, `.simplify` — the generalised cofactors.
-/
import DecisionDiagram.Operator.Cofactor
import DecisionDiagram.Proofs.Operator.Connective

namespace DecisionDiagram

open Manager

/-! ### Cubes of literals -/

/-- The valuation fixes the levels in the way that `fix` says. -/
structure Valuation.Fixes (v : Valuation) (fix : Level → Option Bool) : Prop where
  levels : ∀ k, v.levels.contains k = (fix k).isSome
  positive : ∀ k, v.positive.contains k = (fix k).getD false
  above : ∀ k, v.isAbove k = true → ∀ j, k ≤ j → fix j = none

namespace Program

variable {S : Scope} {m : Manager} {k n : Nat} {f c d cube : NodeId} {v : Valuation}
  {fix : Level → Option Bool}

/-- A literal is added to a valuation. -/
theorem fixes_insert (hv : v.Fixes fix) {j : Level} (hfix : ∀ i, j ≤ i → fix i = none) (b : Bool) :
    Valuation.Fixes
      ⟨v.cube, v.levels.insert j, if b then v.positive.insert j else v.positive, some j⟩
      fun i => (fix i).or (if i = j then some b else none) := by
  refine ⟨fun i => ?_, fun i => ?_, fun i hi i' hle => ?_⟩
  · simp only [BitSet.contains_insert, hv.levels, Option.isSome_or]
    by_cases hij : i = j
    · simp [hij]
    · simp [hij]
  · by_cases hij : i = j
    · subst hij
      cases b <;> simp [hv.positive, hfix i (Nat.le_refl i)]
    · cases b <;> simp [hv.positive, hij]
  · have hlast : j < i := of_decide_eq_true hi
    rw [hfix i' (by lia), if_neg (by lia), Option.none_or]

/-- The literals of a cube are read off its tree, from the top. -/
theorem observes_collectLiterals (hm : m.Sound) {id : NodeId} (hid : m.Operand k id)
    (hn : m.varNum < n + k) (hv : v.Fixes fix) (hfix : ∀ j, k ≤ j → fix j = none) :
    Observes m (collectLiterals n id v) fun v' =>
      v'.cube = v.cube ∧ v'.Fixes fun j => (fix j).or ((m.diagram.tree id).fixes j) := by
  induction n generalizing k id v fix with
  | zero =>
    have := hid.le
    lia
  | succ n ih =>
    rw [collectLiterals]
    by_cases ht : id.isTerminal = true
    · rw [if_pos ht, hm.reduced.tree_terminal ht]
      simp only [Tree.fixes, Option.or_none]
      exact ⟨rfl, hv⟩
    · rw [if_neg ht]
      refine .node hm hid.live fun nd hread => ?_
      have hd := hread.inner (Bool.eq_false_iff.mpr ht)
      have hk := hid.le_level hread
      have hlt := hread.lt hm (Bool.eq_false_iff.mpr ht)
      have child := fun b => hid.child hm hd b
      have free : ∀ j, nd.level ≤ j → fix j = none := fun j hj => hfix j (by lia)
      have next : ∀ b j, nd.level + 1 ≤ j →
          (fix j).or (if j = nd.level then some b else none) = none := fun b j hj => by
        rw [free j (by lia), if_neg (by lia), Option.none_or]
      -- No literal below fixes a level above, so the literal of this node may be put first.
      have merge : ∀ b j, ((fix j).or (if j = nd.level then some b else none)).or
          ((m.diagram.tree (nd.child b)).fixes j) =
            (fix j).or (if j = nd.level then some b
              else (m.diagram.tree (nd.child b)).fixes j) := fun b j => by
        rw [Option.or_assoc]
        split <;> rfl
      rw [hm.reduced.tree_node hd]
      split
      · rename_i hbot
        have h := ih (child true) (by lia) (fixes_insert hv free true) (next true)
        simp only [merge] at h
        simp only [Tree.fixes, hm.tree_leaf_of_isBot hbot, if_true]
        exact h
      · rename_i hbot
        have h := ih (child false) (by lia) (fixes_insert hv free false) (next false)
        simp only [merge] at h
        have hne : m.diagram.tree nd.low ≠ .leaf false := hm.tree_ne_false (child false).live hbot
        simp only [Tree.fixes, if_neg hne]
        exact h

theorem observes_valuation (hm : m.Sound) (hcube : m.Kept cube) :
    Observes m (valuation cube) fun v => v.cube = cube ∧ v.Fixes (m.diagram.tree cube).fixes := by
  have hdepth : m.depth = m.varNum + 2 := rfl
  refine .check hm (hm.kept_live hcube) ⟨rfl, _, rfl, rfl, _, rfl, ?_⟩
  have hempty : Valuation.Fixes
      ⟨cube, BitSet.ofCapacity m.varNum, BitSet.ofCapacity m.varNum, none⟩ fun _ => none :=
    ⟨fun j => by simp, fun j => by simp, fun _ _ _ _ => rfl⟩
  exact observes_collectLiterals hm (hm.operand hcube) (by lia) hempty fun _ _ => rfl

/-! ### What the recursions name -/

theorem Tidy.restrict (hf : f ∈ S) (hcube : v.cube ∈ S) : Tidy S (Program.restrict v f n) := by
  induction n generalizing S f with
  | zero => exact .fault
  | succ n ih =>
    rw [Program.restrict]
    refine .node hf fun nf hS hl hh => ?_
    split
    · exact .pure (hS f hf)
    refine .memo (by simpa [Query.nodes] using ⟨hS f hf, hS _ hcube⟩) ?_
    split
    · refine ih ?_ (hS _ hcube)
      split
      · exact hh
      · exact hl
    · exact .branch (ih hl (hS _ hcube)) (ih hh (hS _ hcube)) fun _ _ _ hl hh => .make _ hl hh

theorem Tidy.constrain (hf : f ∈ S) (hc : c ∈ S) : Tidy S (Program.constrain f c n) := by
  induction n generalizing S f c with
  | zero => exact .fault
  | succ n ih =>
    rw [Program.constrain]
    split
    · exact .pure hf
    split
    · exact .pure (Scope.terminal _ rfl)
    split
    · exact .pure (Scope.terminal _ rfl)
    refine .memo (by simpa [Query.nodes] using ⟨hf, hc⟩) ?_
    refine .node hf fun nf hS hfl hfh => .node (hS c hc) fun nc hS' hcl hch => ?_
    have hf := hS' f (hS f hf)
    have hc := hS' c (hS c hc)
    have hfl := hS' _ hfl
    have hfh := hS' _ hfh
    split
    · exact .branch (ih hfl hc) (ih hfh hc) fun _ _ _ hl hh => .make _ hl hh
    simp only [Node.cofactors_eq]
    have cf := fun b => cofactor_mem (nc.level) hf hfl hfh b
    split
    · exact ih (cf true) hch
    split
    · exact ih (cf false) hcl
    · exact .branch (ih (cf false) hcl) (ih (cf true) hch) fun _ _ _ hl hh => .make _ hl hh

theorem Tidy.simplify (hf : f ∈ S) (hd : d ∈ S) : Tidy S (Program.simplify f d n) := by
  induction n generalizing S f d with
  | zero => exact .fault
  | succ n ih =>
    rw [Program.simplify]
    split
    · exact .pure hf
    split
    · exact .pure (Scope.terminal _ rfl)
    split
    · exact .pure (Scope.terminal _ rfl)
    refine .memo (by simpa [Query.nodes] using ⟨hf, hd⟩) ?_
    refine .node hf fun nf hS hfl hfh => .node (hS d hd) fun nd hS' hdl hdh => ?_
    have hf := hS' f (hS f hf)
    have hd := hS' d (hS d hd)
    have hfl := hS' _ hfl
    have hfh := hS' _ hfh
    split
    · split
      · exact ih hfh hdh
      split
      · exact ih hfl hdl
      · exact .branch (ih hfl hdl) (ih hfh hdh) fun _ _ _ hl hh => .make _ hl hh
    split
    · exact .branch (ih hfl hd) (ih hfh hd) fun _ _ _ hl hh => .make _ hl hh
    · exact .depth fun _ => (Tidy.apply hdl hdh).bind fun care hS hcare =>
        .hold hcare (ih (hS f hf) hcare)

/-! ### Restriction -/

theorem Yields.restrict (hm : m.Sound) (hv : v.Fixes fix) (hcube : m.Kept v.cube)
    (hfix : (m.diagram.tree v.cube).fixes = fix) (hf : m.Operand k f) (hn : m.varNum < n + k) :
    Yields m (Program.restrict v f n) (· = Tree.restrict fix (m.diagram.tree f)) := by
  induction n generalizing m k f with
  | zero =>
    have := hf.le
    lia
  | succ n ih =>
    rw [Program.restrict]
    refine .node hm hf.live fun nf hnf => ?_
    split
    · -- Nothing is fixed from `f` on.
      rename_i hstop
      refine .pure hm hf.live ?_
      rcases Bool.or_eq_true_iff.mp hstop with ht | habove
      · rw [hm.reduced.tree_terminal ht]
        rfl
      · exact (((hf.lower hm hnf (Nat.le_refl _)).proper hm).restrict_eq (hv.above _ habove)).symm
    rename_i hgo
    rw [Bool.or_eq_true_iff, not_or] at hgo
    have ht := Bool.eq_false_iff.mpr hgo.1
    refine (Yields.memo (q := .restrict f v.cube) hm
      (by simpa [Query.nodes] using ⟨hf.kept, hcube⟩) fun m' he hm' => ?_).mono ?_
    · have hf' := hf.evolves he
      have hnf' := hnf.evolves he hf.kept
      have hc := he.of_kept hcube
      have hd := hnf'.inner ht
      have hlt := hnf'.lt hm' ht
      have hk := hf'.le_level hnf'
      have hvar := he.varNum
      have hfix' := (congrArg Tree.fixes (hm.tree hm' he hcube)).trans hfix
      have child := fun b => hf'.child hm' hd b
      have side := fun b => ih hm' hc hfix' (child b) (by lia)
      have tells : m'.Tells (.restrict f v.cube) = (· = Tree.restrict fix
          (.node nf.level (m'.diagram.tree nf.low) (m'.diagram.tree nf.high))) := by
        funext t
        rw [Tells, Query.Tells, hfix', hm'.reduced.tree_node hd]
      rw [tells]
      rcases hb : fix nf.level with _ | b
      · have proper := fun b => ((child b).proper hm').restrict fix
        rw [if_neg (by simp [hv.levels, hb])]
        refine (Yields.split hm' hlt (proper false) (proper true) (side false)
          (fun m'' he' hm'' => ?_) (.restrict (child true).kept hc)).mono ?_
        · have hvar' := he'.varNum
          rw [← hm'.tree hm'' he' (child true).kept]
          exact ih hm'' (he'.of_kept hc) ((congrArg Tree.fixes (hm'.tree hm'' he' hc)).trans hfix')
            ((child true).evolves he') (by lia)
        · rintro t rfl
          rw [Tree.restrict, hb]
          rfl
      · rw [if_pos (by rw [hv.levels, hb]; rfl), hv.positive, hb]
        cases b
        · refine (side false).mono ?_
          rintro t rfl
          rw [Tree.restrict, hb]
          rfl
        · refine (side true).mono ?_
          rintro t rfl
          rw [Tree.restrict, hb]
          rfl
    · intro t h
      rw [Tells, Query.Tells, hfix] at h
      exact h

theorem Yields.restrictCube (hm : m.Sound) (hf : m.Kept f) (hcube : m.Kept cube) :
    Yields m (Program.restrictCube f cube m.depth)
      (· = Tree.restrict (m.diagram.tree cube).fixes (m.diagram.tree f)) := by
  have hdepth : m.depth = m.varNum + 2 := rfl
  refine .observe hm (observes_valuation hm hcube) ?_
  rintro v ⟨rfl, hv⟩
  exact .restrict hm hv hcube rfl (hm.operand hf) (by lia)

/-! ### Generalised cofactors -/

/-- The operand and the care set are left to the recursion: no simple case applies. -/
structure Undecided (f c : NodeId) : Prop where
  operand : f.isTerminal = false
  not_top : ¬ c.isTop = true
  not_bot : ¬ c.isBot = true
  ne : c ≠ f

section Undecided

variable {nf nc nd : Node}

theorem Undecided.careSet (h : Undecided f c) : c.isTerminal = false :=
  NodeId.inner_of_not h.not_bot h.not_top

theorem Undecided.tree_ne_false (h : Undecided f c) (hm : m.Sound) (hc : m.Operand k c) :
    m.diagram.tree c ≠ .leaf false := hm.tree_ne_false hc.live h.not_bot

theorem Undecided.tree_ne_true (h : Undecided f c) (hm : m.Sound) (hc : m.Operand k c) :
    m.diagram.tree c ≠ .leaf true := hm.tree_ne_true hc.live h.not_top

theorem Undecided.tree_ne (h : Undecided f c) (hm : m.Sound) (hf : m.Operand k f)
    (hc : m.Operand k c) : m.diagram.tree c ≠ m.diagram.tree f := fun heq =>
  h.ne (hm.reduced.tree_injective hc.live hf.live heq)

/-- The first simple case of the generalised cofactor is that of the trees. -/
theorem not_simple (hm : m.Sound) (hf : m.Operand k f) (hc : m.Operand k c)
    (ht : f.isTerminal = false) (htop : ¬ c.isTop = true) :
    ¬ ((m.diagram.tree f).level? = none ∨ m.diagram.tree c = .leaf true) := by
  rintro (hnone | hleaf)
  · obtain ⟨nf, hnf⟩ := hf.live.eq_some ht
    rw [hm.reduced.tree_node hnf] at hnone
    cases hnone
  · exact hm.tree_ne_true hc.live htop hleaf

/-- One step of the generalised cofactor, at the level of one of the operands. -/
theorem tree_constrain_at (hm : m.Sound) (h : Undecided f c) (hf : m.Operand k f)
    (hc : m.Operand k c) (hnf : m.Reads f nf) (hnc : m.Reads c nc) :
    Tree.constrain (m.diagram.tree f) (m.diagram.tree c) =
      if (m.diagram.tree c).cofactor (min nf.level nc.level) false = .leaf false then
        Tree.constrain ((m.diagram.tree f).cofactor (min nf.level nc.level) true)
          ((m.diagram.tree c).cofactor (min nf.level nc.level) true)
      else if (m.diagram.tree c).cofactor (min nf.level nc.level) true = .leaf false then
        Tree.constrain ((m.diagram.tree f).cofactor (min nf.level nc.level) false)
          ((m.diagram.tree c).cofactor (min nf.level nc.level) false)
      else
        Tree.make (min nf.level nc.level)
          (Tree.constrain ((m.diagram.tree f).cofactor (min nf.level nc.level) false)
            ((m.diagram.tree c).cofactor (min nf.level nc.level) false))
          (Tree.constrain ((m.diagram.tree f).cofactor (min nf.level nc.level) true)
            ((m.diagram.tree c).cofactor (min nf.level nc.level) true)) := by
  refine Tree.constrain_of_top (not_simple hm hf hc h.operand h.not_top) (h.tree_ne hm hf hc)
    (h.tree_ne_false hm hc) ?_
  rw [hm.reduced.tree_node (hnf.inner h.operand), hm.reduced.tree_node (hnc.inner h.careSet),
    Tree.top]

/-- The operand branches on its own variable, if the care set starts below it. -/
theorem tree_constrain_above (hm : m.Sound) (h : Undecided f c) (hf : m.Operand k f)
    (hc : m.Operand k c) (hnf : m.Reads f nf) (hnc : m.Reads c nc) (hlt : nf.level < nc.level) :
    Tree.constrain (m.diagram.tree f) (m.diagram.tree c) =
      Tree.make nf.level (Tree.constrain (m.diagram.tree nf.low) (m.diagram.tree c))
        (Tree.constrain (m.diagram.tree nf.high) (m.diagram.tree c)) := by
  have hltf := hnf.lt hm h.operand
  have side := fun b => ((hc.lower hm hnc (Nat.succ_le_of_lt hlt)).proper hm).cofactor_eq b
  have step := tree_constrain_at hm h hf hc hnf hnc
  rw [Nat.min_eq_left (Nat.le_of_lt hlt)] at step
  rw [side, side, if_neg (h.tree_ne_false hm hc), if_neg (h.tree_ne_false hm hc),
    hnf.cofactor_level hm hltf, hnf.cofactor_level hm hltf] at step
  exact step

/-- Otherwise the care set is split, and a side of it that is false is passed over. -/
theorem tree_constrain_split (hm : m.Sound) (h : Undecided f c) (hf : m.Operand k f)
    (hc : m.Operand k c) (hnf : m.Reads f nf) (hnc : m.Reads c nc) (hle : nc.level ≤ nf.level) :
    Tree.constrain (m.diagram.tree f) (m.diagram.tree c) =
      if m.diagram.tree nc.low = .leaf false then
        Tree.constrain (m.diagram.tree (nf.cofactor f nc.level true)) (m.diagram.tree nc.high)
      else if m.diagram.tree nc.high = .leaf false then
        Tree.constrain (m.diagram.tree (nf.cofactor f nc.level false)) (m.diagram.tree nc.low)
      else
        Tree.make nc.level
          (Tree.constrain (m.diagram.tree (nf.cofactor f nc.level false)) (m.diagram.tree nc.low))
          (Tree.constrain (m.diagram.tree (nf.cofactor f nc.level true))
            (m.diagram.tree nc.high)) := by
  have hltc := hnc.lt hm h.careSet
  have step := tree_constrain_at hm h hf hc hnf hnc
  rw [Nat.min_eq_right hle] at step
  rw [step, hnc.cofactor_level hm hltc, hnc.cofactor_level hm hltc, ← hnf.tree_cofactor hm hltc,
    ← hnf.tree_cofactor hm hltc, Node.child_false, Node.child_true]

/-- One step of the simplification, where the care set has no level above that of the operand. -/
theorem tree_simplify_at (hm : m.Sound) (h : Undecided f d) (hf : m.Operand k f)
    (hd : m.Operand k d) (hnf : m.Reads f nf) (hnd : m.Reads d nd) (hle : nf.level ≤ nd.level) :
    Tree.simplify (m.diagram.tree f) (m.diagram.tree d) =
      if (m.diagram.tree d).cofactor nf.level false = .leaf false then
        Tree.simplify (m.diagram.tree nf.high) ((m.diagram.tree d).cofactor nf.level true)
      else if (m.diagram.tree d).cofactor nf.level true = .leaf false then
        Tree.simplify (m.diagram.tree nf.low) ((m.diagram.tree d).cofactor nf.level false)
      else
        Tree.make nf.level
          (Tree.simplify (m.diagram.tree nf.low) ((m.diagram.tree d).cofactor nf.level false))
          (Tree.simplify (m.diagram.tree nf.high) ((m.diagram.tree d).cofactor nf.level true)) := by
  have hnode := hm.reduced.tree_node (hnf.inner h.operand)
  rw [hnode]
  exact Tree.simplify_node ((hd.lower hm hnd hle).proper hm) (h.tree_ne_true hm hd)
    (hnode ▸ h.tree_ne hm hf hd) (h.tree_ne_false hm hd)

theorem tree_simplify_above (hm : m.Sound) (h : Undecided f d) (hf : m.Operand k f)
    (hd : m.Operand k d) (hnf : m.Reads f nf) (hnd : m.Reads d nd) (hlt : nf.level < nd.level) :
    Tree.simplify (m.diagram.tree f) (m.diagram.tree d) =
      Tree.make nf.level (Tree.simplify (m.diagram.tree nf.low) (m.diagram.tree d))
        (Tree.simplify (m.diagram.tree nf.high) (m.diagram.tree d)) := by
  have side := fun b => ((hd.lower hm hnd (Nat.succ_le_of_lt hlt)).proper hm).cofactor_eq b
  rw [tree_simplify_at hm h hf hd hnf hnd (Nat.le_of_lt hlt), side, side,
    if_neg (h.tree_ne_false hm hd), if_neg (h.tree_ne_false hm hd)]

theorem tree_simplify_split (hm : m.Sound) (h : Undecided f d) (hf : m.Operand k f)
    (hd : m.Operand k d) (hnf : m.Reads f nf) (hnd : m.Reads d nd) (heq : nf.level = nd.level) :
    Tree.simplify (m.diagram.tree f) (m.diagram.tree d) =
      if m.diagram.tree nd.low = .leaf false then
        Tree.simplify (m.diagram.tree nf.high) (m.diagram.tree nd.high)
      else if m.diagram.tree nd.high = .leaf false then
        Tree.simplify (m.diagram.tree nf.low) (m.diagram.tree nd.low)
      else
        Tree.make nf.level (Tree.simplify (m.diagram.tree nf.low) (m.diagram.tree nd.low))
          (Tree.simplify (m.diagram.tree nf.high) (m.diagram.tree nd.high)) := by
  have hltd := hnd.lt hm h.careSet
  rw [tree_simplify_at hm h hf hd hnf hnd (Nat.le_of_eq heq), heq, hnd.cofactor_level hm hltd,
    hnd.cofactor_level hm hltd, Node.child_false, Node.child_true]

/-- Above the operand the care set is weakened to the disjunction of its branches. -/
theorem tree_simplify_below (hm : m.Sound) (h : Undecided f d) (hf : m.Operand k f)
    (hd : m.Operand k d) (hnf : m.Reads f nf) (hnd : m.Reads d nd) (hlt : nd.level < nf.level) :
    Tree.simplify (m.diagram.tree f) (m.diagram.tree d) =
      Tree.simplify (m.diagram.tree f)
        (Tree.apply .or (m.diagram.tree nd.low) (m.diagram.tree nd.high)) := by
  have hdd := hnd.inner h.careSet
  rw [hm.reduced.tree_node hdd]
  exact Tree.simplify_apply_or ((hf.lower hm hnf (Nat.succ_le_of_lt hlt)).proper hm)
    ((hd.child hm hdd false).proper hm) ((hd.child hm hdd true).proper hm)

end Undecided

theorem Yields.constrain (hm : m.Sound) (hf : m.Operand k f) (hc : m.Operand k c)
    (hn : m.varNum < n + k) :
    Yields m (Program.constrain f c n)
      (· = Tree.constrain (m.diagram.tree f) (m.diagram.tree c)) := by
  induction n generalizing m k f c with
  | zero =>
    have := hf.le
    lia
  | succ n ih =>
    rw [Program.constrain]
    split
    · rename_i hstop
      refine .pure hm hf.live ?_
      rw [Tree.constrain, if_pos]
      rcases Bool.or_eq_true_iff.mp hstop with ht | ht
      · exact .inr (hm.tree_leaf_of_isTop ht)
      · exact .inl (by rw [hm.reduced.tree_terminal ht, Tree.level?])
    rename_i hgo
    rw [Bool.or_eq_true_iff, not_or] at hgo
    have ht := Bool.eq_false_iff.mpr hgo.2
    have hsimple := not_simple hm hf hc ht hgo.1
    split
    · rename_i heq
      subst heq
      refine .pure hm (.inl rfl) ?_
      rw [Tree.constrain, if_neg hsimple, if_pos rfl, hm.reduced.tree_top]
    rename_i hne
    split
    · rename_i hbot
      refine .pure hm (.inl rfl) ?_
      rw [Tree.constrain, if_neg hsimple, if_neg, if_pos (hm.tree_leaf_of_isBot hbot),
        hm.reduced.tree_bot]
      exact fun heq => hne (hm.reduced.tree_injective hc.live hf.live heq)
    rename_i hbot
    have hrec : Undecided f c := ⟨ht, hgo.1, hbot, hne⟩
    refine Yields.memo (q := .constrain f c) hm
      (by simpa [Query.nodes] using ⟨hf.kept, hc.kept⟩) fun m' he hm' => ?_
    have hf' := hf.evolves he
    have hc' := hc.evolves he
    have hvar := he.varNum
    refine .node hm' hf'.live fun nf hnf => .node hm' hc'.live fun nc hnc => ?_
    have hdf := hnf.inner ht
    have hdc := hnc.inner hrec.careSet
    have hltf := hnf.lt hm' ht
    have hltc := hnc.lt hm' hrec.careSet
    have hkf := hf'.le_level hnf
    have hkc := hc'.le_level hnc
    have tells : m'.Tells (.constrain f c) = (· = Tree.constrain (m'.diagram.tree f)
        (m'.diagram.tree c)) := rfl
    rw [tells]
    -- The recursion goes on with operands below a level of theirs.
    have go : ∀ {level : Level}, k ≤ level → ∀ m'' a b, m'.Evolves m'' → m''.Sound →
        m''.Operand (level + 1) a → m''.Operand (level + 1) b →
        Yields m'' (Program.constrain a b n)
          (· = Tree.constrain (m''.diagram.tree a) (m''.diagram.tree b)) := by
      intro level hle m'' a b he' hm'' ha hb
      have hvar' := he'.varNum
      exact ih hm'' ha hb (by lia)
    split
    · rename_i hlt
      rw [tree_constrain_above hm' hrec hf' hc' hnf hnc hlt]
      have hcu := hc'.lower hm' hnc (Nat.succ_le_of_lt hlt)
      have child := fun b => hf'.child hm' hdf b
      exact .splitPair (Program.constrain · · n) Tree.constrain hm' hltf .constrain (go hkf)
        (child false) (child true) hcu hcu (.constrain (child true).kept hcu.kept)
    · rename_i hge
      rw [tree_constrain_split hm' hrec hf' hc' hnf hnc (by lia)]
      simp only [Node.cofactors_eq]
      have hcl : m'.Operand (nc.level + 1) nc.low := hc'.child hm' hdc false
      have hch : m'.Operand (nc.level + 1) nc.high := hc'.child hm' hdc true
      have cf : ∀ b, m'.Operand (nc.level + 1) (nf.cofactor f nc.level b) := fun b =>
        hf'.cofactor hm' hnf (by lia) hltc b
      split
      · rename_i hb
        rw [if_pos (hm'.tree_leaf_of_isBot hb)]
        exact ih hm' (cf true) hch (by lia)
      rename_i hb
      rw [if_neg (hm'.tree_ne_false hcl.live hb)]
      split
      · rename_i hb'
        rw [if_pos (hm'.tree_leaf_of_isBot hb')]
        exact ih hm' (cf false) hcl (by lia)
      · rename_i hb'
        rw [if_neg (hm'.tree_ne_false hch.live hb')]
        exact .splitPair (Program.constrain · · n) Tree.constrain hm' hltc .constrain (go hkc)
          (cf false) (cf true) hcl hch (.constrain (cf true).kept hch.kept)

/-- The disjunction of the branches of a care set is held while the recursion goes on with it. -/
theorem Yields.weaken {P : Tree → Prop} {d₀ d₁ : NodeId} (hm : m.Sound) (hd₀ : m.Kept d₀)
    (hd₁ : m.Kept d₁) (hf : m.Kept f)
    (h : ∀ m' care, m.Evolves m' → m'.Sound → m'.Kept care →
      m'.diagram.tree care = Tree.apply .or (m.diagram.tree d₀) (m.diagram.tree d₁) →
      Yields m' (Program.simplify f care n) P) :
    Yields m (do
      let care ← Program.apply .or d₀ d₁ (← Program.depth)
      Program.hold care (Program.simplify f care n)) P := by
  refine .depth hm (Yields.bind hm (Yields.apply_depth hm hd₀ hd₁)
    (fun care hS hcare => (Tidy.hold hcare (.simplify (hS f hf) hcare)).uses) ?_)
  intro care m₁ he₁ hm₁ hlive htree
  refine .hold hm₁ hlive (Tidy.simplify (S := m₁.scope.add [care]) (f := f) ?_ ?_).balanced ?_
  · exact Scope.le_add _ _ _ (he₁.of_kept hf)
  · exact Scope.mem_add_of_mem List.mem_cons_self
  intro m₂ he₂ hm₂ hkept htree₂
  exact h m₂ care (he₁.trans he₂) hm₂ hkept (htree₂.trans htree)

theorem Yields.simplify (hm : m.Sound) (hf : m.Operand k f) (hd : m.Operand k d)
    (hn : m.varNum < n + k) :
    Yields m (Program.simplify f d n)
      (· = Tree.simplify (m.diagram.tree f) (m.diagram.tree d)) := by
  induction n generalizing m k f d with
  | zero =>
    have := hf.le
    lia
  | succ n ih =>
    rw [Program.simplify]
    by_cases ht : f.isTerminal = true
    · rw [if_pos (by rw [ht, Bool.or_true])]
      refine .pure hm hf.live ?_
      rw [hm.reduced.tree_terminal ht, Tree.simplify]
    have ht := Bool.eq_false_iff.mpr ht
    obtain ⟨nf₀, hf₀⟩ := hf.live.eq_some ht
    split
    · rename_i hstop
      have hdt : d.isTop = true := (Bool.or_eq_true_iff.mp hstop).resolve_right (by simp [ht])
      refine .pure hm hf.live ?_
      rw [hm.reduced.tree_node hf₀, Tree.simplify, hm.tree_leaf_of_isTop hdt, Tree.drop,
        if_pos rfl]
    rename_i hgo
    rw [Bool.or_eq_true_iff, not_or] at hgo
    split
    · rename_i heq
      subst heq
      refine .pure hm (.inl rfl) ?_
      have pd := (hm.reduced.tree_proper (k := nf₀.level)
        (.inr ⟨nf₀, hf₀, Nat.le_refl _⟩)).drop_eq
      rw [hm.reduced.tree_node hf₀] at pd ⊢
      rw [Tree.simplify, pd, if_neg (by simp), if_pos rfl, hm.reduced.tree_top]
    rename_i hne
    split
    · rename_i hbot
      refine .pure hm (.inl rfl) ?_
      rw [hm.reduced.tree_node hf₀, Tree.simplify, hm.tree_leaf_of_isBot hbot, Tree.drop,
        if_neg (by simp), if_neg (by simp), if_pos rfl, hm.reduced.tree_bot]
    rename_i hbot
    have hrec : Undecided f d := ⟨ht, hgo.1, hbot, hne⟩
    refine Yields.memo (q := .simplify f d) hm
      (by simpa [Query.nodes] using ⟨hf.kept, hd.kept⟩) fun m' he hm' => ?_
    have hf' := hf.evolves he
    have hd' := hd.evolves he
    have hvar := he.varNum
    refine .node hm' hf'.live fun nf hnf => .node hm' hd'.live fun nd hnd => ?_
    have hdf := hnf.inner ht
    have hdd := hnd.inner hrec.careSet
    have hltf := hnf.lt hm' ht
    have hltd := hnd.lt hm' hrec.careSet
    have hkf := hf'.le_level hnf
    have hkd := hd'.le_level hnd
    have hfl : m'.Operand (nf.level + 1) nf.low := hf'.child hm' hdf false
    have hfh : m'.Operand (nf.level + 1) nf.high := hf'.child hm' hdf true
    have hdl : m'.Operand (nd.level + 1) nd.low := hd'.child hm' hdd false
    have hdh : m'.Operand (nd.level + 1) nd.high := hd'.child hm' hdd true
    have tells : m'.Tells (.simplify f d) = (· = Tree.simplify (m'.diagram.tree f)
        (m'.diagram.tree d)) := rfl
    rw [tells]
    -- Branches on the variable of the operand.
    have go : ∀ {d₀ d₁ : NodeId}, m'.Operand (nf.level + 1) d₀ → m'.Operand (nf.level + 1) d₁ →
        Yields m' (Program.branch (Program.simplify nf.low d₀ n) (Program.simplify nf.high d₁ n)
          (Program.mk nf.level))
          (· = Tree.make nf.level (Tree.simplify (m'.diagram.tree nf.low) (m'.diagram.tree d₀))
            (Tree.simplify (m'.diagram.tree nf.high) (m'.diagram.tree d₁))) := by
      intro d₀ d₁ h₀ h₁
      refine .splitPair (Program.simplify · · n) Tree.simplify hm' hltf
        (fun hs _ => hs.simplify _) (fun m'' a b he' hm'' ha hb => ?_) hfl hfh h₀ h₁
        (.simplify hfh.kept h₁.kept)
      have hvar' := he'.varNum
      exact ih hm'' ha hb (by lia)
    split
    · rename_i heq
      rw [tree_simplify_split hm' hrec hf' hd' hnf hnd heq]
      split
      · rename_i hb
        rw [if_pos (hm'.tree_leaf_of_isBot hb)]
        exact ih hm' hfh (heq ▸ hdh) (by lia)
      rename_i hb
      rw [if_neg (hm'.tree_ne_false hdl.live hb)]
      split
      · rename_i hb'
        rw [if_pos (hm'.tree_leaf_of_isBot hb')]
        exact ih hm' hfl (heq ▸ hdl) (by lia)
      · rename_i hb'
        rw [if_neg (hm'.tree_ne_false hdh.live hb')]
        exact go (heq ▸ hdl) (heq ▸ hdh)
    split
    · rename_i hlt
      have hdu := hd'.lower hm' hnd (Nat.succ_le_of_lt hlt)
      rw [tree_simplify_above hm' hrec hf' hd' hnf hnd hlt]
      exact go hdu hdu
    · -- The care set is weakened by the variable that the operand does not decide.
      rename_i hne hge
      have hfu : m'.Operand (nd.level + 1) f := hf'.lower hm' hnf (by lia)
      rw [tree_simplify_below hm' hrec hf' hd' hnf hnd (by lia)]
      refine .weaken hm' hdl.kept hdh.kept hf'.kept fun m'' care he' hm'' hkept hcare => ?_
      have hvar' := he'.varNum
      rw [← hm'.tree hm'' he' hf'.kept, ← hcare]
      refine ih hm'' (hfu.evolves he') (.of_proper hm'' hkept ?_ (by lia)) (by lia)
      rw [hcare]
      exact (hdl.proper hm').apply .or (hdh.proper hm')

theorem Yields.constrain_depth (hm : m.Sound) (hf : m.Kept f) (hc : m.Kept c) :
    Yields m (Program.constrain f c m.depth)
      (· = Tree.constrain (m.diagram.tree f) (m.diagram.tree c)) := by
  have hdepth : m.depth = m.varNum + 2 := rfl
  exact .constrain hm (hm.operand hf) (hm.operand hc) (by lia)

theorem Yields.simplify_depth (hm : m.Sound) (hf : m.Kept f) (hd : m.Kept d) :
    Yields m (Program.simplify f d m.depth)
      (· = Tree.simplify (m.diagram.tree f) (m.diagram.tree d)) := by
  have hdepth : m.depth = m.varNum + 2 := rfl
  exact .simplify hm (hm.operand hf) (hm.operand hd) (by lia)

end Program

end DecisionDiagram
