/-
The connectives are right.

Each recursion answers the node whose tree is the connective of the trees of the operands.

* `Program.Yields.not`, `.apply`, `.ite` — the three recursions;
* `Program.Ensures.applyMany` — a connective over a list; only the result so far is pending.
-/
import DecisionDiagram.Operator.Connective
import DecisionDiagram.Proofs.Recursion

namespace DecisionDiagram

namespace Connective

/-- A result without a recursion is an operand or a terminal. -/
theorem shortcut_mem {op : Connective} {l r res : NodeId} (h : op.shortcut l r = some res) :
    res = l ∨ res = r ∨ res.isTerminal = true := by
  unfold shortcut at h
  split at h
  · obtain rfl := Option.some.inj h
    exact .inr (.inr (by cases op.eval l.isTop r.isTop <;> rfl))
  · have hbot : NodeId.bot.isTerminal = true := rfl
    have htop : NodeId.top.isTerminal = true := rfl
    cases op <;> simp only [simplify] at h <;> grind

theorem not_terminal_of_shortcut {op : Connective} {l r : NodeId} (h : op.shortcut l r = none) :
    l.isTerminal = false ∨ r.isTerminal = false := by
  by_contra hc
  rw [not_or, Bool.not_eq_false, Bool.not_eq_false] at hc
  rw [shortcut, hc.1, hc.2] at h
  cases h

end Connective

/-! ### Answers without a recursion -/

namespace Tree

variable {k : Level} {f g h : Tree}

theorem ite_leaf_true (hg : Proper k g) (hh : Proper k h) : ite (leaf true) g h = g :=
  eq_of_eval (.ite (.leaf k true) hg hh) hg fun v => by simp

theorem ite_leaf_false (hg : Proper k g) (hh : Proper k h) : ite (leaf false) g h = h :=
  eq_of_eval (.ite (.leaf k false) hg hh) hh fun v => by simp

theorem ite_same (hf : Proper k f) (hg : Proper k g) : ite f g g = g :=
  eq_of_eval (.ite hf hg hg) hg fun v => by simp

theorem ite_leaves (hf : Proper k f) : ite f (leaf true) (leaf false) = f :=
  eq_of_eval (.ite hf (.leaf k true) (.leaf k false)) hf fun v => by simp

theorem ite_leaves_not (hf : Proper k f) : ite f (leaf false) (leaf true) = f.not :=
  eq_of_eval (.ite hf (.leaf k false) (.leaf k true)) hf.not fun v => by
    rw [eval_ite, eval_not]
    cases f.eval v <;> rfl

end Tree

open Manager

namespace Manager

variable {m : Manager} {f l r res : NodeId}

theorem Sound.tree_shortcut (hm : m.Sound) {op : Connective} (hl : m.diagram.Live l)
    (hr : m.diagram.Live r) (h : op.shortcut l r = some res) :
    m.diagram.Live res ∧
      m.diagram.tree res = Tree.apply op (m.diagram.tree l) (m.diagram.tree r) := by
  have hres : m.diagram.Live res := by
    rcases Connective.shortcut_mem h with rfl | rfl | ht
    · exact hl
    · exact hr
    · exact .inl ht
  have proper : ∀ {id}, m.diagram.Live id → (m.diagram.tree id).Proper 0 := fun hid =>
    hm.reduced.tree_proper hid.under
  refine ⟨hres, Tree.eq_of_eval (proper hres) (.apply op (proper hl) (proper hr)) fun v => ?_⟩
  rw [Tree.eval_apply]
  have bot : (m.diagram.tree NodeId.bot).eval v = false := by
    rw [hm.reduced.tree_bot, Tree.eval_leaf]
  have top : (m.diagram.tree NodeId.top).eval v = true := by
    rw [hm.reduced.tree_top, Tree.eval_leaf]
  exact Connective.shortcut_eq_some h (fun id => (m.diagram.tree id).eval v) bot top

theorem Sound.tree_not_terminal (hm : m.Sound) (hf : f.isTerminal = true) :
    m.diagram.tree (NodeId.ofBool f.isBot) = (m.diagram.tree f).not := by
  rcases NodeId.eq_bot_or_eq_top hf with rfl | rfl
  · rw [hm.reduced.tree_bot]
    exact hm.reduced.tree_top
  · rw [hm.reduced.tree_top]
    exact hm.reduced.tree_bot

end Manager

namespace Program

variable {S : Scope} {m : Manager} {k n : Nat} {f g h l r : NodeId} {op : Connective}

/-! ### What the recursions name -/

theorem cofactor_mem {n : Node} (level : Level) (hf : f ∈ S) (hl : n.low ∈ S) (hh : n.high ∈ S)
    (b : Bool) : n.cofactor f level b ∈ S := by
  unfold Node.cofactor
  split
  · cases b
    · exact hl
    · exact hh
  · exact hf

theorem Tidy.not (hf : f ∈ S) : Tidy S (Program.not f n) := by
  induction n generalizing S f with
  | zero => exact .fault
  | succ n ih =>
    rw [Program.not]
    split
    · exact .pure (S.terminal (by cases f.isBot <;> rfl))
    · refine .memo (by simpa [Query.nodes] using hf) (.node hf fun nf _ hl hh => ?_)
      exact .branch (ih hl) (ih hh) fun _ _ _ hl hh => .make _ hl hh

theorem Tidy.apply (hl : l ∈ S) (hr : r ∈ S) : Tidy S (Program.apply op l r n) := by
  induction n generalizing S l r with
  | zero => exact .fault
  | succ n ih =>
    rw [Program.apply]
    split
    · rename_i res hs
      rcases Connective.shortcut_mem hs with rfl | rfl | ht
      · exact .pure hl
      · exact .pure hr
      · exact .pure (S.terminal ht)
    · refine .memo (by simpa [Query.nodes] using ⟨hl, hr⟩) ?_
      refine .node hl fun nl hS hll hlh => .node (hS r hr) fun nr hS' hrl hrh => ?_
      simp only [Node.cofactors_eq]
      have cl := fun b => cofactor_mem (min nl.level nr.level) (hS' l (hS l hl))
        (hS' _ hll) (hS' _ hlh) b
      have cr := fun b => cofactor_mem (min nl.level nr.level) (hS' r (hS r hr)) hrl hrh b
      exact .branch (ih (cl false) (cr false)) (ih (cl true) (cr true))
        fun _ _ _ hl hh => .make _ hl hh

theorem Tidy.ite (hf : f ∈ S) (hg : g ∈ S) (hh : h ∈ S) : Tidy S (Program.ite f g h n) := by
  induction n generalizing S f g h with
  | zero => exact .fault
  | succ n ih =>
    rw [Program.ite]
    split
    · exact .pure hg
    split
    · exact .pure hh
    split
    · exact .pure hg
    split
    · exact .pure hf
    split
    · exact .depth fun _ => .not hf
    refine .memo (by simpa [Query.nodes] using ⟨hf, hg, hh⟩) ?_
    refine .node hf fun nf hS hfl hfh => .node (hS g hg) fun ng hS' hgl hgh =>
      .node (hS' h (hS h hh)) fun nh hS'' hhl hhh => ?_
    simp only [Node.cofactors_eq]
    generalize min (min nf.level ng.level) nh.level = level
    have cf := fun b => cofactor_mem level (hS'' f (hS' f (hS f hf)))
      (hS'' _ (hS' _ hfl)) (hS'' _ (hS' _ hfh)) b
    have cg := fun b => cofactor_mem level (hS'' g (hS' g (hS g hg)))
      (hS'' _ hgl) (hS'' _ hgh) b
    have ch := fun b => cofactor_mem level (hS'' h (hS' h (hS h hh))) hhl hhh b
    exact .branch (ih (cf false) (cg false) (ch false)) (ih (cf true) (cg true) (ch true))
      fun _ _ _ hl hh => .make _ hl hh

/-! ### The cofactors of several operands -/

section Cofactors

variable {nf ng nh nl nr : Node}

/-- One of two operands decides a level, if one of them is not constant. -/
theorem min_level_lt (hm : m.Sound) (hnl : m.Reads l nl) (hnr : m.Reads r nr)
    (h : l.isTerminal = false ∨ r.isTerminal = false) : min nl.level nr.level < m.varNum := by
  rcases h with ht | ht
  · have := hnl.lt hm ht
    lia
  · have := hnr.lt hm ht
    lia

/-- The result of a connective, made from its cofactors. -/
theorem tree_apply_split (op : Connective) (hm : m.Sound) (hl : m.Operand k l) (hr : m.Operand k r)
    (hnl : m.Reads l nl) (hnr : m.Reads r nr) (hlt : min nl.level nr.level < m.varNum) :
    Tree.apply op (m.diagram.tree l) (m.diagram.tree r) =
      Tree.make (min nl.level nr.level)
        (Tree.apply op (m.diagram.tree (nl.cofactor l (min nl.level nr.level) false))
          (m.diagram.tree (nr.cofactor r (min nl.level nr.level) false)))
        (Tree.apply op (m.diagram.tree (nl.cofactor l (min nl.level nr.level) true))
          (m.diagram.tree (nr.cofactor r (min nl.level nr.level) true))) := by
  have pl := (hl.lower hm hnl (Nat.min_le_left _ nr.level)).proper hm
  have pr := (hr.lower hm hnr (Nat.min_le_right nl.level _)).proper hm
  simp only [hnl.tree_cofactor hm hlt, hnr.tree_cofactor hm hlt]
  exact Tree.apply_eq_make pl pr

/-- The same for the conditional, at a level that none of the operands is above. -/
theorem tree_ite_split {level : Level} (hm : m.Sound) (hf : m.Operand k f) (hg : m.Operand k g)
    (hh : m.Operand k h) (hnf : m.Reads f nf) (hng : m.Reads g ng) (hnh : m.Reads h nh)
    (hlt : level < m.varNum) (hlf : level ≤ nf.level) (hlg : level ≤ ng.level)
    (hlh : level ≤ nh.level) :
    Tree.ite (m.diagram.tree f) (m.diagram.tree g) (m.diagram.tree h) =
      Tree.make level
        (Tree.ite (m.diagram.tree (nf.cofactor f level false))
          (m.diagram.tree (ng.cofactor g level false))
          (m.diagram.tree (nh.cofactor h level false)))
        (Tree.ite (m.diagram.tree (nf.cofactor f level true))
          (m.diagram.tree (ng.cofactor g level true))
          (m.diagram.tree (nh.cofactor h level true))) := by
  have pf := (hf.lower hm hnf hlf).proper hm
  have pg := (hg.lower hm hng hlg).proper hm
  have ph := (hh.lower hm hnh hlh).proper hm
  simp only [hnf.tree_cofactor hm hlt, hng.tree_cofactor hm hlt, hnh.tree_cofactor hm hlt]
  exact Tree.ite_eq_make pf pg ph

end Cofactors

/-! ### The recursions -/

theorem Yields.not (hm : m.Sound) (hf : m.Operand k f) (hn : m.varNum < n + k) :
    Yields m (Program.not f n) (· = (m.diagram.tree f).not) := by
  induction n generalizing m k f with
  | zero =>
    have := hf.le
    lia
  | succ n ih =>
    rw [Program.not]
    by_cases ht : f.isTerminal = true
    · rw [if_pos ht]
      exact .pure hm (.inl (by cases f.isBot <;> rfl)) (hm.tree_not_terminal ht)
    · rw [if_neg ht]
      have ht := Bool.eq_false_iff.mpr ht
      refine .memo (q := .not f) hm (by simpa [Query.nodes] using hf.kept) fun m' he hm' => ?_
      have hf' := hf.evolves he
      refine .node hm' hf'.live fun nf hnf => ?_
      have hd := hnf.inner ht
      have hlt := hnf.lt hm' ht
      have hk := hf'.le_level hnf
      have hvar := he.varNum
      have child := fun b => hf'.child hm' hd b
      refine (Yields.split hm' hlt ((child false).proper hm').not ((child true).proper hm').not
        (ih hm' (child false) (by lia)) (fun m'' he' hm'' => ?_) (.not (child true).kept)).mono ?_
      · have hvar' := he'.varNum
        rw [← hm'.tree hm'' he' (child true).kept]
        exact ih hm'' ((child true).evolves he') (by lia)
      · rintro t rfl
        rw [Tells, Query.Tells, hm'.reduced.tree_node hd]
        rfl

theorem Yields.apply (hm : m.Sound) (hl : m.Operand k l) (hr : m.Operand k r)
    (hn : m.varNum < n + k) :
    Yields m (Program.apply op l r n)
      (· = Tree.apply op (m.diagram.tree l) (m.diagram.tree r)) := by
  induction n generalizing m k l r with
  | zero =>
    have := hl.le
    lia
  | succ n ih =>
    rw [Program.apply]
    rcases hs : op.shortcut l r with _ | res
    · refine .memo (q := .apply op l r) hm (by simpa [Query.nodes] using ⟨hl.kept, hr.kept⟩)
        fun m' he hm' => ?_
      have hl' := hl.evolves he
      have hr' := hr.evolves he
      refine .node hm' hl'.live fun nl hnl => .node hm' hr'.live fun nr hnr => ?_
      simp only [Node.cofactors_eq]
      have hlt := min_level_lt hm' hnl hnr (Connective.not_terminal_of_shortcut hs)
      have hkl := hl'.le_level hnl
      have hkr := hr'.le_level hnr
      have hvar := he.varNum
      have cl := fun b => hl'.cofactor hm' hnl (Nat.min_le_left _ nr.level) hlt b
      have cr := fun b => hr'.cofactor hm' hnr (Nat.min_le_right nl.level _) hlt b
      refine (Yields.splitPair (Program.apply op · · n) (Tree.apply op) hm' hlt (.apply op)
        (fun m'' a b he' hm'' ha hb => ?_) (cl false) (cl true) (cr false) (cr true)
        (.apply (cl true).kept (cr true).kept)).mono ?_
      · have hvar' := he'.varNum
        exact ih hm'' ha hb (by lia)
      · rintro t rfl
        exact (tree_apply_split op hm' hl' hr' hnl hnr hlt).symm
    · have hres := hm.tree_shortcut hl.live hr.live hs
      exact .pure hm hres.1 hres.2

/-- With the number of levels for a bound, the recursion always ends. -/
theorem Yields.apply_depth (hm : m.Sound) (hl : m.Kept l) (hr : m.Kept r) :
    Yields m (Program.apply op l r m.depth)
      (· = Tree.apply op (m.diagram.tree l) (m.diagram.tree r)) := by
  have hdepth : m.depth = m.varNum + 2 := rfl
  exact .apply hm (hm.operand hl) (hm.operand hr) (by lia)

theorem Yields.not_depth (hm : m.Sound) (hf : m.Kept f) :
    Yields m (Program.not f m.depth) (· = (m.diagram.tree f).not) := by
  have hdepth : m.depth = m.varNum + 2 := rfl
  exact .not hm (hm.operand hf) (by lia)

theorem Yields.ite (hm : m.Sound) (hf : m.Operand k f) (hg : m.Operand k g) (hh : m.Operand k h)
    (hn : m.varNum < n + k) :
    Yields m (Program.ite f g h n)
      (· = Tree.ite (m.diagram.tree f) (m.diagram.tree g) (m.diagram.tree h)) := by
  induction n generalizing m k f g h with
  | zero =>
    have := hf.le
    lia
  | succ n ih =>
    have pf := hf.proper hm
    have pg := hg.proper hm
    have ph := hh.proper hm
    have tree_top := hm.reduced.tree_top
    have tree_bot := hm.reduced.tree_bot
    rw [Program.ite]
    -- The simple cases, in the order of the program.
    by_cases htop : f.isTop = true
    · rw [if_pos htop]
      obtain rfl := eq_of_beq htop
      refine .pure hm hg.live ?_
      rw [tree_top, Tree.ite_leaf_true pg ph]
    rw [if_neg htop]
    by_cases hbot : f.isBot = true
    · rw [if_pos hbot]
      obtain rfl := eq_of_beq hbot
      refine .pure hm hh.live ?_
      rw [tree_bot, Tree.ite_leaf_false pg ph]
    rw [if_neg hbot]
    by_cases heq : g = h
    · rw [if_pos heq]
      subst heq
      exact .pure hm hg.live (Tree.ite_same pf pg).symm
    rw [if_neg heq]
    by_cases hid : (g.isTop && h.isBot) = true
    · rw [if_pos hid]
      obtain ⟨hgt, hhb⟩ := Bool.and_eq_true_iff.mp hid
      obtain rfl := eq_of_beq hgt
      obtain rfl := eq_of_beq hhb
      refine .pure hm hf.live ?_
      rw [tree_top, tree_bot, Tree.ite_leaves pf]
    rw [if_neg hid]
    by_cases hnot : (g.isBot && h.isTop) = true
    · rw [if_pos hnot]
      obtain ⟨hgb, hht⟩ := Bool.and_eq_true_iff.mp hnot
      obtain rfl := eq_of_beq hgb
      obtain rfl := eq_of_beq hht
      rw [tree_top, tree_bot, Tree.ite_leaves_not pf]
      exact .depth hm (.not_depth hm hf.kept)
    rw [if_neg hnot]
    have ht := NodeId.inner_of_not hbot htop
    -- Otherwise all three operands are split on the first of their levels.
    refine .memo (q := .ite f g h) hm (by simpa [Query.nodes] using ⟨hf.kept, hg.kept, hh.kept⟩)
      fun m' he hm' => ?_
    have hf' := hf.evolves he
    have hg' := hg.evolves he
    have hh' := hh.evolves he
    refine .node hm' hf'.live fun nf hnf => .node hm' hg'.live fun ng hng =>
      .node hm' hh'.live fun nh hnh => ?_
    simp only [Node.cofactors_eq]
    have hltf := hnf.lt hm' ht
    have hkf := hf'.le_level hnf
    have hkg := hg'.le_level hng
    have hkh := hh'.le_level hnh
    have hvar := he.varNum
    generalize hlevel : min (min nf.level ng.level) nh.level = level
    have hlt : level < m'.varNum := by lia
    have cf := fun b => hf'.cofactor hm' hnf (by lia) hlt b
    have cg := fun b => hg'.cofactor hm' hng (by lia) hlt b
    have ch := fun b => hh'.cofactor hm' hnh (by lia) hlt b
    have side := fun b => Tree.Proper.ite ((cf b).proper hm') ((cg b).proper hm')
      ((ch b).proper hm')
    refine (Yields.split hm' hlt (side false) (side true)
      (ih hm' (cf false) (cg false) (ch false) (by lia)) (fun m'' he' hm'' => ?_)
      (.ite (cf true).kept (cg true).kept (ch true).kept)).mono ?_
    · have hvar' := he'.varNum
      rw [← hm'.tree hm'' he' (cf true).kept, ← hm'.tree hm'' he' (cg true).kept,
        ← hm'.tree hm'' he' (ch true).kept]
      exact ih hm'' ((cf true).evolves he') ((cg true).evolves he') ((ch true).evolves he') (by lia)
    · rintro t rfl
      exact (tree_ite_split hm' hf' hg' hh' hnf hng hnh hlt (by lia) (by lia) (by lia)).symm

theorem Yields.ite_depth (hm : m.Sound) (hf : m.Kept f) (hg : m.Kept g) (hh : m.Kept h) :
    Yields m (Program.ite f g h m.depth)
      (· = Tree.ite (m.diagram.tree f) (m.diagram.tree g) (m.diagram.tree h)) := by
  have hdepth : m.depth = m.varNum + 2 := rfl
  exact .ite hm (hm.operand hf) (hm.operand hg) (hm.operand hh) (by lia)

/-! ### Lists of operands -/

theorem Uses.applyMany {fs : List NodeId} {res : NodeId} (hfs : ∀ f ∈ fs, f ∈ S) (hres : res ∈ S) :
    (Program.applyMany op fs res).Uses S := by
  induction fs generalizing S res with
  | nil => exact hres
  | cons f fs ih =>
    rw [Program.applyMany]
    refine ⟨by simp [Step.reads], fun d => ?_⟩
    have hS := Scope.le_add S (Step.brings .depth d)
    refine Uses.bind (Tidy.apply (hS _ hres) (hS _ (hfs f (by simp)))).uses fun r hS' hr => ?_
    refine ⟨by simpa [Step.reads] using hr, fun _ => ih (fun x hx => .inl ?_) (.inl hr)⟩
    exact hS' x (hS x (hfs x (List.mem_cons_of_mem _ hx)))

/-- A connective over a list.  The operands are kept by the call, the result so far is pending. -/
theorem Ensures.applyMany {m₀ : Manager} (hm₀ : m₀.Sound) (hp₀ : m₀.pending = [])
    {fs : List NodeId} {res : NodeId} (hfs : ∀ f ∈ fs, m₀.Kept f) (he : m₀.Evolves m)
    (hc : m.Coherent m₀.varNum) (hres : m.Kept res) {T : Scope → NodeId → Prop}
    (hT : Frames m₀.scope T) :
    Ensures m₀.varNum m₀ (Program.applyMany op fs res) T m fun r m' =>
      m'.diagram.Live r ∧ m'.diagram.tree r =
        fs.foldl (fun t f => Tree.apply op t (m₀.diagram.tree f)) (m.diagram.tree res) := by
  induction fs generalizing m res with
  | nil => exact ⟨he, hc, hc.kept_live hres, rfl⟩
  | cons f fs ih =>
    have hm := hm₀.evolves he hc
    have hf := hfs f (by simp)
    rw [Program.applyMany]
    -- What follows names the result so far and the operands still to come, which are kept.
    have huses : ∀ {S : Scope} r, m.scope ≤ S → r ∈ S →
        Uses (do Program.keepOnly r; Program.applyMany op fs r) S := by
      intro S r hS hr
      refine ⟨by simpa [Step.reads] using hr, fun _ =>
        Uses.applyMany (fun x hx => .inl ?_) (.inl hr)⟩
      exact hS x (he.of_kept (hfs x (List.mem_cons_of_mem _ hx)))
    refine ⟨⟨he, hc⟩, fun h => absurd h Bool.false_ne_true, .of_ok rfl he hc ?_⟩
    refine Ensures.bind ((Yields.apply_depth hm hres (he.of_kept hf)).ensures he
      (frames_next huses (hT.mono he.scope_le))) ?_
    rintro r m₁ he₁ hc₁ ⟨-, -, hlive, htree⟩
    refine .keepOnly hp₀ he₁ hc₁ hlive fun m₂ he₂ hc₂ hd hkept => ?_
    refine (ih (fun x hx => hfs x (List.mem_cons_of_mem _ hx)) he₂ hc₂ hkept).mono ?_
    rintro r' m' - - ⟨hlive', htree'⟩
    refine ⟨hlive', htree'.trans ?_⟩
    rw [List.foldl_cons, hd, htree, hm₀.tree hm he hf]

end Program

end DecisionDiagram
