/-
The witnesses and cubes are the ones of the trees.

A witness is built from the bottom up, and every cube on the way stays pending; a cube of variables
is the only pending node of its call.

* `Program.Builds.satOne`, `.satOneSet`, `.fullSatOne` — the witnesses;
* `Program.Ensures.cubeOfLevels` — the cube of a decreasing list of levels.
-/
import DecisionDiagram.Operator.Witness
import DecisionDiagram.Proofs.Recursion
import DecisionDiagram.Proofs.Tree.Witness

namespace DecisionDiagram

open Manager

namespace Program

variable {S : Scope} {m : Manager} {j k n : Nat} {f set rest : NodeId} {p : Program NodeId}
  {level : Level} {polarity : Bool} {t u : Tree}

/-! ### What the recursions name -/

theorem Uses.node {next : Node → Program NodeId} (hf : f ∈ S)
    (h : ∀ {S'} n, S ≤ S' → n.low ∈ S' → n.high ∈ S' → (next n).Uses S') :
    (Program.node f >>= next).Uses S := by
  refine ⟨by simpa [Step.reads] using hf, fun n => ?_⟩
  exact h n (Scope.le_add _ _) (Scope.mem_add_of_mem (by simp [Step.brings]))
    (Scope.mem_add_of_mem (by simp [Step.brings]))

theorem Uses.literal {positive : Bool} (hrest : rest ∈ S) :
    (Program.literal level positive rest).Uses S := by
  have hbot : NodeId.bot ∈ S := S.terminal rfl
  have hpush : ∀ {S' : Scope} id, S ≤ S' → id ∈ S' → Uses (do push id; return id) S' :=
    fun id _ hid => ⟨by simpa [Step.reads] using hid, fun _ => .inl hid⟩
  rw [Program.literal]
  split
  · exact (Tidy.make level hbot hrest).uses.andThen hpush
  · exact (Tidy.make level hrest hbot).uses.andThen hpush

theorem Uses.negativeLiterals {levels : List Level} (hrest : rest ∈ S) :
    (Program.negativeLiterals levels rest).Uses S := by
  induction levels generalizing S rest with
  | nil => exact hrest
  | cons level levels ih => exact (Uses.literal hrest).andThen fun _ _ hr => ih hr

/-! ### Literals on top of a cube -/

/-- The program, run in `m`, answers a kept node at or below level `k`, and the tree of this is `t`.
Pending nodes may be added. -/
def Builds (m : Manager) (k : Level) (p : Program NodeId) (t : Tree) : Prop :=
  ∀ T : Scope → NodeId → Prop, Frames m.scope T →
    Ensures m.varNum m p T m fun res m' => m'.Operand k res ∧ m'.diagram.tree res = t

theorem Builds.pure (hm : m.Sound) (hf : m.Operand k f) :
    Builds m k (Pure.pure f) (m.diagram.tree f) :=
  fun _ _ => ⟨.refl m, hm.toCoherent, hf, rfl⟩

theorem Builds.mono (h : Builds m k p t) (hj : j ≤ k) : Builds m j p t := fun T hT =>
  (h T hT).mono fun _ _ _ _ hres => ⟨hres.1.mono hj, hres.2⟩

theorem Builds.bind {next : NodeId → Program NodeId} (hm : m.Sound) (h : Builds m k p t)
    (huses : ∀ {S} res, m.scope ≤ S → res ∈ S → (next res).Uses S)
    (hn : ∀ res m', m.Evolves m' → m'.Sound → m'.Operand k res → m'.diagram.tree res = t →
      Builds m' j (next res) u) :
    Builds m j (p >>= next) u := by
  intro T hT
  refine Ensures.bind (h _ (frames_next huses hT)) ?_
  rintro res m' he hc ⟨hres, htree⟩
  have hx := (hn res m' he (hm.evolves he hc) hres htree T (hT.mono he.scope_le)).rebase he
  rw [he.varNum] at hx
  exact hx.mono fun _ _ _ _ h => h.2

theorem Builds.observe {α : Type} {p : Program α} {next : α → Program NodeId} {Q : α → Prop}
    (hm : m.Sound) (hp : Observes m p Q) (h : ∀ a, Q a → Builds m k (next a) t) :
    Builds m k (p >>= next) t := by
  intro T hT
  refine Ensures.bind (hp.ensures hm _) ?_
  rintro a m' - - ⟨rfl, ha⟩
  exact h a ha T hT

theorem Builds.node {next : Node → Program NodeId} (hm : m.Sound) (hf : m.diagram.Live f)
    (h : ∀ nd, m.Reads f nd → Builds m k (next nd) t) : Builds m k (Program.node f >>= next) t := by
  obtain ⟨n, hn, hr⟩ := hm.exists_reads hf
  refine .observe (p := Program.node f) hm ⟨rfl, n, ?_, rfl⟩ ?_
  · simp only [Step.exec, Build.read, hn]
  · rintro _ rfl
    exact h n hr

/-- A literal on top of a cube below its level. -/
theorem Builds.literal (hm : m.Sound) (hlevel : level < m.varNum) (positive : Bool)
    (hrest : m.Operand (level + 1) rest) :
    Builds m level (Program.literal level positive rest)
      ((m.diagram.tree rest).literal level positive) := by
  have hbot : m.Operand (level + 1) NodeId.bot := .terminal rfl hlevel
  have push : ∀ {p : Program NodeId} {t : Tree}, Yields m p (· = t) → t.Proper level →
      Builds m level (p >>= fun id => do push id; return id) t := by
    intro p t hp ht T hT
    have huses : ∀ {S : Scope} id, m.scope ≤ S → id ∈ S → Uses (do push id; return id) S :=
      fun id _ hid => ⟨by simpa [Step.reads] using hid, fun _ => .inl hid⟩
    refine Ensures.bind (hp _ (frames_next huses hT)) ?_
    rintro res m₁ he₁ hc₁ ⟨hlive, rfl⟩
    have hm₁ := hm.evolves he₁ hc₁
    refine ⟨⟨he₁, hc₁⟩, fun h => absurd h Bool.false_ne_true,
      (Build.Ensures.push he₁ hc₁ hlive).mono ?_⟩
    rintro - m₂ he₂ hc₂ rfl
    refine ⟨he₂, hc₂, ⟨kept_of_pending List.mem_cons_self, ?_, ?_⟩, rfl⟩
    · exact hm₁.reduced.under_of_proper hlive ht
    · have := he₂.varNum
      lia
  have hproper := (hrest.proper hm).literal positive
  rw [Tree.literal] at hproper
  rw [Program.literal, Tree.literal, ← hm.reduced.tree_bot]
  rw [← hm.reduced.tree_bot] at hproper
  split
  · exact push (.mk hm hlevel hbot hrest) (by simpa [*] using hproper)
  · exact push (.mk hm hlevel hrest hbot) (by simpa [*] using hproper)

/-! ### Witnesses -/

theorem Builds.satOne (hm : m.Sound) (hf : m.Operand k f) (hn : m.varNum < n + k) :
    Builds m k (Program.satOne f n) (m.diagram.tree f).satOne := by
  induction n generalizing m k f with
  | zero =>
    have := hf.le
    lia
  | succ n ih =>
    rw [Program.satOne]
    split
    · rename_i ht
      have hleaf := hm.reduced.tree_terminal ht
      have hpure := Builds.pure hm hf
      rw [hleaf] at hpure ⊢
      exact hpure
    · rename_i ht
      refine .node hm hf.live fun nf hnf => ?_
      have hd := hnf.inner (Bool.eq_false_iff.mpr ht)
      have hk := hf.le_level hnf
      have hlt := hm.reduced.label_lt hd
      have hlow : m.diagram.Live nf.low := (hf.child hm hd false).live
      -- The assignment goes on below one child, under the literal of this node.
      have go : ∀ b positive, Builds m k
          (Program.satOne (nf.child b) n >>= Program.literal nf.level positive)
          ((m.diagram.tree (nf.child b)).satOne.literal nf.level positive) := by
        intro b positive
        refine .bind hm (ih hm (hf.child hm hd b) (by lia)) (fun _ _ hr => .literal hr) ?_
        intro res m' he hm' hres htree
        exact htree ▸ (Builds.literal hm' (he.varNum ▸ hlt) positive hres).mono hk
      rw [hm.reduced.tree_node hd, Tree.satOne]
      by_cases hbot : nf.low.isBot = true
      · rw [if_pos hbot, if_pos (hm.tree_leaf_of_isBot hbot)]
        exact go true true
      · rw [if_neg hbot, if_neg (hm.tree_ne_false hlow hbot)]
        exact go false false

theorem Builds.satOneSet (hm : m.Sound) (hf : m.Operand k f) (hset : m.Operand k set)
    (hn : m.varNum < n + k) :
    Builds m k (Program.satOneSet polarity f set n)
      (Tree.satOneSet polarity (m.diagram.tree f) (m.diagram.tree set).spine) := by
  induction n generalizing m k f set with
  | zero =>
    have := hf.le
    lia
  | succ n ih =>
    rw [Program.satOneSet]
    split
    · rename_i hends
      rw [Bool.and_eq_true_iff] at hends
      have hpure := Builds.pure hm hf
      rw [hm.reduced.tree_terminal hends.1] at hpure
      rw [hm.reduced.tree_terminal hends.1, hm.reduced.tree_terminal hends.2]
      exact hpure
    · rename_i hgo
      rw [Bool.and_eq_true_iff, not_and_or, Bool.not_eq_true, Bool.not_eq_true] at hgo
      refine .node hm hf.live fun nf hnf => .node hm hset.live fun ns hns => ?_
      have hkf := hf.le_level hnf
      have hks := hset.le_level hns
      have hlf := hnf.level_le hm
      have hls := hns.level_le hm
      -- The literal of a level goes on top of the assignment found below it.
      have go : ∀ {level : Level} {f' set' : NodeId} (positive : Bool), k ≤ level →
          level < m.varNum → m.Operand (level + 1) f' → m.Operand (level + 1) set' →
          Builds m k (Program.satOneSet polarity f' set' n >>= Program.literal level positive)
            ((Tree.satOneSet polarity (m.diagram.tree f') (m.diagram.tree set').spine).literal level
              positive) := by
        intro level f' set' positive hle hlt hf' hset'
        refine .bind hm (ih hm hf' hset' (by lia)) (fun _ _ hr => .literal hr) ?_
        intro res m' he hm' hres htree
        exact htree ▸ (Builds.literal hm' (he.varNum ▸ hlt) positive hres).mono hle
      split
      · rename_i hlt
        have hd := hns.diagram_eq (by lia)
        have hfirst : ∀ k, (m.diagram.tree f).level? = some k → ns.level < k := fun k hk => by
          rwa [hnf.levelOr hm, Tree.levelOr, hk] at hlt
        rw [hm.reduced.tree_node hd, Tree.spine, Tree.satOneSet_cons hfirst]
        exact go polarity hks (by lia) (hf.lower hm hnf hlt) (hset.child hm hd true)
      · rename_i hge
        have hltf : nf.level < m.varNum := by
          rcases hgo with ht | ht
          · exact hnf.lt hm ht
          · have := hns.lt hm ht
            lia
        have hd := hnf.diagram_eq hltf
        have hlow : m.diagram.Live nf.low := (hf.child hm hd false).live
        -- A variable that `f` decides here drops out of the set.
        obtain ⟨next, hnext⟩ : ∃ x, x = if ns.level = nf.level then ns.high else set := ⟨_, rfl⟩
        have hbelow : m.Operand (nf.level + 1) next := by
          rw [hnext]
          split
          · rename_i heq
            rw [← heq]
            exact hset.child hm (hns.diagram_eq (by lia)) true
          · exact hset.lower hm hns (by lia)
        have habove := (hbelow.proper hm).spine_pairwise.2
        have htree : Tree.satOneSet polarity (m.diagram.tree f) (m.diagram.tree set).spine =
            Tree.satOneSet polarity (m.diagram.tree f) (m.diagram.tree next).spine := by
          rw [hnext] at habove ⊢
          split
          · rename_i heq
            rw [if_pos heq] at habove
            rw [hm.reduced.tree_node (hns.diagram_eq (by lia)), hm.reduced.tree_node hd, Tree.spine, heq]
            exact (Tree.satOneSet_node habove).2
          · rfl
        rw [htree, hm.reduced.tree_node hd, (Tree.satOneSet_node habove).1]
        dsimp only
        rw [← hnext]
        by_cases hbot : nf.low.isBot = true
        · rw [if_pos hbot, if_pos (hm.tree_leaf_of_isBot hbot)]
          exact go true hkf hltf (hf.child hm hd true) hbelow
        · rw [if_neg hbot, if_neg (hm.tree_ne_false hlow hbot)]
          exact go false hkf hltf (hf.child hm hd false) hbelow

/-- Negative literals from below a cube upwards. -/
theorem Builds.negativeLiterals (hm : m.Sound) {top bottom : Level} (hle : top ≤ bottom)
    (hrest : m.Operand bottom rest) :
    Builds m top (Program.negativeLiterals (levelsUp top bottom) rest)
      ((m.diagram.tree rest).fill top bottom) := by
  obtain ⟨d, rfl⟩ := Nat.exists_eq_add_of_le hle
  rw [levelsUp, Nat.add_sub_cancel_left]
  induction d generalizing m rest with
  | zero => exact Tree.fill_self top _ ▸ .pure hm hrest
  | succ d ih =>
    have hlist : (List.range' top (d + 1)).reverse = (top + d) :: (List.range' top d).reverse := by
      rw [List.range'_1_concat, List.reverse_append]
      rfl
    rw [hlist, Program.negativeLiterals, ← Nat.add_assoc, Tree.fill_succ (Nat.le_add_right top d)]
    refine .bind hm (Builds.literal hm hrest.le false hrest) (fun _ _ hr => .negativeLiterals hr) ?_
    intro res m' _ hm' hres htree
    exact htree ▸ ih hm' (by lia) hres

/-- A kept node still stands at its level later. -/
theorem level_eq_of_evolves {m' : Manager} {nf nf' : Node} (hf : m.Kept f) (h : m.Reads f nf)
    (he : m.Evolves m') (h' : m'.Reads f nf') : nf'.level = nf.level := by
  by_cases ht : f.isTerminal = true
  · rw [h'.terminal ht, h.terminal ht, he.varNum]
  · have ht := Bool.eq_false_iff.mpr ht
    rw [Option.some.inj ((h'.inner ht).symm.trans ((h.evolves he hf).inner ht))]

theorem Builds.fullSatOne (hm : m.Sound) (hf : m.Operand k f) (hn : m.varNum < n + k) :
    Builds m k (Program.fullSatOne f n) ((m.diagram.tree f).fullSatOne m.varNum) := by
  induction n generalizing m k f with
  | zero =>
    have := hf.le
    lia
  | succ n ih =>
    rw [Program.fullSatOne]
    split
    · rename_i ht
      have hpure := Builds.pure hm hf
      rw [hm.reduced.tree_terminal ht] at hpure ⊢
      exact hpure
    · rename_i ht
      refine .node hm hf.live fun nf hnf => ?_
      have hd := hnf.inner (Bool.eq_false_iff.mpr ht)
      have hk := hf.le_level hnf
      have hlt := hm.reduced.label_lt hd
      have hlow : m.diagram.Live nf.low := (hf.child hm hd false).live
      -- The levels between a node and its child are filled with negative literals.
      have go : ∀ b positive, Builds m k (do
          let rest ← Program.fullSatOne (nf.child b) n
          let nc ← Program.node (nf.child b)
          Program.literal nf.level positive
            (← Program.negativeLiterals (levelsUp (nf.level + 1) nc.level) rest))
          ((((m.diagram.tree (nf.child b)).fullSatOne m.varNum).fill (nf.level + 1)
            ((m.diagram.tree (nf.child b)).levelOr m.varNum)).literal nf.level positive) := by
        intro b positive
        have hchild := hf.child hm hd b
        obtain ⟨nc, -, hread⟩ := hm.exists_reads hchild.live
        have hkc := hchild.le_level hread
        rw [← hread.levelOr hm]
        refine .bind hm (ih hm (hchild.lower hm hread (Nat.le_refl _)) (by lia))
          (fun res hS hres => .node (hS _ hchild.kept) fun nc hS' _ _ =>
            (Uses.negativeLiterals (hS' res hres)).andThen fun _ _ hr => .literal hr) ?_
        intro res m' he hm' hres htree
        have hchild' := hchild.evolves he
        refine .node hm' hchild'.live fun nc' hread' => ?_
        rw [level_eq_of_evolves hchild.kept hread he hread', ← htree]
        refine .bind hm' (Builds.negativeLiterals hm' hkc hres) (fun _ _ hr => .literal hr) ?_
        intro res' m'' he' hm'' hres' htree'
        have hvar := he.varNum
        have hvar' := he'.varNum
        exact htree' ▸ (Builds.literal hm'' (by lia) positive hres').mono hk
      have hsame := go nf.low.isBot nf.low.isBot
      rw [hm.reduced.tree_node hd, Tree.fullSatOne]
      by_cases hbot : nf.low.isBot = true
      · rw [if_pos (hm.tree_leaf_of_isBot hbot)]
        rw [hbot] at hsame ⊢
        exact hsame
      · rw [if_neg (hm.tree_ne_false hlow hbot)]
        rw [Bool.eq_false_iff.mpr hbot] at hsame ⊢
        exact hsame

/-- With literals for the variables above the operand, too. -/
theorem Builds.fullSatOneFromTop (hm : m.Sound) (hf : m.Kept f) :
    Builds m 0 (Program.fullSatOneFromTop f m.depth)
      (((m.diagram.tree f).fullSatOne m.varNum).fill 0 ((m.diagram.tree f).levelOr m.varNum)) := by
  have hdepth : m.depth = m.varNum + 2 := rfl
  have hf := hm.operand hf
  obtain ⟨nf, -, hnf⟩ := hm.exists_reads hf.live
  have hlow := hf.lower hm hnf (Nat.le_refl _)
  rw [← hnf.levelOr hm]
  refine .bind hm (.fullSatOne hm hlow (by lia))
    (fun res hS hres => .node (hS f hf.kept) fun nf hS' _ _ => .negativeLiterals (hS' res hres)) ?_
  intro res m' he hm' hres htree
  refine .node hm' (he.under hf.kept hf.under).live fun nf' hnf' => ?_
  rw [level_eq_of_evolves hf.kept hnf he hnf', ← htree]
  exact .negativeLiterals hm' (Nat.zero_le _) hres

/-! ### Cubes of variables -/

theorem Uses.cubeOfLevels {levels : List Level} {res : NodeId} (hres : res ∈ S) :
    (Program.cubeOfLevels levels res).Uses S := by
  induction levels generalizing S res with
  | nil => exact hres
  | cons level levels ih =>
    exact (Tidy.make level (S.terminal rfl) hres).uses.bind fun r _ hr =>
      ⟨by simpa [Step.reads] using hr, fun _ => ih (.inl hr)⟩

/-- The cube of a decreasing list of levels, in a call that keeps nothing else pending. -/
theorem Ensures.cubeOfLevels {m₀ : Manager} (hm₀ : m₀.Sound) (hp₀ : m₀.pending = [])
    {levels : List Level} (hlevels : levels.Pairwise (· > ·)) (hlt : ∀ l ∈ levels, l < m₀.varNum)
    (he : m₀.Evolves m) (hc : m.Coherent m₀.varNum) {res : NodeId} (hres : m.Kept res)
    (hu : ∀ l ∈ levels, (m.diagram.tree res).Proper (l + 1)) {T : Scope → NodeId → Prop}
    (hT : Frames m₀.scope T) :
    Ensures m₀.varNum m₀ (Program.cubeOfLevels levels res) T m fun r m' => m'.diagram.Live r ∧
      ∀ v, (m'.diagram.tree r).eval v = true ↔
        (∀ l ∈ levels, v l = true) ∧ (m.diagram.tree res).eval v = true := by
  induction levels generalizing m res with
  | nil => exact ⟨he, hc, hc.kept_live hres, fun v => by simp⟩
  | cons level levels ih =>
    have hm := hm₀.evolves he hc
    have hl : level < m.varNum := he.varNum ▸ hlt level (by simp)
    -- The levels come from the lowest up, so each literal goes on top of the cube so far.
    have hbot : m.Operand (level + 1) NodeId.bot := .terminal rfl hl
    have hbelow := Operand.of_proper hm hres (hu level (by simp)) hl
    have huses : ∀ {S : Scope} r, m.scope ≤ S → r ∈ S →
        Uses (do Program.keepOnly r; Program.cubeOfLevels levels r) S := fun r _ hr =>
      ⟨by simpa [Step.reads] using hr, fun _ => Uses.cubeOfLevels (.inl hr)⟩
    refine Ensures.bind ((Yields.mk hm hl hbot hbelow).ensures he
      (frames_next huses (hT.mono he.scope_le))) ?_
    rintro r m₁ he₁ hc₁ ⟨-, -, hlive, htree⟩
    refine .keepOnly hp₀ he₁ hc₁ hlive fun m₂ he₂ hc₂ hd hkept => ?_
    refine (ih (List.pairwise_cons.mp hlevels).2 (fun l hl => hlt l (List.mem_cons_of_mem _ hl)) he₂
      hc₂ hkept fun l hl => ?_).mono fun r' m' _ _ hrest => ⟨hrest.1, fun v => ?_⟩
    · rw [hd, htree]
      exact ((hbot.proper hm).make (hbelow.proper hm)).mono ((List.pairwise_cons.mp hlevels).1 l hl)
    · rw [hrest.2, hd, htree, Tree.eval_make, hm.reduced.tree_bot, Tree.eval_leaf,
        List.forall_mem_cons]
      cases v level <;> simp

end Program

end DecisionDiagram
