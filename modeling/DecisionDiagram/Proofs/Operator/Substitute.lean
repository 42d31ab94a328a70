/-
The substitutions are right.

* `Program.Yields.compose` — at one level;
* `Program.Yields.sink` — a variable is sunk to its level, if this is one;
* `Program.Yields.vecCompose`, `.rename` — by a pairing. Their answers are found again by the stamp of
  the pairing, as long as the stamps have not run out (`Pairings.Stamped.forall_iff`).
-/
import DecisionDiagram.Operator.Substitute
import DecisionDiagram.Proofs.Operator.Connective

namespace DecisionDiagram

/-- No two pairings have the same stamp. -/
theorem Pairings.Stamped.forall_iff {p : Pairings} (hp : p.Stamped) {e : Pairing}
    (he : e ∈ p.tables) {P : Pairing → Prop} :
    (p.updates < 2 ^ 32 → e.stamp.toNat ≤ p.updates ∧ ∀ e' ∈ p.tables, e'.stamp = e.stamp → P e') ↔
      (p.updates < 2 ^ 32 → P e) := by
  refine ⟨fun h hu => (h hu).2 e he rfl, fun h hu => ⟨(hp hu).1 e he, fun e' he' hstamp => ?_⟩⟩
  obtain ⟨i, hi⟩ := Array.getElem?_of_mem he
  obtain ⟨j, hj⟩ := Array.getElem?_of_mem he'
  obtain rfl := (hp hu).2 hj hi hstamp
  exact Option.some.inj (hi.symm.trans hj) ▸ h hu

open Manager

namespace Manager

variable {m : Manager} {f l r : NodeId} {nf nl nr : Node} {k : Level}

theorem Reads.tree_level (h : m.Reads f nf) (hm : m.Sound) (hlt : nf.level < m.varNum) :
    (m.diagram.tree f).level? = some nf.level := by
  rw [hm.reduced.tree_node (h.diagram_eq hlt), Tree.level?]

/-- A tree that decides the level `k` first is that of a node at this level. -/
theorem Reads.level_eq (h : m.Reads f nf) (hm : m.Sound) (hk : (m.diagram.tree f).level? = some k) :
    nf.level = k := by
  by_cases ht : f.isTerminal = true
  · rw [hm.reduced.tree_terminal ht] at hk
    cases hk
  · rw [h.tree_level hm (h.lt hm (Bool.eq_false_iff.mpr ht))] at hk
    exact Option.some.inj hk

/-- The topmost level of two trees is that of the topmost node. -/
theorem Reads.tree_top (hnl : m.Reads l nl) (hnr : m.Reads r nr) (hm : m.Sound)
    (hlt : min nl.level nr.level < m.varNum) :
    Tree.top (m.diagram.tree l) (m.diagram.tree r) = some (min nl.level nr.level) := by
  have hll := hnl.level_le hm
  have hlr := hnr.level_le hm
  by_cases htl : l.isTerminal = true
  · have hl := hnl.terminal htl
    rw [hm.reduced.tree_terminal htl, hm.reduced.tree_node (hnr.diagram_eq (by lia)), Tree.top,
      Nat.min_eq_right (by lia)]
  · rw [hm.reduced.tree_node (hnl.inner (Bool.eq_false_iff.mpr htl))]
    by_cases htr : r.isTerminal = true
    · have hr := hnr.terminal htr
      rw [hm.reduced.tree_terminal htr, Tree.top, Nat.min_eq_left (by lia)]
    · rw [hm.reduced.tree_node (hnr.inner (Bool.eq_false_iff.mpr htr)), Tree.top]

/-- The answers by a pairing of the manager are those of its own stamp. -/
theorem Sound.tells_vecCompose (hm : m.Sound) {p : Pairing} (hp : p ∈ m.pairings.tables)
    {last : Level} (hlast : p.last = some last) {t : Tree} :
    m.Tells (.vecCompose p.stamp f) t ↔ (m.pairings.updates < 2 ^ 32 →
      Tree.vecCompose (fun k => m.diagram.tree (p.entry k)) last (m.diagram.tree f) = t) := by
  refine (hm.pairings.stamps.forall_iff hp (P := fun e => ∃ last, e.last = some last ∧
    Tree.vecCompose (fun k => m.diagram.tree (e.entry k)) last (m.diagram.tree f) = t)).trans ?_
  simp only [hlast, Option.some.injEq, exists_eq_left']

theorem Sound.tells_rename (hm : m.Sound) {p : Pairing} (hp : p ∈ m.pairings.tables)
    {last : Level} (hlast : p.last = some last) {t : Tree} :
    m.Tells (.rename p.stamp f) t ↔ (m.pairings.updates < 2 ^ 32 →
      Tree.rename (fun k => (m.diagram.tree (p.entry k)).level?) last (m.diagram.tree f) =
        some t) := by
  refine (hm.pairings.stamps.forall_iff hp (P := fun e => ∃ last, e.last = some last ∧
    Tree.rename (fun k => (m.diagram.tree (e.entry k)).level?) last (m.diagram.tree f) =
      some t)).trans ?_
  simp only [hlast, Option.some.injEq, exists_eq_left']

end Manager

namespace Program

variable {S : Scope} {m : Manager} {k n : Nat} {f g h l : NodeId} {level last : Level} {p : Pairing}

/-! ### What the recursions name -/

theorem Tidy.compose (hf : f ∈ S) (hg : g ∈ S) : Tidy S (Program.compose level f g n) := by
  induction n generalizing S f g with
  | zero => exact .fault
  | succ n ih =>
    rw [Program.compose]
    refine .node hf fun nf hS hfl hfh => ?_
    have hf := hS f hf
    have hg := hS g hg
    split
    · exact .pure hf
    refine .memo (by simpa [Query.nodes] using ⟨hf, hg⟩) ?_
    split
    · refine .node hg fun ng hS' hgl hgh => ?_
      simp only [Node.cofactors_eq]
      have cf := fun b => cofactor_mem (min nf.level ng.level) (hS' f hf) (hS' _ hfl)
        (hS' _ hfh) b
      have cg := fun b => cofactor_mem (min nf.level ng.level) (hS' g hg) hgl hgh b
      exact .branch (ih (cf false) (cg false)) (ih (cf true) (cg true))
        fun _ _ _ hl hh => .make _ hl hh
    · exact .depth fun _ => .ite hg hfh hfl

/-- The entry of a pairing, whose entries are in scope. -/
theorem Tidy.substitute (hp : ∀ x ∈ p.result, x ∈ S) : Tidy S (Program.substitute p level) := by
  unfold Program.substitute
  split
  · rename_i hx
    exact .pure (hp _ (Array.mem_of_getElem? hx))
  · exact .fault

theorem Tidy.vecCompose (hf : f ∈ S) (hp : ∀ x ∈ p.result, x ∈ S) :
    Tidy S (Program.vecCompose p last f n) := by
  induction n generalizing S f with
  | zero => exact .fault
  | succ n ih =>
    rw [Program.vecCompose]
    refine .node hf fun nf hS hfl hfh => ?_
    have hp := fun x hx => hS x (hp x hx)
    split
    · exact .pure (hS f hf)
    refine .memo (by simpa [Query.nodes] using hS f hf) ?_
    exact .branch (ih hfl hp) (ih hfh hp) fun l h hS' hl hh =>
      (Tidy.substitute fun x hx => hS' x (hp x hx)).bind fun x hS'' hx =>
        .depth fun _ => .ite hx (hS'' h hh) (hS'' l hl)

theorem Tidy.sink (hl : l ∈ S) (hh : h ∈ S) : Tidy S (Program.sink level l h n) := by
  induction n generalizing S l h with
  | zero => exact .fault
  | succ n ih =>
    rw [Program.sink]
    refine .node hl fun nl hS hll hlh => .node (hS h hh) fun nh hS' hhl hhh => ?_
    have hl := hS' l (hS l hl)
    have hh := hS' h (hS h hh)
    split
    · exact .make _ hl hh
    split
    · exact .fail _
    simp only [Node.cofactors_eq]
    have cl := fun b => cofactor_mem (min nl.level nh.level) hl (hS' _ hll) (hS' _ hlh) b
    have ch := fun b => cofactor_mem (min nl.level nh.level) hh hhl hhh b
    exact .branch (ih (cl false) (ch false)) (ih (cl true) (ch true))
      fun _ _ _ hl hh => .make _ hl hh

theorem Tidy.rename (hf : f ∈ S) (hp : ∀ x ∈ p.result, x ∈ S) :
    Tidy S (Program.rename p last f n) := by
  induction n generalizing S f with
  | zero => exact .fault
  | succ n ih =>
    rw [Program.rename]
    split
    · exact .pure hf
    refine .node hf fun nf hS hfl hfh => ?_
    have hp := fun x hx => hS x (hp x hx)
    split
    · exact .pure (hS f hf)
    refine .memo (by simpa [Query.nodes] using hS f hf) ?_
    exact .branch (ih hfl hp) (ih hfh hp) fun l h hS' hl hh =>
      (Tidy.substitute fun x hx => hS' x (hp x hx)).bind fun x hS'' hx =>
        .node hx fun target hS₃ _ _ => .depth fun _ => .sink (hS₃ l (hS'' l hl)) (hS₃ h (hS'' h hh))

/-! ### One level -/

theorem Yields.compose (hm : m.Sound) (hlevel : level < m.varNum) (hf : m.Operand k f)
    (hg : m.Operand k g) (hn : m.varNum < n + k) :
    Yields m (Program.compose level f g n)
      (· = Tree.compose level (m.diagram.tree f) (m.diagram.tree g)) := by
  induction n generalizing m k f g with
  | zero =>
    have := hf.le
    lia
  | succ n ih =>
    rw [Program.compose]
    refine .node hm hf.live fun nf hnf => ?_
    split
    · rename_i hlt
      refine .pure hm hf.live ?_
      exact (((hf.lower hm hnf hlt).proper hm).compose_eq (hg.proper hm)).symm
    rename_i hge
    have ht := hnf.inner_of_lt (by lia)
    refine Yields.memo (q := .compose level f g) hm
      (by simpa [Query.nodes] using ⟨hf.kept, hg.kept⟩) fun m' he hm' => ?_
    have hf' := hf.evolves he
    have hg' := hg.evolves he
    have hnf' := hnf.evolves he hf.kept
    have hvar := he.varNum
    have hkf := hf'.le_level hnf'
    have tells : m'.Tells (.compose level f g) = (· = Tree.compose level (m'.diagram.tree f)
        (m'.diagram.tree g)) := rfl
    rw [tells]
    split
    · refine .node hm' hg'.live fun ng hng => ?_
      simp only [Node.cofactors_eq]
      have hkg := hg'.le_level hng
      have hlt : min nf.level ng.level < m'.varNum := by lia
      have cf := fun b => hf'.cofactor hm' hnf' (Nat.min_le_left _ ng.level) hlt b
      have cg := fun b => hg'.cofactor hm' hng (Nat.min_le_right nf.level _) hlt b
      refine (Yields.splitPair (Program.compose level · · n) (Tree.compose level) hm' hlt .compose
        (fun m'' a b he' hm'' ha hb => ?_) (cf false) (cf true) (cg false) (cg true)
        (.compose (cf true).kept (cg true).kept)).mono ?_
      · have hvar' := he'.varNum
        exact ih hm'' (by lia) ha hb (by lia)
      · rintro t rfl
        have pf := (hf'.lower hm' hnf' (Nat.min_le_left _ ng.level)).proper hm'
        have pg := (hg'.lower hm' hng (Nat.min_le_right nf.level _)).proper hm'
        simp only [hnf'.tree_cofactor hm' hlt, hng.tree_cofactor hm' hlt]
        exact (Tree.compose_eq_make (by lia) pf pg).symm
    · -- At the level itself the branches of `f` are chosen by `g`.
      have hd := hnf'.inner ht
      have hl : m'.Operand (nf.level + 1) nf.low := hf'.child hm' hd false
      have hh : m'.Operand (nf.level + 1) nf.high := hf'.child hm' hd true
      have heq : nf.level = level := by lia
      rw [hm'.reduced.tree_node hd, heq,
        Tree.compose_eq_ite (heq ▸ hl.proper hm') (heq ▸ hh.proper hm')]
      exact .depth hm' (.ite_depth hm' hg'.kept hh.kept hl.kept)

theorem Yields.compose_depth (hm : m.Sound) (hlevel : level < m.varNum) (hf : m.Kept f)
    (hg : m.Kept g) :
    Yields m (Program.compose level f g m.depth)
      (· = Tree.compose level (m.diagram.tree f) (m.diagram.tree g)) := by
  have hdepth : m.depth = m.varNum + 2 := rfl
  exact .compose hm hlevel (hm.operand hf) (hm.operand hg) (by lia)

/-! ### All levels -/

/-- A pairing of the manager has an entry for each level. -/
theorem observes_substitute (hm : m.Sound) (hp : p ∈ m.pairings.tables) (hlevel : level < m.varNum) :
    Observes m (substitute p level) (· = p.entry level) := by
  have hlt : level < p.result.size := by
    rw [(hm.pairings.entries p hp).1]
    exact hlevel
  rw [substitute, Array.getElem?_eq_getElem hlt, Pairing.entry, Array.getD_eq_getD_getElem?,
    Array.getElem?_eq_getElem hlt]
  exact rfl

theorem kept_result (hp : p ∈ m.pairings.tables) : ∀ x ∈ p.result, m.Kept x := by
  intro x hx
  refine kept_of_rooted (.inr (.inr (.inr (.inr ?_))))
  exact Pairings.mem_nodes.mpr ⟨p, hp, hx⟩

theorem Yields.vecCompose (hm : m.Sound) (hp : p ∈ m.pairings.tables) (hlast : p.last = some last)
    (hf : m.Operand k f) (hn : m.varNum < n + k) :
    Yields m (Program.vecCompose p last f n) (m.Tells (.vecCompose p.stamp f)) := by
  induction n generalizing m k f with
  | zero =>
    have := hf.le
    lia
  | succ n ih =>
    have hlt := (hm.pairings.entries p hp).2 last hlast
    rw [Program.vecCompose]
    refine .node hm hf.live fun nf hnf => ?_
    split
    · rename_i hbelow
      refine .pure hm hf.live ((hm.tells_vecCompose hp hlast).mpr fun _ => ?_)
      exact ((hf.lower hm hnf hbelow).proper hm).vecCompose_eq
    refine Yields.memo (q := .vecCompose p.stamp f) hm (by simpa [Query.nodes] using hf.kept)
      fun m' he hm' => ?_
    have hf' := hf.evolves he
    have hnf' := hnf.evolves he hf.kept
    have hvar := he.varNum
    have hkf := hf'.le_level hnf'
    have hd := hnf'.diagram_eq (by lia)
    have hl : m'.Operand (nf.level + 1) nf.low := hf'.child hm' hd false
    have hh : m'.Operand (nf.level + 1) nf.high := hf'.child hm' hd true
    have hp' : p ∈ m'.pairings.tables := he.pairings ▸ hp
    -- The branches answer what the tables would tell of the children.
    refine .branch hm' (ih hm' hp' hl (by lia)) (Q := m'.Tells (.vecCompose p.stamp nf.high))
      (fun m'' he' hm'' => ?_) (.vecCompose hh.kept (kept_result hp'))
      (fun l h hS hl hh => (Tidy.substitute fun x hx => hS x (kept_result hp' x hx)).bind
        fun x hS' hx => .depth fun _ => .ite hx (hS' h hh) (hS' l hl)) ?_
    · have hvar' := he'.varNum
      refine (ih hm'' (he'.pairings ▸ hp') (hh.evolves he') (by lia)).mono fun t ht => ?_
      exact (he'.tells hm'.toCoherent hm''.toCoherent
        (by simpa [Query.nodes] using hh.kept)).mp ht
    · intro m'' a b he' hm'' ha hb hP hQ
      have hvar' := he'.varNum
      have hp'' : p ∈ m''.pairings.tables := he'.pairings ▸ hp'
      refine .observe hm'' (observes_substitute hm'' hp'' (by lia)) ?_
      rintro x rfl
      refine .depth hm'' ((Yields.ite_depth hm'' (kept_entry hp'' _) hb ha).mono ?_)
      rintro t rfl
      -- Below `2 ^ 32` updates the stamp stands for this pairing alone.
      refine (hm'.tells_vecCompose hp' hlast).mpr fun hu => ?_
      rw [hm'.reduced.tree_node hd, Tree.vecCompose, if_neg (by lia),
        (hm'.tells_vecCompose hp' hlast).mp hP hu, (hm'.tells_vecCompose hp' hlast).mp hQ hu,
        hm'.tree hm'' he' (kept_entry hp' _)]

/-! ### Renaming -/

/-- A renamed variable is sunk to its level. There is no answer at the level of the terminals. -/
theorem Yields.sink (hm : m.Sound) (hle : level ≤ m.varNum) (hl : m.Operand k l)
    (hh : m.Operand k h) (hn : m.varNum < n + k) :
    Yields m (Program.sink level l h n) fun t =>
      level < m.varNum ∧ Tree.sink level (m.diagram.tree l) (m.diagram.tree h) = some t := by
  induction n generalizing m k l h with
  | zero =>
    have := hl.le
    lia
  | succ n ih =>
    rw [Program.sink]
    refine .node hm hl.live fun nl hnl => .node hm hh.live fun nh hnh => ?_
    have hkl := hl.le_level hnl
    have hkh := hh.le_level hnh
    have hll := hnl.level_le hm
    have hlh := hnh.level_le hm
    split
    · rename_i hbelow
      rw [Bool.and_eq_true_iff, decide_eq_true_eq, decide_eq_true_eq] at hbelow
      have hul := hl.lower hm hnl hbelow.1
      have huh := hh.lower hm hnh hbelow.2
      refine (Yields.mk hm (by lia) hul huh).mono ?_
      rintro t rfl
      exact ⟨by lia, Tree.sink_of_proper (hul.proper hm) (huh.proper hm)⟩
    split
    · exact .fail hm .replaceConflict
    rename_i habove hother
    rw [Bool.and_eq_true_iff, decide_eq_true_eq, decide_eq_true_eq] at habove
    rw [Bool.or_eq_true_iff, decide_eq_true_eq, decide_eq_true_eq, not_or] at hother
    simp only [Node.cofactors_eq]
    have hlt : min nl.level nh.level < m.varNum := by lia
    have cl := fun b => hl.cofactor hm hnl (Nat.min_le_left _ nh.level) hlt b
    have ch := fun b => hh.cofactor hm hnh (Nat.min_le_right nl.level _) hlt b
    have proper := fun b {t} => Tree.Proper.sink ((cl b).proper hm) ((ch b).proper hm) (k := level)
      (u := t) (by lia)
    -- The operands are split above the level, and the variable is sunk on both sides.
    refine .branch hm (ih hm hle (cl false) (ch false) (by lia))
      (Q := fun t => level < m.varNum ∧ Tree.sink level
        (m.diagram.tree (nl.cofactor l (min nl.level nh.level) true))
        (m.diagram.tree (nh.cofactor h (min nl.level nh.level) true)) = some t)
      (fun m' he hm' => ?_) (.sink (cl true).kept (ch true).kept)
      (fun _ _ _ hl hh => .make _ hl hh) ?_
    · have hvar := he.varNum
      rw [← hm.tree hm' he (cl true).kept, ← hm.tree hm' he (ch true).kept, ← hvar]
      exact ih hm' (by lia) ((cl true).evolves he) ((ch true).evolves he) (by lia)
    · rintro m' a b he hm' ha hb ⟨hlevel, hP⟩ ⟨-, hQ⟩
      have hvar := he.varNum
      refine (Yields.mk hm' (by lia) (.of_proper hm' ha (proper false hP) (by lia))
        (.of_proper hm' hb (proper true hQ) (by lia))).mono ?_
      rintro t rfl
      refine ⟨hlevel, ?_⟩
      rw [Tree.sink_of_top (fun heq => hother.1 (hnl.level_eq hm heq).symm)
        (fun heq => hother.2 (hnh.level_eq hm heq).symm) (hnl.tree_top hnh hm hlt) (by lia),
        ← hnl.tree_cofactor hm hlt, ← hnh.tree_cofactor hm hlt, ← hnl.tree_cofactor hm hlt,
        ← hnh.tree_cofactor hm hlt, hP, hQ]
      rfl

theorem Yields.rename (hm : m.Sound) (hp : p ∈ m.pairings.tables) (hlast : p.last = some last)
    (hf : m.Operand k f) (hn : m.varNum < n + k) :
    Yields m (Program.rename p last f n) (m.Tells (.rename p.stamp f)) := by
  induction n generalizing m k f with
  | zero =>
    have := hf.le
    lia
  | succ n ih =>
    have hlt := (hm.pairings.entries p hp).2 last hlast
    rw [Program.rename]
    split
    · rename_i ht
      refine .pure hm hf.live ((hm.tells_rename hp hlast).mpr fun _ => ?_)
      rw [hm.reduced.tree_terminal ht, Tree.rename]
    refine .node hm hf.live fun nf hnf => ?_
    split
    · rename_i hbelow
      refine .pure hm hf.live ((hm.tells_rename hp hlast).mpr fun _ => ?_)
      exact ((hf.lower hm hnf hbelow).proper hm).rename_eq
    refine Yields.memo (q := .rename p.stamp f) hm (by simpa [Query.nodes] using hf.kept)
      fun m' he hm' => ?_
    have hf' := hf.evolves he
    have hnf' := hnf.evolves he hf.kept
    have hvar := he.varNum
    have hkf := hf'.le_level hnf'
    have hd := hnf'.diagram_eq (by lia)
    have hl : m'.Operand (nf.level + 1) nf.low := hf'.child hm' hd false
    have hh : m'.Operand (nf.level + 1) nf.high := hf'.child hm' hd true
    have hp' : p ∈ m'.pairings.tables := he.pairings ▸ hp
    -- The branches are renamed first, then the variable of the node is sunk to its new level.
    refine .branch hm' (ih hm' hp' hl (by lia)) (Q := m'.Tells (.rename p.stamp nf.high))
      (fun m'' he' hm'' => ?_) (.rename hh.kept (kept_result hp'))
      (fun l h hS hl hh => (Tidy.substitute fun x hx => hS x (kept_result hp' x hx)).bind
        fun x hS' hx => .node hx fun target hS₃ _ _ =>
          .depth fun _ => .sink (hS₃ l (hS' l hl)) (hS₃ h (hS' h hh))) ?_
    · have hvar' := he'.varNum
      refine (ih hm'' (he'.pairings ▸ hp') (hh.evolves he') (by lia)).mono fun t ht => ?_
      exact (he'.tells hm'.toCoherent hm''.toCoherent
        (by simpa [Query.nodes] using hh.kept)).mp ht
    · intro m'' a b he' hm'' ha hb hP hQ
      have hvar' := he'.varNum
      have hdepth : m''.depth = m''.varNum + 2 := rfl
      have hp'' : p ∈ m''.pairings.tables := he'.pairings ▸ hp'
      have hx := kept_entry hp'' nf.level
      refine .observe hm'' (observes_substitute hm'' hp'' (by lia)) ?_
      rintro x rfl
      refine .node hm'' (hm''.kept_live hx) fun nx hnx => .depth hm'' ?_
      refine (Yields.sink hm'' (hnx.level_le hm'') (hm''.operand ha) (hm''.operand hb)
        (by lia)).mono ?_
      rintro t ⟨hlevel, ht⟩
      refine (hm'.tells_rename hp' hlast).mpr fun hu => ?_
      rw [hm'.reduced.tree_node hd, Tree.rename, if_neg (by lia),
        (hm'.tells_rename hp' hlast).mp hP hu, (hm'.tells_rename hp' hlast).mp hQ hu,
        ← hm'.tree hm'' he' (kept_entry hp' _), hnx.tree_level hm'' hlevel]
      exact ht

/-! ### The operators -/

theorem observes_pairing {number : Nat} {e : Pairing} (h : m.pairing number = .ok e) :
    Observes m (pairing number) (· = e) :=
  ⟨rfl, e, by simp only [Step.exec, Build.read, h], rfl⟩

/-- A pairing that the manager knows is one of its tables. -/
theorem mem_tables {number : Nat} (h : m.pairing number = .ok p) : p ∈ m.pairings.tables := by
  unfold Manager.pairing at h
  split at h
  · rename_i hp
    exact Except.ok.inj h ▸ Array.mem_of_getElem? hp
  · cases h

theorem Yields.vecComposeBy (hm : m.Sound) {number : Nat} (hp : m.pairing number = .ok p)
    (hf : m.Kept f) :
    Yields m (Program.vecComposeBy f number m.depth) fun t =>
      ∀ last, p.last = some last → m.Tells (.vecCompose p.stamp f) t := by
  have hdepth : m.depth = m.varNum + 2 := rfl
  refine .observe hm (observes_pairing hp) ?_
  rintro p rfl
  rcases hlast : p.last with _ | last
  · exact .pure hm (hm.kept_live hf) nofun
  · refine (Yields.vecCompose hm (mem_tables hp) hlast (hm.operand hf) (by lia)).mono ?_
    rintro t ht last' -
    exact ht

/-- A pairing that nothing was set in leaves the operand as it is. -/
theorem Yields.vecComposeBy_unset (hm : m.Sound) {number : Nat} (hp : m.pairing number = .ok p)
    (hlast : p.last = none) (hf : m.Kept f) :
    Yields m (Program.vecComposeBy f number m.depth) (· = m.diagram.tree f) := by
  refine .observe hm (observes_pairing hp) ?_
  rintro p rfl
  rw [hlast]
  exact .pure hm (hm.kept_live hf) rfl

theorem Yields.renameBy (hm : m.Sound) {number : Nat} (hp : m.pairing number = .ok p)
    (hf : m.Kept f) :
    Yields m (Program.renameBy f number m.depth) fun t =>
      ∀ last, p.last = some last → m.Tells (.rename p.stamp f) t := by
  have hdepth : m.depth = m.varNum + 2 := rfl
  refine .observe hm (observes_pairing hp) ?_
  rintro p rfl
  rcases hlast : p.last with _ | last
  · exact .pure hm (hm.kept_live hf) nofun
  · refine (Yields.rename hm (mem_tables hp) hlast (hm.operand hf) (by lia)).mono ?_
    rintro t ht last' -
    exact ht

theorem Yields.renameBy_unset (hm : m.Sound) {number : Nat} (hp : m.pairing number = .ok p)
    (hlast : p.last = none) (hf : m.Kept f) :
    Yields m (Program.renameBy f number m.depth) (· = m.diagram.tree f) := by
  refine .observe hm (observes_pairing hp) ?_
  rintro p rfl
  rw [hlast]
  exact .pure hm (hm.kept_live hf) rfl

end Program

end DecisionDiagram
