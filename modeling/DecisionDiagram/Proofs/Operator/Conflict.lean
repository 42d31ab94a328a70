/-
Renaming breaks off only where the tree of its answer would have a conflict.

* `Program.Avoids` — a program that does not end with a given error, with a rule for each part of an
  operator;
* `Program.Avoids.sink`, `.renameBy` — the recursions find no conflict where `Tree.sink` and `Tree.rename`
  have an answer.
-/
import DecisionDiagram.Proofs.Operator.Substitute

namespace DecisionDiagram.Program

open Manager

variable {α β : Type} {m m' : Manager} {e : Error} {p low high : Program NodeId} {P Q : Tree → Prop}
  {f l h : NodeId} {k n : Nat} {level last : Level}

/-- No run of the program from `m` ends with the error. -/
def Avoids (e : Error) (m : Manager) {α : Type} (p : Program α) : Prop :=
  ∀ m', p.run m ≠ .error (.error e) m'

/-- What is known of a program holds at the end of a run. -/
theorem Yields.of_run (h : Yields m p P) (hm : m.Sound) {res : NodeId} (hrun : p.run m = .ok res m') :
    m.Evolves m' ∧ m'.Sound ∧ m'.diagram.Live res ∧ P (m'.diagram.tree res) := by
  have hensures := (h (fun _ _ => True) fun _ _ => trivial).run
  rw [Build.Ensures, hrun] at hensures
  exact ⟨hensures.1, hm.evolves hensures.1 hensures.2.1, hensures.2.2⟩

/-- A program that only reads comes to its end. -/
theorem Observes.exists_run {q : Program α} {R : α → Prop} (h : Observes m q R) :
    ∃ a, q.run m = .ok a m ∧ R a := by
  induction q with
  | done a => exact ⟨a, rfl, h⟩
  | one s => exact h.2
  | bind q next ihq ihn =>
    obtain ⟨a, ha, hnext⟩ := ihq h
    obtain ⟨b, hb, hR⟩ := ihn a hnext
    exact ⟨b, (run_bind_ok ha).trans hb, hR⟩

/-! ### Parts of an operator -/

namespace Avoids

theorem pure (a : α) : Avoids e m (Pure.pure a : Program α) := fun _ h => by cases h

theorem fault : Avoids e m (Program.fault : Program α) := fun _ h => by cases h

theorem bind {q : Program α} {next : α → Program β} (hq : Avoids e m q)
    (hn : ∀ a m', q.run m = .ok a m' → Avoids e m' (next a)) : Avoids e m (q >>= next) := by
  intro m' hrun
  rw [show (q >>= next).run m = _ from run_bind q next] at hrun
  rcases hx : q.run m with ⟨a, m₁⟩ | ⟨i, m₁⟩
  · rw [Build.bind_ok hx] at hrun
    exact hn a m₁ hx m' hrun
  · rw [Build.bind_error hx] at hrun
    exact hq m₁ (hx.trans (congrArg (EStateM.Result.error · m₁) (EStateM.Result.error.inj hrun).1))

/-- After a step or a program with a known answer, the rest is as it is from there. -/
theorem after {q : Program α} {next : α → Program β} {a : α} (hq : q.run m = .ok a m')
    (h : Avoids e m' (next a)) : Avoids e m (q >>= next) := by
  intro m₁ hrun
  rw [show (q >>= next).run m = _ from run_bind_ok hq] at hrun
  exact h m₁ hrun

theorem observe {q : Program α} {next : α → Program β} {R : α → Prop} (hq : Observes m q R)
    (h : ∀ a, R a → Avoids e m (next a)) : Avoids e m (q >>= next) := by
  obtain ⟨a, ha, hR⟩ := hq.exists_run
  exact after ha (h a hR)

theorem node {next : Node → Program α} (hm : m.Sound) (hf : m.diagram.Live f)
    (h : ∀ r, m.Reads f r → Avoids e m (next r)) : Avoids e m (Program.node f >>= next) := by
  obtain ⟨r, hr, hreads⟩ := hm.exists_reads hf
  refine after (a := r) ?_ (h r hreads)
  simp only [Program.node, run, Step.exec, Build.read, hr]
  rfl

theorem depth {next : Nat → Program α} (h : Avoids e m (next m.depth)) :
    Avoids e m (Program.depth >>= next) := after (a := m.depth) rfl h

theorem mk (hm : m.Sound) (he : e ≠ .nodeLimit) : Avoids e m (Program.mk level l h) := by
  intro m' hrun
  rcases Build.mk_error hm.toCoherent hrun with hi | hi | ⟨hi, -⟩
  · cases hi
  · cases hi
    exact he rfl
  · cases hi

/-- The node is kept while the program runs. -/
theorem hold (hm : m.Sound) (hf : m.diagram.Live f)
    (h : ∀ m', m.Evolves m' → m'.Sound → m'.Kept f → m'.diagram.tree f = m.diagram.tree f →
      Avoids e m' p) : Avoids e m (Program.hold f p) := by
  obtain ⟨he, hc⟩ := hm.push hf
  refine after (q := push f) (a := ()) rfl ?_
  refine bind (h _ he (hm.evolves he hc) (kept_of_pending List.mem_cons_self) rfl) fun res m₁ _ => ?_
  refine bind (q := pop) (fun m₂ hrun => ?_) fun _ _ _ => pure res
  rcases hp : m₁.pending with _ | ⟨id, rest⟩
  · cases hrun.symm.trans (Build.pop_eq_fault hp)
  · cases hrun.symm.trans (Build.pop_eq hp)

theorem memo {q : Query} (hm : m.Sound)
    (h : ∀ m', m.Evolves m' → m'.Sound → Avoids e m' p) : Avoids e m (Program.memo q p) := by
  have he := evolves_setComputed m (m.computed.record q)
  have hc := Coherent.setComputed hm.toCoherent (hm.computed.record q)
  refine after (q := lookup q) (a := m.computed.find? q) rfl ?_
  rcases m.computed.find? q with _ | res
  · exact bind (h _ he (hm.evolves he hc)) fun res m₁ _ =>
      after (q := remember q res) (a := ()) rfl (pure res)
  · exact pure res

/-- The branches avoid the error, and so does what joins their results. -/
theorem branch {join : NodeId → NodeId → Program NodeId} (hm : m.Sound) (hlow : Yields m low P)
    (alow : Avoids e m low)
    (hhigh : ∀ m', m.Evolves m' → m'.Sound → Yields m' high Q ∧ Avoids e m' high)
    (hjoin : ∀ m' l h, m.Evolves m' → m'.Sound → m'.Kept l → m'.Kept h →
      P (m'.diagram.tree l) → Q (m'.diagram.tree h) → Avoids e m' (join l h)) :
    Avoids e m (Program.branch low high join) := by
  refine bind alow fun l m₁ hrun => ?_
  obtain ⟨he₁, hm₁, hl, hP⟩ := hlow.of_run hm hrun
  refine hold hm₁ hl fun m₂ he₂ hm₂ hkl ht₂ => ?_
  have he₂ := he₁.trans he₂
  obtain ⟨yhigh, ahigh⟩ := hhigh m₂ he₂ hm₂
  refine bind ahigh fun h m₃ hrun => ?_
  obtain ⟨he₃, hm₃, hh, hQ⟩ := yhigh.of_run hm₂ hrun
  refine hold hm₃ hh fun m₄ he₄ hm₄ hkh ht₄ => ?_
  have he₂₄ := he₃.trans he₄
  refine hjoin m₄ l h (he₂.trans he₂₄) hm₄ (he₂₄.of_kept hkl) hkh ?_ ?_
  · rw [he₂₄.tree hm₂.toCoherent hm₄.toCoherent hkl, ht₂]
    exact hP
  · rw [ht₄]
    exact hQ

/-! ### Renaming -/

/-- A renamed variable finds its level if the trees below do not decide it. -/
theorem sink (hm : m.Sound) (hlevel : level < m.varNum) (hl : m.Operand k l) (hh : m.Operand k h)
    (hn : m.varNum < n + k)
    (hsink : ∃ t, Tree.sink level (m.diagram.tree l) (m.diagram.tree h) = some t) :
    Avoids .replaceConflict m (Program.sink level l h n) := by
  induction n generalizing m k l h with
  | zero => exact fault
  | succ n ih =>
    rw [Program.sink]
    refine .node hm hl.live fun nl hnl => .node hm hh.live fun nh hnh => ?_
    have hkl := hl.le_level hnl
    have hkh := hh.le_level hnh
    have hll := hnl.level_le hm
    have hlh := hnh.level_le hm
    split
    · exact .mk hm (by decide)
    rename_i hnotbelow
    -- A tree that decides the level first has no place for it.
    have other : ∀ {f nf}, m.Reads f nf → level = nf.level →
        (m.diagram.tree f).level? = some level := fun hnf heq => by
      rw [heq]
      exact hnf.tree_level hm (heq ▸ hlevel)
    obtain ⟨t, ht⟩ := hsink
    split
    · rename_i hconflict
      rw [Bool.or_eq_true_iff, decide_eq_true_eq, decide_eq_true_eq] at hconflict
      rw [Tree.sink, if_pos (hconflict.imp (other hnl) (other hnh))] at ht
      cases ht
    rename_i hother
    rw [Bool.or_eq_true_iff, decide_eq_true_eq, decide_eq_true_eq, not_or] at hother
    rw [Bool.and_eq_true_iff, decide_eq_true_eq, decide_eq_true_eq] at hnotbelow
    simp only [Node.cofactors_eq]
    have hlt : min nl.level nh.level < m.varNum := by lia
    have cl := fun b => hl.cofactor hm hnl (Nat.min_le_left _ nh.level) hlt b
    have ch := fun b => hh.cofactor hm hnh (Nat.min_le_right nl.level _) hlt b
    rw [Tree.sink_of_top (fun heq => hother.1 (hnl.level_eq hm heq).symm)
      (fun heq => hother.2 (hnh.level_eq hm heq).symm) (hnl.tree_top hnh hm hlt) (by lia),
      ← hnl.tree_cofactor hm hlt, ← hnh.tree_cofactor hm hlt, ← hnl.tree_cofactor hm hlt,
      ← hnh.tree_cofactor hm hlt] at ht
    obtain ⟨s, hs, ht⟩ := Option.bind_eq_some_iff.mp ht
    obtain ⟨r, hr, -⟩ := Option.map_eq_some_iff.mp ht
    refine branch hm (.sink hm (Nat.le_of_lt hlevel) (cl false) (ch false) (by lia))
      (ih hm hlevel (cl false) (ch false) (by lia) ⟨s, hs⟩) (Q := fun _ => True) (fun m' he hm' => ?_)
      fun m' _ _ _ hm' _ _ _ _ => .mk hm' (by decide)
    have hvar := he.varNum
    have cl' := (cl true).evolves he
    have ch' := (ch true).evolves he
    have hlevel' : level < m'.varNum := hvar.symm ▸ hlevel
    refine ⟨(Yields.sink hm' (Nat.le_of_lt hlevel') cl' ch' (by lia)).mono fun _ _ => trivial,
      ih hm' hlevel' cl' ch' (by lia) ⟨r, ?_⟩⟩
    rw [hm.tree hm' he (cl true).kept, hm.tree hm' he (ch true).kept]
    exact hr

variable {q : Pairing}

/-- Renaming has no conflict where the tree of its answer has none, as long as the stamps have not run
out. -/
theorem rename (hm : m.Sound) (hp : q ∈ m.pairings.tables) (hlast : q.last = some last)
    (hu : m.pairings.updates < 2 ^ 32) (hf : m.Operand k f) (hn : m.varNum < n + k)
    (hrename : ∃ t, m.Tells (.rename q.stamp f) t) :
    Avoids .replaceConflict m (Program.rename q last f n) := by
  induction n generalizing m k f with
  | zero => exact fault
  | succ n ih =>
    have hlt := (hm.pairings.entries q hp).2 last hlast
    rw [Program.rename]
    split
    · exact pure f
    refine .node hm hf.live fun nf hnf => ?_
    split
    · exact pure f
    rename_i hge
    refine memo hm fun m' he hm' => ?_
    obtain ⟨t, ht⟩ := hrename
    have hf' := hf.evolves he
    have hnf' := hnf.evolves he hf.kept
    have hvar := he.varNum
    have hkf := hf'.le_level hnf'
    have hd := hnf'.diagram_eq (by lia)
    have hl : m'.Operand (nf.level + 1) nf.low := hf'.child hm' hd false
    have hh : m'.Operand (nf.level + 1) nf.high := hf'.child hm' hd true
    have hp' : q ∈ m'.pairings.tables := he.pairings ▸ hp
    have hu' : m'.pairings.updates < 2 ^ 32 := he.pairings ▸ hu
    have ht := (he.tells hm.toCoherent hm'.toCoherent (by simpa [Query.nodes] using hf.kept)).mpr ht
    have ht := (hm'.tells_rename hp' hlast).mp ht hu'
    rw [hm'.reduced.tree_node hd, Tree.rename, if_neg (by lia)] at ht
    obtain ⟨l', hl', ht⟩ := Option.bind_eq_some_iff.mp ht
    obtain ⟨h', hh', ht⟩ := Option.bind_eq_some_iff.mp ht
    obtain ⟨j, hj, hsink⟩ := Option.bind_eq_some_iff.mp ht
    refine branch hm' (.rename hm' hp' hlast hl (by lia))
      (ih hm' hp' hu' hl (by lia) ⟨l', (hm'.tells_rename hp' hlast).mpr fun _ => hl'⟩)
      (Q := m'.Tells (.rename q.stamp nf.high)) (fun m'' he' hm'' => ?_) ?_
    · have hvar' := he'.varNum
      have hp'' : q ∈ m''.pairings.tables := he'.pairings ▸ hp'
      have tells := fun t => he'.tells hm'.toCoherent hm''.toCoherent
        (q := .rename q.stamp nf.high) (t := t) (by simpa [Query.nodes] using hh.kept)
      refine ⟨(Yields.rename hm'' hp'' hlast (hh.evolves he') (by lia)).mono fun t => (tells t).mp,
        ih hm'' hp'' (he'.pairings ▸ hu') (hh.evolves he') (by lia) ⟨h', (tells h').mpr ?_⟩⟩
      exact (hm'.tells_rename hp' hlast).mpr fun _ => hh'
    · intro m'' a b he' hm'' ha hb hP hQ
      have hvar' := he'.varNum
      have hdepth : m''.depth = m''.varNum + 2 := rfl
      have hp'' : q ∈ m''.pairings.tables := he'.pairings ▸ hp'
      have hx := kept_entry hp'' nf.level
      refine observe (observes_substitute hm'' hp'' (by lia)) ?_
      rintro x rfl
      refine node hm'' (hm''.kept_live hx) fun nx hnx => depth ?_
      -- The substitute decides its level first.
      rw [← hm'.tree hm'' he' (kept_entry hp' _)] at hj
      obtain rfl := hnx.level_eq hm'' hj
      have hinner : (q.entry nf.level).isTerminal = false := Bool.eq_false_iff.mpr fun hterminal => by
        rw [hm''.reduced.tree_terminal hterminal] at hj
        cases hj
      obtain rfl := Option.some.inj (hl'.symm.trans ((hm'.tells_rename hp' hlast).mp hP hu'))
      obtain rfl := Option.some.inj (hh'.symm.trans ((hm'.tells_rename hp' hlast).mp hQ hu'))
      exact sink hm'' (hnx.lt hm'' hinner) (hm''.operand ha) (hm''.operand hb) (by lia) ⟨t, hsink⟩

theorem renameBy (hm : m.Sound) {number : Nat} (hp : m.pairing number = .ok q)
    (hu : m.pairings.updates < 2 ^ 32) (hf : m.Kept f)
    (hrename : ∀ last, q.last = some last → ∃ t, m.Tells (.rename q.stamp f) t) :
    Avoids .replaceConflict m (Program.renameBy f number m.depth) := by
  have hdepth : m.depth = m.varNum + 2 := rfl
  refine observe (observes_pairing hp) ?_
  rintro q rfl
  rcases hlast : q.last with _ | last
  · exact pure f
  · exact rename hm (mem_tables hp) hlast hu (hm.operand hf) (by lia) (hrename last hlast)

end Avoids

end DecisionDiagram.Program
