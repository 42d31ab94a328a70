/-
Counts, by the tree of the node that is counted.

* `Program.Inert` — a program that makes no node and keeps none pending, and hence leaves everything
  but the computed tables as it is;
* `Program.Declines` — a program that comes upon a dead node before it has changed anything;
* `Program.Counts` — the specification of a count: it has an answer, whatever the computed tables hold;
* `Program.Counts.satCount`, `.satCountSet`, `.pathCount` — the counts of the satisfying assignments
  and of the paths of a tree;
* `Action.Ensures.count` — a count as a call.
-/
import DecisionDiagram.Counting
import DecisionDiagram.Proofs.Calls
import DecisionDiagram.Proofs.Recursion

namespace DecisionDiagram

open Manager

namespace Tree

/-- Number of nodes along the high branches. -/
def highLength : Tree → Nat
  | leaf _ => 0
  | node _ _ h => h.highLength + 1

end Tree

namespace Manager

variable {m m' m'' : Manager}

/-- The managers differ in the computed tables at most. -/
def Recomputed (m m' : Manager) : Prop := ∃ computed, m' = { m with computed }

theorem Recomputed.refl (m : Manager) : m.Recomputed m := ⟨m.computed, rfl⟩

theorem Recomputed.trans (h : m.Recomputed m') (h' : m'.Recomputed m'') : m.Recomputed m'' := by
  obtain ⟨_, rfl⟩ := h
  obtain ⟨computed, rfl⟩ := h'
  exact ⟨computed, rfl⟩

section

variable (h : m.Recomputed m')
include h

theorem Recomputed.evolves : m.Evolves m' := by
  obtain ⟨computed, rfl⟩ := h
  exact evolves_setComputed m computed

theorem Recomputed.diagram : m'.diagram = m.diagram := by
  obtain ⟨_, rfl⟩ := h
  rfl

theorem Recomputed.pending : m'.pending = m.pending := by
  obtain ⟨_, rfl⟩ := h
  rfl

theorem Recomputed.varNum : m'.varNum = m.varNum := h.evolves.varNum

theorem Recomputed.reads {f : NodeId} {n : Node} (hn : m'.Reads f n) : m.Reads f n :=
  ⟨fun ht => (hn.terminal ht).trans h.varNum, fun ht => h.diagram ▸ hn.inner ht⟩

end

/-- All terminals stand at the level that one of them does. -/
theorem Sound.ground (hm : m.Sound) {d : Level} (hd : m.store.TerminalsAt d) : d = m.varNum := by
  obtain ⟨n, hn, rfl⟩ := hd NodeId.bot rfl
  obtain ⟨n', hn', hl⟩ := hm.terminals NodeId.bot rfl
  rwa [← Option.some.inj (hn.symm.trans hn')] at hl

end Manager

namespace Program

variable {α β : Type} {m m' : Manager} {f : NodeId} {k : Level} {n : Nat} {x y : Float}

/-! ### Programs that make no node -/

/-- The program makes no node and keeps none pending. -/
def Inert : {α : Type} → Program α → Prop
  | _, done _ => True
  | _, one s => s.collects = false ∧ s.changesPending = false
  | _, bind p next => p.Inert ∧ ∀ a, (next a).Inert

/-- In each outcome, the manager differs in the computed tables at most. -/
def Spares (x : Build α) : Prop := ∀ m : Manager,
  match x m with
  | .ok _ m' => m.Recomputed m'
  | .error _ m' => m.Recomputed m'

theorem Spares.throw (i : Interrupt) : Spares (throw i : Build α) := fun m => .refl m

theorem Spares.read (f : Manager → Except Failure α) : Spares (Build.read f) := by
  intro m
  rw [Build.read]
  cases f m
  · exact .refl m
  · exact .refl m

theorem Spares.exec {s : Step} (hc : s.collects = false) (hp : s.changesPending = false) :
    Spares s.exec := by
  cases s with
  | fault => exact .throw _
  | fail => exact .throw _
  | lookup => exact fun m => ⟨_, rfl⟩
  | remember => exact fun m => ⟨_, rfl⟩
  | lookupCount => exact fun m => ⟨_, rfl⟩
  | rememberCount => exact fun m => ⟨_, rfl⟩
  | push => cases hp
  | pop => cases hp
  | keepOnly => cases hp
  | mk => cases hc
  | depth => exact fun m => .refl m
  | varNum => exact fun m => .refl m
  | _ => exact .read _

theorem Inert.spares {p : Program α} (h : p.Inert) : Spares p.run := by
  induction p with
  | done a => exact fun m => .refl m
  | one s => exact .exec h.1 h.2
  | bind p next ihp ihn =>
    intro m
    have hp := ihp h.1 m
    simp only [Program.run]
    rcases hx : p.run m with ⟨a, m₁⟩ | ⟨i, m₁⟩
    · rw [hx] at hp
      have hn := ihn a (h.2 a) m₁
      dsimp only
      split <;> rename_i hy
      · rw [hy] at hn
        exact hp.trans hn
      · rw [hy] at hn
        exact hp.trans hn
    · rw [hx] at hp
      exact hp

theorem Inert.bind {p : Program α} {next : α → Program β} (hp : p.Inert)
    (hn : ∀ a, (next a).Inert) : Inert (p >>= next) := ⟨hp, hn⟩

theorem Inert.fault : Inert (fault : Program α) := ⟨⟨rfl, rfl⟩, nofun⟩

theorem Inert.memoCount {q : CountQuery} {p : Program Float} (hp : p.Inert) :
    (memoCount q p).Inert := by
  refine .bind ⟨rfl, rfl⟩ fun count => ?_
  cases count with
  | none => exact .bind hp fun _ => ⟨⟨rfl, rfl⟩, fun _ => trivial⟩
  | some count => trivial

theorem Inert.satCountFrom (f : NodeId) (n : Nat) : (satCountFrom f n).Inert := by
  induction n generalizing f with
  | zero => exact .fault
  | succ n ih =>
    rw [Program.satCountFrom]
    split
    · trivial
    · refine .memoCount (.bind ⟨rfl, rfl⟩ fun _ => .bind ⟨rfl, rfl⟩ fun _ => ?_)
      exact .bind ⟨rfl, rfl⟩ fun _ => .bind (ih _) fun _ => .bind (ih _) fun _ => trivial

theorem Inert.satCount (f : NodeId) : (satCount f).Inert :=
  .bind ⟨rfl, rfl⟩ fun _ => .bind ⟨rfl, rfl⟩ fun _ => .bind ⟨rfl, rfl⟩ fun _ =>
    .bind (.satCountFrom f _) fun _ => trivial

theorem Inert.cubeLength (n : Nat) (f : NodeId) : (cubeLength n f).Inert := by
  induction n generalizing f with
  | zero => exact .fault
  | succ n ih =>
    rw [Program.cubeLength]
    split
    · trivial
    · exact .bind ⟨rfl, rfl⟩ fun _ => .bind (ih _) fun _ => trivial

theorem Inert.satCountSet (f cube : NodeId) : (satCountSet f cube).Inert := by
  refine .bind ⟨rfl, rfl⟩ fun _ => ?_
  split
  · exact .bind ⟨rfl, rfl⟩ fun _ => trivial
  · exact .bind ⟨rfl, rfl⟩ fun _ => .bind (.cubeLength _ _) fun _ => .bind ⟨rfl, rfl⟩ fun _ =>
      .bind (.satCount f) fun _ => trivial

theorem Inert.pathCountFrom (f : NodeId) (n : Nat) : (pathCountFrom f n).Inert := by
  induction n generalizing f with
  | zero => exact .fault
  | succ n ih =>
    rw [Program.pathCountFrom]
    split
    · trivial
    · exact .memoCount (.bind ⟨rfl, rfl⟩ fun _ => .bind (ih _) fun _ => .bind (ih _) fun _ => trivial)

theorem Inert.pathCount (f : NodeId) : (pathCount f).Inert :=
  .bind ⟨rfl, rfl⟩ fun _ => .bind ⟨rfl, rfl⟩ fun _ => .pathCountFrom f _

/-! ### Programs that are declined -/

/-- The program, run in `m`, changes nothing until a step reports an error. -/
def Declines (m : Manager) : {α : Type} → Program α → Prop
  | _, done _ => False
  | _, one s => ∃ e, s.exec m = .error (Interrupt.error e) m
  | _, bind p next => Declines m p ∨ Observes m p fun a => Declines m (next a)

theorem Observes.run {p : Program α} {Q : α → Prop} (h : Observes m p Q) :
    ∃ a, p.run m = .ok a m ∧ Q a := by
  induction p with
  | done a => exact ⟨a, rfl, h⟩
  | one s => exact h.2
  | bind p next ihp ihn =>
    obtain ⟨a, ha, hnext⟩ := ihp h
    obtain ⟨b, hb, hQ⟩ := ihn a hnext
    exact ⟨b, (run_bind_ok ha).trans hb, hQ⟩

theorem Declines.run {p : Program α} (h : Declines m p) :
    ∃ e, p.run m = .error (Interrupt.error e) m := by
  induction p with
  | done a => exact h.elim
  | one s => exact h
  | bind p next ihp ihn =>
    rcases h with h | h
    · obtain ⟨e, he⟩ := ihp h
      exact ⟨e, by simp only [Program.run, he]⟩
    · obtain ⟨a, ha, hnext⟩ := h.run
      obtain ⟨e, he⟩ := ihn a hnext
      exact ⟨e, (run_bind_ok ha).trans he⟩

theorem Observes.at {p : Program α} {Q : α → Prop} {s : Step} {rest : s.Answer → Program α}
    (h : Observes m p Q) (hs : p.At m s rest m') :
    m' = m ∧ ∀ a m'', s.exec m' = .ok a m'' → m'' = m := by
  induction hs with
  | one s m =>
    obtain ⟨-, b, hb, -⟩ := h
    refine ⟨rfl, fun a m'' ha => ?_⟩
    exact (EStateM.Result.ok.inj (ha.symm.trans hb)).2
  | first _ ih => exact ih h
  | @second α β p next m m₁ m' a s rest hp hs ih =>
    obtain ⟨a, ha, hnext⟩ := Observes.run (p := p) h
    obtain ⟨rfl, rfl⟩ := EStateM.Result.ok.inj (hp.symm.trans ha)
    exact ih hnext

/-- No step that the run comes to changes anything. -/
theorem Declines.at {p : Program α} {s : Step} {rest : s.Answer → Program α} (h : Declines m p)
    (hs : p.At m s rest m') : m' = m ∧ ∀ a m'', s.exec m' = .ok a m'' → m'' = m := by
  induction hs with
  | one s m =>
    obtain ⟨e, he⟩ := h
    exact ⟨rfl, fun a m'' ha => by cases ha.symm.trans he⟩
  | first hs ih => exact h.elim ih fun h => h.at hs
  | second hp _ ih =>
    rcases h with h | h
    · obtain ⟨e, he⟩ := h.run
      cases hp.symm.trans he
    · obtain ⟨a, ha, hnext⟩ := h.run
      obtain ⟨rfl, rfl⟩ := EStateM.Result.ok.inj (hp.symm.trans ha)
      exact ih hnext

theorem Declines.observe {p : Program α} {next : α → Program β} {Q : α → Prop}
    (hp : Observes m p Q) (h : ∀ a, Q a → Declines m (next a)) : Declines m (p >>= next) :=
  .inr (hp.mono h)

/-- A program is declined if the first thing that it looks at is a dead node. -/
theorem Declines.check {next : Unit → Program α} (hm : m.Sound) (hf : ¬ m.diagram.Live f) :
    Declines m (Program.check f >>= next) := by
  have hdead : ¬ m.store.isLive f = true := fun hlive => hf (hm.store.live_iff.mpr hlive)
  exact .inl ⟨.illegalNode f, by simp only [Step.exec, Build.read, checkNode, if_neg hdead]; rfl⟩

/-! ### Specifications -/

/-- The program, run in `m`, ends with the answer `x`. -/
structure Counts (m : Manager) (p : Program Float) (x : Float) : Prop where
  ensures : ∀ T : Scope → Float → Prop, Ensures m.varNum m p T m fun y _ => y = x
  ends : ∃ m', p.run m = .ok x m'

theorem observes_node (hm : m.Sound) (hf : m.diagram.Live f) :
    Observes m (Program.node f) (m.Reads f) := by
  obtain ⟨n, hn, hr⟩ := hm.exists_reads hf
  exact ⟨rfl, n, by simp only [Step.exec, Build.read, hn], hr⟩

theorem observes_check (hm : m.Sound) (hf : m.diagram.Live f) :
    Observes m (Program.check f) fun _ => True := by
  have hlive : m.store.isLive f = true := hm.store.live_iff.mp hf
  exact ⟨rfl, (), by simp only [Step.exec, Build.read, checkNode, if_pos hlive], trivial⟩

theorem Counts.pure (hm : m.Sound) (h : y = x) : Counts m (Pure.pure y) x where
  ensures _ := ⟨.refl m, hm.toCoherent, h⟩
  ends := ⟨m, by rw [h]; rfl⟩

theorem Counts.observe {p : Program α} {next : α → Program Float} {Q : α → Prop} (hm : m.Sound)
    (hp : Observes m p Q) (h : ∀ a, Q a → Counts m (next a) x) : Counts m (p >>= next) x := by
  refine ⟨fun T => Ensures.bind (hp.ensures hm _) ?_, ?_⟩
  · rintro a m' - - ⟨rfl, ha⟩
    exact (h a ha).ensures T
  · obtain ⟨a, hrun, ha⟩ := hp.run
    obtain ⟨m', hend⟩ := (h a ha).ends
    exact ⟨m', (run_bind_ok hrun).trans hend⟩

/-- A step that changes the computed tables only. -/
theorem Counts.step {s : Step} {a : s.Answer} {next : s.Answer → Program Float} (hm : m.Sound)
    (hs : s.collects = false) (ha : s.exec m = .ok a m') (hr : m.Recomputed m')
    (hc : m'.Coherent m.varNum) (h : Counts m' (next a) x) : Counts m (one s >>= next) x := by
  refine ⟨fun T => ⟨⟨.refl m, hm.toCoherent⟩, fun hcollects => ?_, .of_ok ha hr.evolves hc ?_⟩, ?_⟩
  · rw [hs] at hcollects
    cases hcollects
  · have hx := h.ensures T
    rw [hr.varNum] at hx
    exact (hx.rebase hr.evolves).mono fun _ _ _ _ h => h.2
  · obtain ⟨m'', hend⟩ := h.ends
    exact ⟨m'', (run_bind_ok (p := one s) ha).trans hend⟩

section

-- A count in the manager `m'` that others have left, the first of them starting in `m`.
variable (hr : m.Recomputed m') (hm' : m'.Sound)
include hr hm'

theorem Counts.node {next : Node → Program Float} (hf : m.diagram.Live f)
    (h : ∀ n, m.Reads f n → Counts m' (next n) x) : Counts m' (Program.node f >>= next) x :=
  .observe hm' (observes_node hm' (hr.diagram ▸ hf)) fun n hn => h n (hr.reads hn)

/-- One count after another. -/
theorem Counts.bind {p : Program Float} {next : Float → Program Float} (hi : p.Inert)
    (hp : Counts m' p x)
    (hn : ∀ m'', m.Recomputed m'' → m''.Sound → Counts m'' (next x) y) :
    Counts m' (p >>= next) y := by
  have hspares : ∀ {z m''}, p.run m' = .ok z m'' → m'.Recomputed m'' := by
    intro z m'' hrun
    have hspares := hi.spares m'
    rwa [hrun] at hspares
  refine ⟨fun T => Ensures.bind (p := p)
    ((hp.ensures _).mono_run (R := fun z m'' => z = x ∧ m'.Recomputed m'') ?_) ?_, ?_⟩
  · rintro z m'' hrun - - rfl
    exact ⟨rfl, hspares hrun⟩
  · rintro z m'' he hc ⟨rfl, hr'⟩
    have hx := (hn m'' (hr.trans hr') (hm'.evolves he hc)).ensures T
    rw [he.varNum] at hx
    exact (hx.rebase he).mono fun _ _ _ _ h => h.2
  · obtain ⟨m'', hrun⟩ := hp.ends
    have hend := Ensures.run (hp.ensures fun _ _ => True)
    rw [Build.Ensures, hrun] at hend
    obtain ⟨m₃, h₃⟩ :=
      (hn m'' (hr.trans (hspares hrun)) (hm'.evolves hend.1 hend.2.1)).ends
    exact ⟨m₃, (run_bind_ok hrun).trans h₃⟩

/-- The computed tables answer a count, or the answer is computed and entered. -/
theorem Counts.memo {q : CountQuery} {p : Program Float} (hq : m.diagram.Live q.node)
    (hi : p.Inert) (hx : x = q.count m.varNum (m.diagram.tree q.node))
    (h : ∀ m'', m.Recomputed m'' → m''.Sound → Counts m'' p x) :
    Counts m' (Program.memoCount q p) x := by
  have hr₁ : m'.Recomputed { m' with computed := m'.computed.recordCount q } := ⟨_, rfl⟩
  have hc₁ : Coherent { m' with computed := m'.computed.recordCount q } m'.varNum :=
    Coherent.setComputed hm'.toCoherent (hm'.computed.recordCount q)
  have hm₁ := hm'.evolves hr₁.evolves hc₁
  refine .step (s := .lookupCount q) (a := m'.computed.findCount? q) hm' rfl rfl hr₁ hc₁ ?_
  rcases hfind : m'.computed.findCount? q with _ | count
  · refine .bind (hr.trans hr₁) hm₁ hi (h _ (hr.trans hr₁) hm₁) fun m₂ hr₂ hm₂ => ?_
    have hc₃ : Coherent { m₂ with computed := m₂.computed.insertCount q x } m₂.varNum := by
      refine Coherent.setComputed hm₂.toCoherent (hm₂.computed.insertCount (hr₂.diagram ▸ hq) ?_)
      intro d hd
      rw [hm₂.ground hd, hx, hr₂.diagram, hr₂.varNum]
    have hr₃ : m₂.Recomputed { m₂ with computed := m₂.computed.insertCount q x } := ⟨_, rfl⟩
    exact .step (s := .rememberCount q x) (a := ()) hm₂ rfl rfl hr₃ hc₃
      (.pure (hm₂.evolves hr₃.evolves hc₃) rfl)
  · refine .pure hm₁ ?_
    rw [hx, ← hr.diagram, ← hr.varNum]
    exact hm'.computed.findCount? hfind hm'.terminals

/-! ### The counts -/

/-- The induction is on the bound, which is above the number of levels below the node. -/
theorem Counts.satCountFrom (hm : m.Sound) (hf : m.diagram.Under id k f) (hk : k ≤ m.varNum)
    (hn : m.varNum < n + k) :
    Counts m' (satCountFrom f n) ((m.diagram.tree f).satCount m.varNum) := by
  induction n generalizing m' k f with
  | zero => lia
  | succ n ih =>
    rw [Program.satCountFrom]
    split
    · rename_i ht
      rw [hm.reduced.tree_terminal ht]
      exact .pure hm' rfl
    · rename_i ht
      refine .memo (q := .sat f) hr hm' hf.live ?_ rfl fun m₁ hr₁ hm₁ => ?_
      · exact .bind ⟨rfl, rfl⟩ fun _ => .bind ⟨rfl, rfl⟩ fun _ => .bind ⟨rfl, rfl⟩ fun _ =>
          .bind (.satCountFrom _ _) fun _ => .bind (.satCountFrom _ _) fun _ => trivial
      refine .node hr₁ hm₁ hf.live fun nf hread => ?_
      have hd := hread.inner (Bool.eq_false_iff.mpr ht)
      have hle : k ≤ nf.level := hf.le (Bool.eq_false_iff.mpr ht) hd
      have hlt : nf.level < m.varNum := hm.reduced.label_lt hd
      have child : ∀ b, m.diagram.Under id (nf.level + 1) (nf.child b) := hm.reduced.below hd
      -- Both children are read for their levels before either of them is counted.
      refine .node hr₁ hm₁ (child false).live fun nl hl => ?_
      refine .node hr₁ hm₁ (child true).live fun nh hh => ?_
      refine .bind hr₁ hm₁ (.satCountFrom _ _) (ih hr₁ hm₁ (child false) hlt (by lia)) ?_
      intro m₂ hr₂ hm₂
      refine .bind hr₂ hm₂ (.satCountFrom _ _) (ih hr₂ hm₂ (child true) hlt (by lia)) ?_
      intro m₃ hr₃ hm₃
      refine .pure hm₃ ?_
      rw [hl.levelOr hm, hh.levelOr hm, hm.reduced.tree_node hd]
      rfl

theorem Counts.pathCountFrom (hm : m.Sound) (hf : m.diagram.Under id k f) (hk : k ≤ m.varNum)
    (hn : m.varNum < n + k) :
    Counts m' (pathCountFrom f n) (m.diagram.tree f).pathCount := by
  induction n generalizing m' k f with
  | zero => lia
  | succ n ih =>
    rw [Program.pathCountFrom]
    split
    · rename_i ht
      rw [hm.reduced.tree_terminal ht]
      exact .pure hm' rfl
    · rename_i ht
      refine .memo (q := .path f) hr hm' hf.live ?_ rfl fun m₁ hr₁ hm₁ => ?_
      · exact .bind ⟨rfl, rfl⟩ fun _ => .bind (.pathCountFrom _ _) fun _ =>
          .bind (.pathCountFrom _ _) fun _ => trivial
      refine .node hr₁ hm₁ hf.live fun nf hread => ?_
      have hd := hread.inner (Bool.eq_false_iff.mpr ht)
      have hle : k ≤ nf.level := hf.le (Bool.eq_false_iff.mpr ht) hd
      have hlt : nf.level < m.varNum := hm.reduced.label_lt hd
      have child : ∀ b, m.diagram.Under id (nf.level + 1) (nf.child b) := hm.reduced.below hd
      refine .bind hr₁ hm₁ (.pathCountFrom _ _) (ih hr₁ hm₁ (child false) hlt (by lia)) ?_
      intro m₂ hr₂ hm₂
      refine .bind hr₂ hm₂ (.pathCountFrom _ _) (ih hr₂ hm₂ (child true) hlt (by lia)) ?_
      intro m₃ hr₃ hm₃
      refine .pure hm₃ ?_
      rw [hm.reduced.tree_node hd]
      rfl

end

/-- Satisfying assignments to all variables; those above the level of the node are free. -/
theorem Counts.satCount (hm : m.Sound) (hf : m.diagram.Live f) :
    Counts m (satCount f)
      (powerOfTwo ((m.diagram.tree f).levelOr m.varNum) *
        (m.diagram.tree f).satCount m.varNum) := by
  have hdepth : m.depth = m.varNum + 2 := rfl
  refine .observe hm (observes_check hm hf) fun _ _ => .node (.refl m) hm hf fun nf hread => ?_
  refine .observe hm (p := Program.depth) (Q := (· = m.depth)) ⟨rfl, _, rfl, rfl⟩ ?_
  rintro _ rfl
  refine .bind (.refl m) hm (.satCountFrom _ _)
    (.satCountFrom (.refl m) hm hm (hf.under.mono (Nat.zero_le _)) (Nat.zero_le _) (by lia)) ?_
  intro m₁ _ hm₁
  exact .pure hm₁ (by rw [hread.levelOr hm])

theorem Counts.pathCount (hm : m.Sound) (hf : m.diagram.Live f) :
    Counts m (pathCount f) (m.diagram.tree f).pathCount := by
  have hdepth : m.depth = m.varNum + 2 := rfl
  refine .observe hm (observes_check hm hf) fun _ _ => ?_
  refine .observe hm (p := Program.depth) (Q := (· = m.depth)) ⟨rfl, _, rfl, rfl⟩ ?_
  rintro _ rfl
  exact .pathCountFrom (.refl m) hm hm (hf.under.mono (Nat.zero_le _)) (Nat.zero_le _) (by lia)

theorem observes_cubeLength (hm : m.Sound) (hf : m.diagram.Under id k f) (hk : k ≤ m.varNum)
    (hn : m.varNum < n + k) :
    Observes m (cubeLength n f) (· = (m.diagram.tree f).highLength) := by
  induction n generalizing k f with
  | zero => lia
  | succ n ih =>
    rw [cubeLength]
    split
    · rename_i ht
      rw [hm.reduced.tree_terminal ht]
      exact rfl
    · rename_i ht
      refine .node hm hf.live fun nf hread => ?_
      have hd := hread.inner (Bool.eq_false_iff.mpr ht)
      have hle : k ≤ nf.level := hf.le (Bool.eq_false_iff.mpr ht) hd
      refine (ih (hm.reduced.below hd true) (hm.reduced.label_lt hd) (by simp only [id]; lia)).mono ?_
      rintro _ rfl
      rw [hm.reduced.tree_node hd]
      rfl

/-- Satisfying assignments to the variables of a cube only. -/
def setCount (varNum length : Nat) (count : Float) : Float :=
  if count / powerOfTwo ((varNum : Int) - length) > 1.0 then
    count / powerOfTwo ((varNum : Int) - length)
  else 1.0

theorem Counts.satCountSet {cube : NodeId} (hm : m.Sound) (hcube : m.diagram.Live cube)
    (hf : m.diagram.Live f) :
    Counts m (satCountSet f cube)
      (if cube.isTerminal || f.isBot then 0.0
      else setCount m.varNum (m.diagram.tree cube).highLength
        (powerOfTwo ((m.diagram.tree f).levelOr m.varNum) *
          (m.diagram.tree f).satCount m.varNum)) := by
  have hdepth : m.depth = m.varNum + 2 := rfl
  refine .observe hm (observes_check hm hcube) fun _ _ => ?_
  split
  · exact .observe hm (observes_check hm hf) fun _ _ => .pure hm rfl
  · refine .observe hm (p := Program.depth) (Q := (· = m.depth)) ⟨rfl, _, rfl, rfl⟩ ?_
    rintro _ rfl
    refine .observe hm (observes_cubeLength hm (hcube.under.mono (Nat.zero_le _)) (Nat.zero_le _)
      (by lia)) ?_
    rintro _ rfl
    refine .observe hm (p := Program.varNum) (Q := (· = m.varNum)) ⟨rfl, _, rfl, rfl⟩ ?_
    rintro _ rfl
    refine .bind (.refl m) hm (.satCount f) (.satCount hm hf) fun m₁ _ hm₁ => .pure hm₁ rfl

/-- The cube is looked at first, and in full. -/
theorem Declines.satCountSet {cube : NodeId} (hm : m.Sound) (hcube : m.diagram.Live cube)
    (hf : ¬ m.diagram.Live f) : Declines m (Program.satCountSet f cube) := by
  have hdepth : m.depth = m.varNum + 2 := rfl
  refine .observe (observes_check hm hcube) fun _ _ => ?_
  split
  · exact .check hm hf
  · refine .observe (p := Program.depth) (Q := (· = m.depth)) ⟨rfl, _, rfl, rfl⟩ ?_
    rintro _ rfl
    refine .observe (observes_cubeLength hm (hcube.under.mono (Nat.zero_le _)) (Nat.zero_le _)
      (by lia)) fun _ _ => ?_
    refine .observe (p := Program.varNum) (Q := (· = m.varNum)) ⟨rfl, _, rfl, rfl⟩ fun _ _ => ?_
    exact .inl (.check hm hf)

end Program

/-! ### Counts as calls -/

namespace Action

open Program

/-- A count changes the computed tables only, and leaves them sound.  If it is declined, it changes
nothing. -/
theorem Ensures.count {m : Manager} (hm : m.Ready) {p : Program Float} (hi : p.Inert)
    (h : p.Declines m ∨ ∃ x, p.Counts m x) :
    Ensures m (Manager.count p) (fun _ m' => Completes m [] m') fun _ m' => m' = m := by
  unfold Ensures Manager.count
  rcases h with h | ⟨x, hx⟩
  · obtain ⟨e, he⟩ := h.run
    rw [he]
    rfl
  · obtain ⟨m', hrun⟩ := hx.ends
    have hend := Ensures.run (hx.ensures fun _ _ => True)
    have hr := hi.spares m
    rw [Build.Ensures, hrun] at hend
    rw [hrun] at hr ⊢
    have hoperands : m'.operands = m.operands := hr.evolves.operands
    exact ⟨⟨hm.toSound.evolves hr.evolves hend.2.1, hr.pending.trans hm.pending,
      hoperands.trans hm.operands⟩, hr.evolves.retains fun _ hid => by cases hid⟩

theorem Safe.count {p : Program Float} (hi : p.Inert)
    (h : ∀ m : Manager, m.Sound → p.Declines m ∨ ∃ x, p.Counts m x) : Safe (Manager.count p) :=
  fun m hm => (Ensures.count hm hi (h m hm.toSound)).mono (fun _ _ h => h) fun _ _ h => by
    rw [h]
    exact .refl hm []

end Action

end DecisionDiagram
