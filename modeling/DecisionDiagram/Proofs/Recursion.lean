/-
Programs that answer a node, by the tree of their answer.

* `Program.Yields` — the specification of such a program: its answer is live and has a tree with a
  certain property, whatever collection or growth takes place on the way;
* `Program.Yields.memo` — asking the computed tables changes nothing about the answer;
* `Program.Yields.branch`, `.split` — the two branches of an operator, joined in any way or by `mk`;
* `Program.Yields.splitPair` — the same for a recursion on two operands;
* `Program.Observes` — a program that does no more than read the manager.
-/
import DecisionDiagram.Proofs.Tidy

namespace DecisionDiagram

open Manager

namespace Manager

variable {m m' : Manager} {f : NodeId}

theorem Evolves.scope_le (h : m.Evolves m') : m.scope ≤ m'.scope := fun _ hid => h.of_kept hid

/-- Kept nodes keep their trees. -/
theorem Sound.tree (hm : m.Sound) (hm' : m'.Sound) (he : m.Evolves m') {f : NodeId} (hf : m.Kept f) :
    m'.diagram.tree f = m.diagram.tree f := he.tree hm.toCoherent hm'.toCoherent hf

/-- A node without inner record stands where the terminals do. -/
theorem Reads.levelOr {f : NodeId} {n : Node} (h : m.Reads f n) (hm : m.Sound) :
    n.level = (m.diagram.tree f).levelOr m.varNum := by
  by_cases ht : f.isTerminal = true
  · rw [hm.reduced.tree_terminal ht]
    exact h.terminal ht
  · rw [hm.reduced.tree_node (h.inner (Bool.eq_false_iff.mpr ht))]
    rfl

/-- A node is constant if its tree is. -/
theorem Sound.tree_leaf_iff (hm : m.Sound) (hf : m.diagram.Live f) (b : Bool) :
    m.diagram.tree f = .leaf b ↔ f = NodeId.ofBool b := by
  refine ⟨hm.reduced.tree_eq_leaf hf, ?_⟩
  rintro rfl
  cases b
  · exact hm.reduced.tree_bot
  · exact hm.reduced.tree_top

theorem Sound.tree_leaf_of_isBot (hm : m.Sound) (h : f.isBot = true) :
    m.diagram.tree f = .leaf false := eq_of_beq h ▸ hm.reduced.tree_bot

theorem Sound.tree_leaf_of_isTop (hm : m.Sound) (h : f.isTop = true) :
    m.diagram.tree f = .leaf true := eq_of_beq h ▸ hm.reduced.tree_top

theorem Sound.tree_ne_false (hm : m.Sound) (hf : m.diagram.Live f) (h : ¬ f.isBot = true) :
    m.diagram.tree f ≠ .leaf false := fun heq =>
  h ((hm.tree_leaf_iff hf false).mp heq ▸ rfl)

theorem Sound.tree_ne_true (hm : m.Sound) (hf : m.diagram.Live f) (h : ¬ f.isTop = true) :
    m.diagram.tree f ≠ .leaf true := fun heq =>
  h ((hm.tree_leaf_iff hf true).mp heq ▸ rfl)

/-- A live node may become pending. -/
theorem Sound.push (hm : m.Sound) (hf : m.diagram.Live f) :
    m.Evolves { m with pending := f :: m.pending } ∧
      Coherent { m with pending := f :: m.pending } m.varNum := by
  refine ⟨(Evolves.refl m).setPending (List.subset_cons_self _ _), ?_⟩
  refine hm.toCoherent.setPending fun x hx => ?_
  rcases List.mem_cons.mp hx with rfl | hx
  · exact hf
  · exact hm.rooted (.inl hx)

/-- The cofactors of a node unfold to those of its tree. -/
theorem Reads.tree_cofactor {f : NodeId} {n : Node} (h : m.Reads f n) (hm : m.Sound) {level : Level}
    (hlt : level < m.varNum) (b : Bool) :
    m.diagram.tree (n.cofactor f level b) = (m.diagram.tree f).cofactor level b := by
  rw [Node.cofactor]
  by_cases ht : f.isTerminal = true
  · have := h.terminal ht
    rw [if_neg (by lia), hm.reduced.tree_terminal ht]
    rfl
  · have hn := h.inner (Bool.eq_false_iff.mpr ht)
    rw [hm.reduced.tree_node hn, Tree.cofactor]
    split
    · cases b <;> rfl
    · exact hm.reduced.tree_node hn

/-- The cofactors at a node's own level are its branches. -/
theorem Reads.cofactor_level {f : NodeId} {n : Node} (h : m.Reads f n) (hm : m.Sound)
    (hlt : n.level < m.varNum) (b : Bool) :
    (m.diagram.tree f).cofactor n.level b = m.diagram.tree (n.child b) := by
  rw [← h.tree_cofactor hm hlt, Node.cofactor, if_pos rfl]

/-- A kept node that decides no level above `k` has a tree that does not. -/
theorem Operand.proper {k : Level} {f : NodeId} (h : m.Operand k f) (hm : m.Sound) :
    (m.diagram.tree f).Proper k := hm.reduced.tree_proper h.under

theorem Operand.of_proper (hm : m.Sound) {k : Level} {f : NodeId} (hf : m.Kept f)
    (hp : (m.diagram.tree f).Proper k) (hk : k ≤ m.varNum) : m.Operand k f :=
  ⟨hf, hm.reduced.under_of_proper (hm.kept_live hf) hp, hk⟩

end Manager

namespace Program

variable {α : Type} {m m₀ m' : Manager} {P Q R : Tree → Prop} {p low high : Program NodeId}
  {f l h : NodeId}

/-- The program, run in `m`, ends without a fault.  If it ends with a node, this is live, and its
tree satisfies `P`; and at each step that makes a node, the rest of the program names kept nodes
only, if that is so of what follows on it. -/
def Yields (m : Manager) (p : Program NodeId) (P : Tree → Prop) : Prop :=
  ∀ T : Scope → NodeId → Prop, Frames m.scope T →
    Ensures m.varNum m p T m fun res m' => m'.diagram.Live res ∧ P (m'.diagram.tree res)

theorem Yields.mono (h : Yields m p P) (hPQ : ∀ t, P t → Q t) : Yields m p Q := fun T hT =>
  (h T hT).mono fun _ _ _ _ hres => ⟨hres.1, hPQ _ hres.2⟩

/-- The specification, seen from an earlier manager, together with the end of the run. -/
theorem Yields.ensures (h : Yields m p P) (he : m₀.Evolves m) {T : Scope → NodeId → Prop}
    (hT : Frames m.scope T) :
    Ensures m₀.varNum m₀ p T m fun res m' =>
      m.Evolves m' ∧ p.run m = .ok res m' ∧ m'.diagram.Live res ∧ P (m'.diagram.tree res) := by
  have hx := h T hT
  rw [he.varNum] at hx
  exact (hx.rebase he).mono_run fun res m' hrun _ _ hres => ⟨hres.1, hrun, hres.2⟩

/-! ### Single steps -/

theorem Yields.pure (hm : m.Sound) (hf : m.diagram.Live f) (hP : P (m.diagram.tree f)) :
    Yields m (Pure.pure f) P := fun _ _ => ⟨.refl m, hm.toCoherent, hf, hP⟩

/-- A step that leaves the manager as it is. -/
theorem Yields.read {s : Step} {a : s.Answer} {next : s.Answer → Program NodeId} (hm : m.Sound)
    (hs : s.collects = false) (ha : s.exec m = .ok a m) (h : Yields m (next a) P) :
    Yields m (one s >>= next) P := by
  intro T hT
  refine ⟨⟨.refl m, hm.toCoherent⟩, fun hc => ?_, .of_ok ha (.refl m) hm.toCoherent (h T hT)⟩
  rw [hs] at hc
  cases hc

theorem Yields.node {next : Node → Program NodeId} (hm : m.Sound) (hf : m.diagram.Live f)
    (h : ∀ n, m.Reads f n → Yields m (next n) P) : Yields m (node f >>= next) P := by
  obtain ⟨n, hn, hr⟩ := hm.exists_reads hf
  refine Yields.read (s := .node f) hm rfl ?_ (h n hr)
  simp only [Step.exec, Build.read, hn]

theorem Yields.depth {next : Nat → Program NodeId} (hm : m.Sound) (h : Yields m (next m.depth) P) :
    Yields m (depth >>= next) P := Yields.read (s := .depth) hm rfl rfl h

theorem Yields.fail (hm : m.Sound) {e : Error} (he : (Interrupt.error e).Regular) :
    Yields m (fail e) P := fun _ _ =>
  ⟨⟨.refl m, hm.toCoherent⟩, nofun, .of_error rfl he (.refl m) hm.toCoherent⟩

theorem Yields.mk (hm : m.Sound) {level : Level} (hlevel : level < m.varNum)
    (hl : m.Operand (level + 1) l) (hh : m.Operand (level + 1) h) :
    Yields m (mk level l h) (· = Tree.make level (m.diagram.tree l) (m.diagram.tree h)) := by
  intro T hT
  refine ⟨⟨.refl m, hm.toCoherent⟩, fun _ => ⟨?_, fun a => ?_⟩, ?_⟩
  · simpa [Step.reads] using ⟨hl.kept, hh.kept⟩
  · exact hT (Scope.le_add _ _) (Scope.mem_add_of_mem List.mem_cons_self)
  · refine (Build.Ensures.mk hm.toCoherent hlevel hl.kept hh.kept hl.under hh.under).mono ?_
    rintro res m' he hc ⟨-, hmade⟩
    have hl' := (he.under hl.kept hl.under).live
    have hh' := (he.under hh.kept hh.under).live
    refine ⟨hmade.live hl', ?_⟩
    rw [hmade.tree hc.reduced hl' hh', he.tree hm.toCoherent hc hl.kept,
      he.tree hm.toCoherent hc hh.kept]

/-! ### Reading -/

/-- The program, run in `m`, comes to its end and leaves the manager as it is; `Q` holds of the
result. -/
def Observes (m : Manager) : {α : Type} → Program α → (α → Prop) → Prop
  | _, done a, Q => Q a
  | _, one s, Q => s.collects = false ∧ ∃ a, s.exec m = .ok a m ∧ Q a
  | _, bind p next, Q => Observes m p fun a => Observes m (next a) Q

theorem Observes.mono {p : Program α} {Q R : α → Prop} (h : Observes m p Q) (hQR : ∀ a, Q a → R a) :
    Observes m p R := by
  induction p with
  | done a => exact hQR a h
  | one s => exact h.imp_right fun ⟨a, ha, hQ⟩ => ⟨a, ha, hQR a hQ⟩
  | bind p next ihp ihn => exact ihp h fun a ha => ihn a ha hQR

theorem Observes.ensures {p : Program α} {Q : α → Prop} (hm : m.Sound) (h : Observes m p Q)
    (T : Scope → α → Prop) : Ensures m.varNum m p T m fun a m' => m' = m ∧ Q a := by
  induction p with
  | done a => exact ⟨.refl m, hm.toCoherent, rfl, h⟩
  | one s =>
    obtain ⟨hs, a, ha, hQ⟩ := h
    refine ⟨⟨.refl m, hm.toCoherent⟩, fun hc => ?_, .of_ok ha (.refl m) hm.toCoherent ⟨rfl, hQ⟩⟩
    rw [hs] at hc
    cases hc
  | bind p next ihp ihn =>
    refine Ensures.bind (ihp h _) ?_
    rintro a m' - - ⟨rfl, ha⟩
    exact ihn a ha T

theorem Observes.node {next : Node → Program α} {Q : α → Prop} (hm : m.Sound)
    (hf : m.diagram.Live f) (h : ∀ n, m.Reads f n → Observes m (next n) Q) :
    Observes m (Program.node f >>= next) Q := by
  obtain ⟨n, hn, hr⟩ := hm.exists_reads hf
  exact ⟨rfl, n, by simp only [Step.exec, Build.read, hn], h n hr⟩

theorem Observes.check {next : Unit → Program α} {Q : α → Prop} (hm : m.Sound)
    (hf : m.diagram.Live f) (h : Observes m (next ()) Q) :
    Observes m (Program.check f >>= next) Q := by
  have hlive : m.store.isLive f = true := hm.store.live_iff.mp hf
  refine ⟨rfl, (), ?_, h⟩
  simp only [Step.exec, Build.read, checkNode, if_pos hlive]

theorem Yields.observe {p : Program α} {next : α → Program NodeId} {Q : α → Prop} (hm : m.Sound)
    (hp : Observes m p Q) (h : ∀ a, Q a → Yields m (next a) P) : Yields m (p >>= next) P := by
  intro T hT
  refine Ensures.bind (hp.ensures hm _) ?_
  rintro a m' - - ⟨rfl, ha⟩
  exact h a ha T hT

/-! ### One program after another -/

/-- What follows on a node names this node at most, and what is kept already. -/
theorem frames_next {next : NodeId → Program NodeId} {T : Scope → NodeId → Prop}
    (huses : ∀ {S} res, m.scope ≤ S → res ∈ S → (next res).Uses S) (hT : Frames m.scope T) :
    Frames m.scope fun S res => (next res).Names S T := fun hS hres =>
  (huses _ hS hres).names (Scope.le_refl _) (hT.mono hS)

theorem Yields.bind {next : NodeId → Program NodeId} (hm : m.Sound) (h : Yields m p P)
    (huses : ∀ {S} res, m.scope ≤ S → res ∈ S → (next res).Uses S)
    (hn : ∀ res m', m.Evolves m' → m'.Sound → m'.diagram.Live res → P (m'.diagram.tree res) →
      Yields m' (next res) Q) : Yields m (p >>= next) Q := by
  intro T hT
  refine Ensures.bind (h _ (frames_next huses hT)) ?_
  rintro res m' he hc ⟨hlive, hP⟩
  refine ((hn res m' he (hm.evolves he hc) hlive hP).ensures he (hT.mono he.scope_le)).mono ?_
  rintro res' m'' - - ⟨-, -, hres'⟩
  exact hres'

/-- A node is kept, and so is its tree, while it is pending. -/
theorem Yields.hold (hm : m.Sound) (hf : m.diagram.Live f) (hb : p.Balanced)
    (h : ∀ m', m.Evolves m' → m'.Sound → m'.Kept f → m'.diagram.tree f = m.diagram.tree f →
      Yields m' p P) : Yields m (Program.hold f p) P := by
  intro T hT
  obtain ⟨he, hc⟩ := hm.push hf
  have hp := h _ he (hm.evolves he hc) (kept_of_pending List.mem_cons_self) rfl
  -- After the program, the node is popped.
  have hframe : Frames (Manager.scope { m with pending := f :: m.pending })
      fun S res => Names (do pop; return res : Program NodeId) S T := fun hS hres =>
    ⟨by simp [Step.reads], fun _ => hT (Scope.le_trans he.scope_le (Scope.le_trans hS
      (Scope.le_add _ _))) (.inl hres)⟩
  refine ⟨⟨.refl m, hm.toCoherent⟩, fun h => absurd h Bool.false_ne_true,
    .of_ok (a := ()) rfl he hc ?_⟩
  refine Ensures.bind (p := p) (hp.ensures he hframe) ?_
  rintro res m₁ he₁ hc₁ ⟨-, hrun, hlive, hP⟩
  have hpending : m₁.pending = f :: m.pending := hb _ _ _ hrun
  refine ⟨⟨he₁, hc₁⟩, fun h => absurd h Bool.false_ne_true, ?_⟩
  refine (Build.Ensures.pop he₁ hc₁ hpending (List.Subset.refl _)).mono ?_
  rintro - m₂ he₂ hc₂ rfl
  exact ⟨he₂, hc₂, hlive, hP⟩

/-- Two branches and what joins their results, which are kept meanwhile. -/
theorem Yields.branch {join : NodeId → NodeId → Program NodeId} (hm : m.Sound)
    (hlow : Yields m low P) (hhigh : ∀ m', m.Evolves m' → m'.Sound → Yields m' high Q)
    (thigh : Tidy m.scope high)
    (tjoin : ∀ {S} l h, m.scope ≤ S → l ∈ S → h ∈ S → Tidy S (join l h))
    (hjoin : ∀ m' l h, m.Evolves m' → m'.Sound → m'.Kept l → m'.Kept h →
      P (m'.diagram.tree l) → Q (m'.diagram.tree h) → Yields m' (join l h) R) :
    Yields m (Program.branch low high join) R := by
  -- What follows on the low branch, and on the high one.
  have last : ∀ {S} l h, m.scope ≤ S → l ∈ S → h ∈ S → Tidy S (Program.hold h (join l h)) :=
    fun l h hS hl hh => .hold hh (tjoin l h hS hl hh)
  have rest : ∀ {S} l, m.scope ≤ S → l ∈ S →
      Tidy S (high >>= fun h => Program.hold h (join l h)) := fun l hS hl =>
    (thigh.mono hS).bind fun h hS' hh => last l h (Scope.le_trans hS hS') (hS' l hl) hh
  refine .bind hm hlow (fun l hS hl => (Tidy.hold hl (rest l hS hl)).uses) ?_
  intro l m₁ he₁ hm₁ hl hP
  refine .hold hm₁ hl (rest (S := m.scope.add [l]) l (Scope.le_add _ _)
    (Scope.mem_add_of_mem List.mem_cons_self)).balanced ?_
  intro m₂ he₂ hm₂ hkl ht₂
  have he₂ := he₁.trans he₂
  refine .bind hm₂ (hhigh m₂ he₂ hm₂) (fun h hS hh =>
    (last l h (Scope.le_trans he₂.scope_le hS) (hS l hkl) hh).uses) ?_
  intro h m₃ he₃ hm₃ hh hQ
  refine .hold hm₃ hh (tjoin (S := m.scope.add [l, h]) l h (Scope.le_add _ _)
    (Scope.mem_add_of_mem (by simp)) (Scope.mem_add_of_mem (by simp))).balanced ?_
  intro m₄ he₄ hm₄ hkh ht₄
  have he₂₄ := he₃.trans he₄
  refine hjoin m₄ l h (he₂.trans he₂₄) hm₄ (he₂₄.of_kept hkl) hkh ?_ ?_
  · rw [he₂₄.tree hm₂.toCoherent hm₄.toCoherent hkl, ht₂]
    exact hP
  · rw [ht₄]
    exact hQ

/-- Branches below a level, joined by `mk`. -/
theorem Yields.split {level : Level} {s t : Tree} (hm : m.Sound) (hlevel : level < m.varNum)
    (hs : s.Proper (level + 1)) (ht : t.Proper (level + 1)) (hlow : Yields m low (· = s))
    (hhigh : ∀ m', m.Evolves m' → m'.Sound → Yields m' high (· = t))
    (thigh : Tidy m.scope high) :
    Yields m (Program.branch low high (Program.mk level)) (· = Tree.make level s t) := by
  refine .branch hm hlow hhigh thigh (fun l h _ hl hh => .make level hl hh) ?_
  rintro m' l h he hm' hl hh rfl rfl
  have hle : level + 1 ≤ m'.varNum := he.varNum ▸ hlevel
  exact .mk hm' hle (.of_proper hm' hl hs hle) (.of_proper hm' hh ht hle)

/-- The branches of a recursion on two operands, whose answer is `spec` of the trees of these, below
a level and joined by `mk`. -/
theorem Yields.splitPair (run : NodeId → NodeId → Program NodeId) (spec : Tree → Tree → Tree)
    {level : Level} {f₀ f₁ g₀ g₁ : NodeId} (hm : m.Sound) (hlevel : level < m.varNum)
    (hspec : ∀ {s t : Tree}, s.Proper (level + 1) → t.Proper (level + 1) →
      (spec s t).Proper (level + 1))
    (hrun : ∀ m' f g, m.Evolves m' → m'.Sound → m'.Operand (level + 1) f →
      m'.Operand (level + 1) g →
      Yields m' (run f g) (· = spec (m'.diagram.tree f) (m'.diagram.tree g)))
    (hf₀ : m.Operand (level + 1) f₀) (hf₁ : m.Operand (level + 1) f₁)
    (hg₀ : m.Operand (level + 1) g₀) (hg₁ : m.Operand (level + 1) g₁)
    (thigh : Tidy m.scope (run f₁ g₁)) :
    Yields m (Program.branch (run f₀ g₀) (run f₁ g₁) (Program.mk level))
      (· = Tree.make level (spec (m.diagram.tree f₀) (m.diagram.tree g₀))
        (spec (m.diagram.tree f₁) (m.diagram.tree g₁))) := by
  refine .split hm hlevel (hspec (hf₀.proper hm) (hg₀.proper hm))
    (hspec (hf₁.proper hm) (hg₁.proper hm)) (hrun m f₀ g₀ (.refl m) hm hf₀ hg₀)
    (fun m' he hm' => ?_) thigh
  -- The trees of the operands are those that they had before the low branch.
  rw [← hm.tree hm' he hf₁.kept, ← hm.tree hm' he hg₁.kept]
  exact hrun m' f₁ g₁ he hm' (hf₁.evolves he) (hg₁.evolves he)

/-- In a call that keeps nothing else pending, a node takes the place of the one before. -/
theorem Ensures.keepOnly {next : Program NodeId} {T : Scope → NodeId → Prop}
    {E : NodeId → Manager → Prop} (hp₀ : m₀.pending = []) (he : m₀.Evolves m)
    (hc : m.Coherent m₀.varNum) (hf : m.diagram.Live f)
    (h : ∀ m', m₀.Evolves m' → m'.Coherent m₀.varNum → m'.diagram = m.diagram → m'.Kept f →
      Ensures m₀.varNum m₀ next T m' E) :
    Ensures m₀.varNum m₀ (Program.keepOnly f >>= fun _ => next) T m E := by
  have he' : m₀.Evolves { m with pending := [f] } :=
    he.setPending (by rw [hp₀]; exact List.nil_subset _)
  have hc' : Coherent { m with pending := [f] } m₀.varNum := hc.setPending fun x hx => by
    rw [List.mem_singleton.mp hx]
    exact hf
  exact ⟨⟨he, hc⟩, nofun, .of_ok (a := ()) rfl he' hc'
    (h _ he' hc' rfl (kept_of_pending List.mem_cons_self))⟩

/-! ### Computed tables -/

/-- The computed tables answer a query, or the answer is computed and entered. -/
theorem Yields.memo {q : Query} (hm : m.Sound) (hq : ∀ x ∈ q.nodes, m.Kept x)
    (h : ∀ m', m.Evolves m' → m'.Sound → Yields m' p (m'.Tells q)) :
    Yields m (Program.memo q p) (m.Tells q) := by
  intro T hT
  have he := evolves_setComputed m (m.computed.record q)
  have hc := Coherent.setComputed hm.toCoherent (hm.computed.record q)
  refine ⟨⟨.refl m, hm.toCoherent⟩, nofun, .of_ok (a := m.computed.find? q) rfl he hc ?_⟩
  rcases hfind : m.computed.find? q with _ | res
  · -- The result is entered while the operands are kept.
    have hframe : Frames (Manager.scope { m with computed := m.computed.record q })
        fun S res => Names (do remember q res; return res : Program NodeId) S T := by
      refine fun {S res} hS hres => ⟨fun x hx => ?_, fun _ => hT (Scope.le_trans hS
        (Scope.le_add _ _)) (.inl hres)⟩
      rcases List.mem_cons.mp hx with rfl | hx
      · exact hres
      · exact hS x (hq x hx)
    refine Ensures.bind (p := p) ((h _ he (hm.evolves he hc)).ensures he hframe) ?_
    rintro res m₁ he₁ hc₁ ⟨he', -, hlive, htells⟩
    have htells₁ : m₁.Tells q (m₁.diagram.tree res) := (he'.tells hc hc₁ hq).mpr htells
    have hright : q.Right m₁.diagram m₁.pairings res :=
      ⟨fun x hx => hc₁.kept_live (he₁.of_kept (hq x hx)), hlive, htells₁⟩
    refine ⟨⟨he₁, hc₁⟩, nofun, ?_⟩
    refine .of_ok (a := ()) rfl (he₁.trans (evolves_setComputed m₁ _))
      (Coherent.setComputed hc₁ (hc₁.computed.insert hright)) ?_
    exact ⟨he₁.trans (evolves_setComputed m₁ _),
      Coherent.setComputed hc₁ (hc₁.computed.insert hright), hlive, htells⟩
  · have hright := hm.computed.find? hfind
    exact ⟨he, hc, hright.live, hright.tells⟩

end Program

end DecisionDiagram
