/-
Restriction to the literals of a node is right.

The literals are those along a walk from the root: a node whose low child is false sets its variable to
true, and any other sets it to false.  The walk goes along the order, so a call that is interrupted reads
the literals in the order that it ends with.  For a cube of literals these are its own ones, and
restriction is the generalised cofactor.

* `Manager.fixed` — the literals of a node, and `Manager.override`, an assignment with literals set;
* `Request.meets_restrict` — the request, in terms of meanings;
* `Manager.Settled.restriction` — the answers of every call.
-/
import DecisionDiagram.Proofs.CareSets

namespace DecisionDiagram

namespace Manager

variable {m m' : Manager} {f cube res : NodeId} {v : Var} {lits : List (Var × Bool)}
  {assignment image : Array Bool} {x : Level → Bool}

/-! ### Literals -/

/-- The literals below a node, at most `n` of them. -/
def literalsFrom (m : Manager) : Nat → NodeId → List (Var × Bool)
  | 0, _ => []
  | n + 1, f =>
    match m.parts? f with
    | none => []
    | some (v, low, high) =>
      if low.isBot then (v, true) :: m.literalsFrom n high else (v, false) :: m.literalsFrom n low

/-- The literals that are read off a node. -/
def fixed (m : Manager) (cube : NodeId) : List (Var × Bool) := m.literalsFrom m.depth cube

/-- The assignment with some literals set. -/
def override (lits : List (Var × Bool)) (assignment : Array Bool) : Array Bool :=
  lits.foldl (fun assignment l => assignment.setIfInBounds l.1 l.2) assignment

theorem fixed_unkept (m : Manager) (cube : NodeId) (pending operands : List NodeId)
    (auto : AutoReorder) : fixed { m with pending, operands, auto } cube = m.fixed cube := by
  have h : ∀ n f, literalsFrom { m with pending, operands, auto } n f = m.literalsFrom n f :=
    fun n => by
      induction n with
      | zero => exact fun _ => rfl
      | succ n ih =>
        intro f
        simp only [literalsFrom, ih]
        rfl
  exact h m.depth cube

theorem fixed_terminal (ht : cube.isTerminal = true) : m.fixed cube = [] := by
  rw [fixed, depth, literalsFrom, parts?_terminal ht]

theorem size_override (lits : List (Var × Bool)) (assignment : Array Bool) :
    (override lits assignment).size = assignment.size := by
  induction lits generalizing assignment with
  | nil => rfl
  | cons l lits ih => exact (ih _).trans (Array.size_setIfInBounds)

/-- The value that a variable is set to does not depend on the one that it has. -/
theorem override_set {b : Bool} {l : Var × Bool} (hl : l ∈ lits) (assignment : Array Bool) :
    override lits (assignment.setIfInBounds l.1 b) = override lits assignment := by
  induction lits generalizing assignment with
  | nil => cases hl
  | cons l' lits ih =>
    rw [override, override, List.foldl_cons, List.foldl_cons]
    -- The first literal of the variable overwrites what was set before.
    by_cases heq : l'.1 = l.1
    · rw [heq, Array.setIfInBounds_setIfInBounds]
    · obtain hl := (List.mem_cons.mp hl).resolve_left fun h => heq (congrArg Prod.fst h.symm)
      rw [Array.setIfInBounds_comm _ _ (Ne.symm heq)]
      exact ih hl _

/-- The literals along the walk are those that the tree fixes. -/
theorem Tracks.literalsFrom (h : m.Tracks x assignment image) (hm : m.Sound) {k bound : Nat}
    (hf : m.diagram.Under id k f) (hbound : m.varNum ≤ bound + k) (ha : m.varNum ≤ assignment.size) :
    m.Tracks ((m.diagram.tree f).fixing x) assignment (override (m.literalsFrom bound f) image) := by
  induction bound generalizing f k image x with
  | zero =>
    rw [hm.reduced.tree_terminal (hm.isTerminal_of_under hf (by lia))]
    exact h
  | succ bound ih =>
    rcases hf with ht | ⟨r, hr, hle⟩
    · rw [hm.reduced.tree_terminal ht, Manager.literalsFrom, parts?_terminal ht]
      exact h
    obtain ⟨v, hparts, hl, hv⟩ := hm.parts?_node hr
    have hproper := hm.reduced.tree_proper (Diagram.live_of_eq_some hr).under
    have hle : k ≤ r.level := hle
    have hv : v < image.size := h.size ▸ Nat.lt_of_lt_of_le hv ha
    have hlow : m.diagram.Under id (r.level + 1) r.low := hm.reduced.below hr false
    have hhigh : m.diagram.Under id (r.level + 1) r.high := hm.reduced.below hr true
    rw [hm.reduced.tree_node hr] at hproper ⊢
    rw [hproper.fixing_node, Manager.literalsFrom, hparts]
    simp only [hm.isBot_iff_tree hlow.live]
    split
    · exact ih (h.set hm hl hv true) hhigh (by lia)
    · exact ih (h.set hm hl hv false) hlow (by lia)

theorem Tracks.override (h : m.Tracks x assignment image) (hm : m.Sound) (hf : m.diagram.Live f)
    (ha : m.varNum ≤ assignment.size) :
    m.Tracks ((m.diagram.tree f).fixing x) assignment (override (m.fixed f) image) :=
  h.literalsFrom hm hf.under (by rw [depth]; lia) ha

theorem Sound.repairs_override (hm : m.Sound) (hcube : m.diagram.Live cube)
    (hbot : ¬ cube.isBot = true) : m.Repairs cube (override (m.fixed cube)) :=
  hm.repairs hcube (m.diagram.tree cube).fixing
    (fun assignment ha => (hm.tracks assignment).override hm hcube ha)
    ((hm.reduced.tree_proper hcube.under).eval_fixing (hm.tree_ne_false hcube hbot))
    fun x _ hl => Tree.fixing_apply hl x

/-- In one order the literals of the same function are the same. -/
theorem Sound.override_eq {n : Manager} {g : NodeId} (hm : m.Sound) (hn : n.Sound)
    (ho : n.order = m.order) (hg : m.Agrees f n g) (ha : m.varNum ≤ assignment.size) :
    valuation (override (n.fixed g) assignment) = valuation (override (m.fixed f) assignment) := by
  obtain ⟨hf, hg, heq⟩ := (hm.agrees_iff hn).mp hg
  have htree := hm.tree_eq_of_meaning hn ho hf hg heq.symm
  have hvar : n.varNum = m.varNum := congrArg VarOrder.size ho
  have h := (hm.tracks assignment).override hm hf ha
  have h' := (hn.tracks assignment).override hn hg (hvar.trans_le ha)
  rw [htree, ho] at h'
  exact h.valuation_eq h' ho

end Manager

/-! ### The request -/

open Program Manager in
/-- What the answer of `restrict` has to mean.  The cube goes on to mean the same. -/
theorem Request.meets_restrict {m : Manager} {f cube : NodeId} (hm : m.Ready) :
    (restrict f cube).Meets (fun res m' => (m.diagram.Live f ∧ m.diagram.Live cube) ∧
      (m'.diagram.Live cube ∧ m'.meaning cube = m.meaning cube) ∧
      ∀ assignment : Array Bool, m'.varNum ≤ assignment.size →
        m'.meaning res (valuation assignment) =
          m.meaning f (valuation (override (m'.fixed cube) assignment))) m := by
  unfold restrict
  split
  · rename_i ht
    intro hcheck
    have hf := checkNode_ok hm hcheck
    exact ⟨hf, ⟨hf, .inl ht⟩, ⟨.inl ht, rfl⟩, fun _ _ => by rw [fixed_terminal ht]; rfl⟩
  · refine meets_yields hm fun _ hlive e he _ hk hsame => ?_
    have hf := hk f (by simp)
    have hcube := hk cube (by simp)
    refine ⟨_, .depth he (.restrictCube he hf hcube), fun res m' hev hm' htree => ?_⟩
    obtain ⟨hf', hmeaning⟩ := hev.meaning he hm' hf
    obtain ⟨hcube', hmeaning'⟩ := hev.meaning he hm' hcube
    refine ⟨⟨hlive f (by simp), hlive cube (by simp)⟩,
      ⟨hcube', hmeaning'.trans (hsame cube (by simp))⟩, fun assignment ha => ?_⟩
    rw [← he.tree hm' hev hf, ← he.tree hm' hev hcube] at htree
    rw [meaning, htree, Tree.eval_restrict, ← hsame f (by simp), ← hmeaning]
    exact ((hm'.tracks assignment).override hm' hcube' ha).eval_tree hm' hf'

/-! ### Answers -/

namespace Manager

variable {m m' : Manager} {f cube : NodeId} {answer : Answer}

/-- What a call of `restrict` answers, in terms of meanings. -/
theorem Settled.restricted (hm : m.Settled) (h : (Command.restrict f cube).run m = (.ok answer, m')) :
    ∃ res, answer = .node res ∧ m.Completes [] m' ∧ m'.diagram.Live res ∧ m.diagram.Live f ∧
      m.Agrees cube m' cube ∧ ∀ assignment : Array Bool, m'.varNum ≤ assignment.size →
        m'.meaning res (valuation assignment) =
          m.meaning f (valuation (override (m'.fixed cube) assignment)) := by
  have hready := hm.ready
  obtain ⟨res, hanswer, hcompletes, -, hlive, ⟨hf, hc⟩, ⟨hc', hsame⟩, hmeaning⟩ :=
    Command.answered hready (c := .restrict f cube) rfl
      (fun h _ _ _ => (fixed_unkept _ cube _ _ _).symm ▸ h) (Request.meets_restrict hready) h
  exact ⟨res, hanswer, hcompletes, hlive, hf, (hready.toSound.agrees_iff hcompletes.ready.toSound).mpr
    ⟨hc, hc', hsame.symm⟩, hmeaning⟩

/-- Restriction is right.  At each assignment its result has the value that the operand has with the
literals of the cube set, in the order that the call ends with, and it depends on none of their
variables.  If that is the order it began with, or the cube is a terminal or a cube of literals indeed,
then they may be those from before the call.  For a satisfiable cube of literals, restriction and the
generalised cofactor have the same result, whatever comes in between. -/
theorem Settled.restriction (hm : m.Settled) :
    (∀ f cube answer m', (Command.restrict f cube).run m = (.ok answer, m') →
      ∃ res, answer = .node res ∧ m'.store.isLive res = true ∧
        m.Composes f (override (m'.fixed cube)) res m' ∧
        (∀ l ∈ m'.fixed cube, ¬ m'.DependsOn res l.1) ∧
        (m'.order.toList = m.order.toList ∨ cube.isTerminal = true ∨
            (∃ lits, m.ConjoinsLiterals cube lits) →
          m.Composes f (override (m.fixed cube)) res m' ∧
          ∀ l ∈ m.fixed cube, ¬ m'.DependsOn res l.1)) ∧
    ∀ n f g c c' res res' m' n', n.Settled → c.isBot = false → (∃ lits, m.ConjoinsLiterals c lits) →
      (Command.restrict f c).run m = (.ok (.node res), m') →
      (Command.constrain g c').run n = (.ok (.node res'), n') →
      m.Agrees f n g → m.Agrees c n c' → m'.Agrees res n' res' := by
  have hsound := hm.ready.toSound
  refine ⟨fun f cube answer m' h => ?_, ?_⟩
  · obtain ⟨res, hanswer, hcompletes, hlive, hf, hcube, hmeaning⟩ := hm.restricted h
    have hsound' := hcompletes.ready.toSound
    have hvar := hcompletes.retains.varNum
    obtain ⟨hc, hc', hsame⟩ := (hsound.agrees_iff hsound').mp hcube
    have composes : ∀ lits, (∀ assignment : Array Bool, m'.varNum ≤ assignment.size →
        m'.meaning res (valuation assignment) =
          m.meaning f (valuation (override lits assignment))) →
        m.Composes f (override lits) res m' ∧ ∀ l ∈ lits, ¬ m'.DependsOn res l.1 := by
      intro lits h
      have hcomposes : m.Composes f (override lits) res m' :=
        .of_meaning hsound hsound' hf hlive
          (fun assignment ha => by rw [size_override]; exact Nat.le_trans hvar ha) h
      exact ⟨hcomposes, fun l hl => hcomposes.not_dependsOn hsound' fun assignment b =>
        override_set hl assignment⟩
    refine ⟨res, hanswer, hsound'.store.live_iff.mp hlive, (composes _ hmeaning).1,
      (composes _ hmeaning).2, fun hkept => composes _ fun assignment ha => ?_⟩
    rw [hmeaning assignment ha]
    refine congrArg _ ?_
    by_cases ht : cube.isTerminal = true
    · rw [fixed_terminal ht, fixed_terminal ht]
    rcases hkept with ho | ht' | ⟨lits, hlits⟩
    · exact hsound.override_eq hsound' (hsound.order.eq_of_toList hsound'.order ho) hcube
        (Nat.le_trans hvar ha)
    · exact absurd ht' ht
    · have hbot : ¬ cube.isBot = true := fun hbot => ht (eq_of_beq hbot ▸ rfl)
      exact hlits.image_eq hsound hsound' hsound hcube
        (hsound.agrees_self hc) (hsound'.repairs_override hc' hbot)
        (hsound.repairs_override hc hbot) ha (Nat.le_trans hvar ha)
  · intro n f g c c' res res' m' n' hn hbot hlits hf hg hfg hc
    obtain ⟨lits, hlits⟩ := hlits
    have hn₀ := hn.ready.toSound
    have hbot' := (hc.isBot_eq hsound hn₀).trans hbot
    obtain ⟨_, hres, hcompletes, hlive, -, hcube, hmeaning⟩ := hm.restricted hf
    obtain rfl := Answer.node.inj hres
    obtain ⟨_, hres, hcompletes', hlive', -, hcare, hmeaning'⟩ := hn.constrained hbot' hg
    obtain rfl := Answer.node.inj hres
    have hm₁ := hcompletes.ready.toSound
    have hn₁ := hcompletes'.ready.toSound
    have hcn := hc.trans hsound hn₀ hn₁ hcare
    -- The literals and the walk of the other call both lead into the cube, and only one map does.
    have hrepairs := hm₁.repairs_override ((hsound.agrees_iff hm₁).mp hcube).2.1
      (Bool.eq_false_iff.mp hbot)
    have hrepairs' := hn₁.repairs_nearest ((hsound.agrees_iff hn₁).mp hcn).2.1
      (Bool.eq_false_iff.mp hbot')
    intro assignment ha ha'
    refine ⟨_, hm₁.eval_eq hlive ha, ?_⟩
    rw [hn₁.eval_eq hlive' ha', hmeaning assignment ha, hmeaning' assignment ha',
      ← ((hsound.agrees_iff hn₀).mp hfg).2.2,
      hlits.image_eq hsound hm₁ hn₁ hcube hcn hrepairs hrepairs' ha ha']

/-- The conjunction of a literal that the operand has and of one that it does not have. -/
theorem restriction_cube :
    ∃ m m' n', after (.small 12 64) [.setVarNum 3, .apply .xor 4 6, .apply .and 2 5] = some m ∧
      (Command.restrict 8 9).run m = (.ok (.node 6), m') ∧
      (Command.constrain 8 9).run m = (.ok (.node 6), n') ∧
      m.fixed 9 = [(0, true), (1, false)] ∧ m.ConjoinsLiterals 9 [(0, true), (1, false)] ∧
      m.Composes 8 (override [(0, true), (1, false)]) 6 m' ∧ ¬ m'.DependsOn 6 0 ∧ ¬ m'.DependsOn 6 1 ∧
      m'.Agrees 6 n' 6 := by
  have hrun : (after (.small 12 64) [.setVarNum 3, .apply .xor 4 6, .apply .and 2 5]).any fun m =>
      (Command.restrict 8 9).node? m == some 6 && (Command.constrain 8 9).node? m == some 6 &&
      m.fixed 9 == [(0, true), (1, false)] && m.varNum == 3 && m.literals[1]? == some (4, 5) &&
      m.diagram 9 == some ⟨0, 0, 5⟩ && m.order.varAt.getD 0 0 == 0 && m.store.isLive 8 := by
    decide +kernel
  obtain ⟨m, hm, hfacts⟩ := (Option.any_eq_true _ _).mp hrun
  simp only [Bool.and_eq_true, beq_iff_eq] at hfacts
  obtain ⟨⟨⟨⟨⟨⟨⟨hnode, hnode'⟩, hfixed⟩, hvar⟩, hy⟩, hand⟩, hat⟩, hf⟩ := hfacts
  have hsettled := settled_after hm
  have hsound := hsettled.ready.toSound
  have hcube := Diagram.live_of_eq_some hand
  have hconjoins : m.ConjoinsLiterals 9 [(0, true), (1, false)] := by
    refine ⟨by rw [hvar]; decide, fun assignment ha => ?_⟩
    rw [hsound.eval_eq hcube ha, hsound.meaning_node hand, hat, (hsound.meaning_literal hy _).2.2,
      hsound.meaning_terminal rfl, List.all_cons, List.all_cons, List.all_nil]
    cases valuation assignment 0 <;> cases valuation assignment 1 <;> rfl
  have hrun : (Command.restrict 8 9).run m = (.ok (.node 6), _) :=
    Prod.ext (Command.run_of_node? hnode) rfl
  have hrun' : (Command.constrain 8 9).run m = (.ok (.node 6), _) :=
    Prod.ext (Command.run_of_node? hnode') rfl
  obtain ⟨hone, htwo⟩ := hsettled.restriction
  obtain ⟨res, hres, -, -, -, hkept⟩ := hone 8 9 _ _ hrun
  obtain rfl : 6 = res := Answer.node.inj hres
  obtain ⟨hcomposes, hdepends⟩ := hkept (.inr (.inr ⟨_, hconjoins⟩))
  rw [hfixed] at hcomposes hdepends
  exact ⟨m, _, _, hm, hrun, hrun', hfixed, hconjoins, hcomposes, hdepends (0, true) (by simp),
    hdepends (1, false) (by simp), htwo m 8 8 9 9 6 6 _ _ hsettled rfl ⟨_, hconjoins⟩ hrun hrun'
      (hsound.agrees_self (hsound.store.live_iff.mpr hf)) (hsound.agrees_self hcube)⟩

/-- The node is no cube of literals, and its literals are read after a reordering within the call.  With
those from before, the operand would be false where all variables are true. -/
theorem restriction_reread :
    ∃ m m', after (.small 10 64) [.setVarNum 3, .apply .imp 4 6, .ite 2 7 4, .setAutoReorder .win2 none] =
        some m ∧
      m.store.isLive 9 = true ∧ m.store.isLive 8 = true ∧
      (Command.restrict 9 8).run m = (.ok (.node 2), m') ∧ m.fixed 8 = [(1, false)] ∧
      m'.fixed 8 = [(2, false), (1, false)] ∧ ¬ m.Composes 9 (override (m.fixed 8)) 2 m' := by
  have hrun : (after (.small 10 64) [.setVarNum 3, .apply .imp 4 6, .ite 2 7 4,
      .setAutoReorder .win2 none]).any fun m =>
      let m' := ((Command.restrict 9 8).run m).2
      m.store.isLive 9 && m.store.isLive 8 && (Command.restrict 9 8).node? m == some 2 &&
      m.fixed 8 == [(1, false)] && m'.fixed 8 == [(2, false), (1, false)] && m'.varNum == 3 &&
      (m.eval 9 #[true, false, true]).toOption == some false &&
      (m'.eval 2 #[true, true, true]).toOption == some true := by
    decide +kernel
  obtain ⟨m, hm, hfacts⟩ := (Option.any_eq_true _ _).mp hrun
  simp only [Bool.and_eq_true, beq_iff_eq] at hfacts
  obtain ⟨⟨⟨⟨⟨⟨⟨hf, hcube⟩, hnode⟩, hfixed⟩, hfixed'⟩, hvar⟩, hfalse⟩, htrue⟩ := hfacts
  refine ⟨m, _, hm, hf, hcube, Prod.ext (Command.run_of_node? hnode) rfl, hfixed, hfixed',
    fun hcomposes => ?_⟩
  obtain ⟨b, hb, hres⟩ := hcomposes #[true, true, true] (Nat.le_of_eq hvar)
  rw [hfixed, show override [(1, false)] #[true, true, true] = #[true, false, true] from rfl] at hb
  rw [hb] at hfalse
  rw [hres] at htrue
  exact absurd ((Option.some.inj hfalse).symm.trans (Option.some.inj htrue)) (by decide)

end Manager

end DecisionDiagram
