/-
Quantification is right.

The quantified variables are those of a cube, read along its high children.  They are read when the work
begins.  In a call that is interrupted this is after the order has changed, and then other nodes may
stand along the high children.  Only what a positive cube says does not depend on the order.

* `Manager.cubeVars` — the variables of a cube, and `Manager.Conjoins`, what makes the cube positive;
* `Manager.reassign` — all ways to set some variables anew, and `Quantifier.join`, which joins values;
* `Request.meets_quantify`, `Request.meets_makeSet` — the requests, in terms of meanings;
* `Manager.Settled.quantification` — the answers of every call.
-/
import DecisionDiagram.Proofs.Meaning
import DecisionDiagram.Proofs.Refusal
import DecisionDiagram.Proofs.Runs
import DecisionDiagram.Proofs.Totality

namespace DecisionDiagram

/-! ### The variables of a cube -/

namespace Manager

variable {m m' : Manager} {f cube : NodeId} {a : Var → Bool} {vars : List Var} {v : Var}

/-- The variables that are met along the high children, at most `n` of them. -/
def highVars (m : Manager) : Nat → NodeId → List Var
  | 0, _ => []
  | n + 1, f =>
    match m.varOf f, m.high f with
    | .ok v, .ok high => v :: m.highVars n high
    | _, _ => []

/-- The variables of a cube, from the top. -/
def cubeVars (m : Manager) (cube : NodeId) : List Var := m.highVars m.depth cube

/-- The node is the conjunction of known variables. -/
structure Conjoins (m : Manager) (f : NodeId) (vars : List Var) : Prop where
  known : ∀ v ∈ vars, v < m.varNum
  eval : ∀ assignment : Array Bool, m.varNum ≤ assignment.size →
    m.eval f assignment = .ok (vars.all (valuation assignment))

/-- Past the last level there are terminals only. -/
theorem Sound.isTerminal_of_under (hm : m.Sound) {k : Nat} (hf : m.diagram.Under id k f)
    (hk : m.varNum ≤ k) : f.isTerminal = true := by
  rcases hf with ht | ⟨n, hn, hle⟩
  · exact ht
  · exact absurd (Nat.le_trans hk hle) (Nat.not_le.mpr (hm.reduced.label_lt hn))

theorem Sound.checkInner_eq (hm : m.Sound) {n : Node} (hn : m.diagram f = some n) :
    m.checkInner f = .ok () := by
  have hcheck := (checkNode_eq hm.store).mpr (Diagram.live_of_eq_some hn)
  simp only [checkInner, hcheck, bind, Except.bind, hm.reduced.inner hn, Bool.false_eq_true, if_false]
  rfl

theorem Sound.varOf_node (hm : m.Sound) {n : Node} (hn : m.diagram f = some n) :
    ∃ v, m.varOf f = .ok v ∧ m.order.levelOf[v]? = some n.level ∧ v < m.varNum := by
  obtain ⟨v, hv, -, hlevel, hlt⟩ := hm.order.getD_varAt (hm.reduced.label_lt hn)
  refine ⟨v, ?_, hlevel, hlt⟩
  simp only [varOf, hm.checkInner_eq hn, node_of_diagram hn, bind, Except.bind, varAt, hv]

theorem Sound.low_node (hm : m.Sound) {n : Node} (hn : m.diagram f = some n) :
    m.low f = .ok n.low := by
  simp only [low, hm.checkInner_eq hn, node_of_diagram hn, bind, Except.bind]
  rfl

theorem Sound.high_node (hm : m.Sound) {n : Node} (hn : m.diagram f = some n) :
    m.high f = .ok n.high := by
  simp only [high, hm.checkInner_eq hn, node_of_diagram hn, bind, Except.bind]
  rfl

/-- A terminal has no variable. -/
theorem varOf_terminal (ht : f.isTerminal = true) (v : Var) : m.varOf f ≠ .ok v := by
  intro h
  rw [varOf, checkInner] at h
  rcases hc : m.checkNode f with e | _
  · rw [hc] at h
    cases h
  · simp only [hc, bind, Except.bind, if_pos ht] at h
    cases h

theorem Sound.highVars_node (hm : m.Sound) {n : Node} (hn : m.diagram f = some n) (bound : Nat) :
    m.highVars (bound + 1) f = m.order.varAt.getD n.level 0 :: m.highVars bound n.high := by
  obtain ⟨v, hv, hlevel, -⟩ := hm.varOf_node hn
  rw [highVars, hv, hm.high_node hn, Array.getD_eq_getD_getElem?, hm.order.varAt_levelOf hlevel]
  rfl

theorem highVars_terminal (ht : f.isTerminal = true) (bound : Nat) : m.highVars bound f = [] := by
  cases bound with
  | zero => rfl
  | succ n =>
    rw [highVars]
    split
    · rename_i h _
      exact absurd h (varOf_terminal ht _)
    · rfl

theorem cubeVars_unkept (m : Manager) (cube : NodeId) (pending operands : List NodeId)
    (auto : AutoReorder) : cubeVars { m with pending, operands, auto } cube = m.cubeVars cube := by
  have h : ∀ n f, highVars { m with pending, operands, auto } n f = m.highVars n f := fun n => by
    induction n with
    | zero => exact fun _ => rfl
    | succ n ih =>
      intro f
      simp only [highVars, ih]
      rfl
  exact h m.depth cube

/-- What is read off the records is the spine of the tree. -/
theorem Sound.highVars_eq (hm : m.Sound) {k bound : Nat} (hf : m.diagram.Under id k f)
    (hbound : m.varNum ≤ bound + k) :
    m.highVars bound f = (m.diagram.tree f).spine.map (m.order.varAt.getD · 0) ∧
      ∀ j ∈ (m.diagram.tree f).spine, j < m.varNum := by
  induction bound generalizing f k with
  | zero =>
    rw [hm.reduced.tree_terminal (hm.isTerminal_of_under hf (by lia))]
    exact ⟨rfl, by simp [Tree.spine]⟩
  | succ bound ih =>
    rcases hf with ht | ⟨n, hn, hle⟩
    · rw [hm.reduced.tree_terminal ht, highVars_terminal ht]
      exact ⟨rfl, by simp [Tree.spine]⟩
    · have hle : k ≤ n.level := hle
      obtain ⟨hvars, hlt⟩ := ih (hm.reduced.below hn true) (by lia)
      rw [hm.highVars_node hn, hm.reduced.tree_node hn, Tree.spine, List.map_cons]
      exact ⟨congrArg _ hvars, List.forall_mem_cons.mpr ⟨hm.reduced.label_lt hn, hlt⟩⟩

theorem Sound.cubeVars_eq (hm : m.Sound) (hf : m.diagram.Live f) :
    m.cubeVars f = (m.diagram.tree f).spine.map (m.order.varAt.getD · 0) ∧
      ∀ j ∈ (m.diagram.tree f).spine, j < m.varNum :=
  hm.highVars_eq hf.under (by rw [depth]; lia)

theorem Sound.spine_pairwise (hm : m.Sound) (hf : m.diagram.Live f) :
    (m.diagram.tree f).spine.Pairwise (· < ·) :=
  (hm.reduced.tree_proper hf.under).spine_pairwise.1

theorem Sound.mem_cubeVars (hm : m.Sound) (hf : m.diagram.Live f) :
    v ∈ m.cubeVars f ↔ ∃ l ∈ (m.diagram.tree f).spine, m.order.levelOf[v]? = some l := by
  obtain ⟨hvars, hlt⟩ := hm.cubeVars_eq hf
  rw [hvars, List.mem_map]
  refine exists_congr fun l => and_congr_right fun hl => ?_
  obtain ⟨w, hw, hget, hof, -⟩ := hm.order.getD_varAt (hlt l hl)
  rw [hget]
  refine ⟨fun h => h ▸ hof, fun h => ?_⟩
  exact Option.some.inj (hw.symm.trans (hm.order.varAt_levelOf h))

theorem Sound.nodup_cubeVars (hm : m.Sound) (hf : m.diagram.Live f) : (m.cubeVars f).Nodup := by
  obtain ⟨hvars, hlt⟩ := hm.cubeVars_eq hf
  rw [hvars]
  refine (List.nodup_map_iff_inj_on ((hm.spine_pairwise hf).imp Nat.ne_of_lt)).mpr
    fun i hi j hj heq => ?_
  obtain ⟨v, -, hv, hi, -⟩ := hm.order.getD_varAt (hlt i hi)
  obtain ⟨w, -, hw, hj, -⟩ := hm.order.getD_varAt (hlt j hj)
  obtain rfl : v = w := hv.symm.trans (heq.trans hw)
  exact Option.some.inj (hi.symm.trans hj)

/-- In one order, nodes that mean the same have the same tree. -/
theorem Sound.tree_eq_of_meaning (hm : m.Sound) (hm' : m'.Sound) (ho : m'.order = m.order)
    {g : NodeId} (hf : m.diagram.Live f) (hg : m'.diagram.Live g)
    (h : m'.meaning g = m.meaning f) : m'.diagram.tree g = m.diagram.tree f := by
  refine Tree.eq_of_eval (hm'.reduced.tree_proper hg.under) (hm.reduced.tree_proper hf.under)
    fun x => ?_
  rw [hm.eval_tree hf, hm'.eval_tree hg, ho, h]

/-- A node that means a conjunction of variables has known ones there, since it does not depend on any
others. -/
theorem Sound.known_of_meaning (hm : m.Sound) (hf : m.diagram.Live f)
    (h : ∀ a, m.meaning f a = true ↔ ∀ v ∈ vars, a v = true) : ∀ v ∈ vars, v < m.varNum := by
  intro v hv
  by_contra hlt
  have hall := (h fun _ => true).mpr fun _ _ => rfl
  rw [hm.meaning_congr hf (c := Function.update (fun _ => true) v false) fun w hw => ?_, h] at hall
  · have hfalse := hall v hv
    rw [Function.update_self] at hfalse
    cases hfalse
  · rw [Function.update_of_ne (by lia)]

/-- The variables of a positive cube are those that it is the conjunction of, whatever the order. -/
theorem Sound.mem_cubeVars_iff (hm : m.Sound) (hf : m.diagram.Live f)
    (h : ∀ a, m.meaning f a = true ↔ ∀ v ∈ vars, a v = true) : v ∈ m.cubeVars f ↔ v ∈ vars := by
  have known := hm.known_of_meaning hf h
  have heval : ∀ x : Level → Bool, (m.diagram.tree f).eval x = true ↔
      ∀ j, (∃ w ∈ vars, m.order.levelOf[w]? = some j) → x j = true := fun x => by
    rw [hm.eval_tree hf, h]
    constructor
    · rintro hall j ⟨w, hw, hj⟩
      have hlevel := hall w hw
      rwa [Array.getD_eq_getD_getElem?, hj, Option.getD_some] at hlevel
    · intro hall w hw
      obtain ⟨l, hl, hget, -⟩ := hm.order.getD_levelOf (known w hw)
      rw [hget]
      exact hall l ⟨w, hw, hl⟩
  rw [hm.mem_cubeVars hf]
  simp only [(hm.reduced.tree_proper hf.under).mem_spine heval]
  constructor
  · rintro ⟨l, ⟨w, hw, hl⟩, hv⟩
    have heq := (hm.order.varAt_levelOf hl).symm.trans (hm.order.varAt_levelOf hv)
    exact Option.some.inj heq ▸ hw
  · intro hv
    obtain ⟨l, hl, -⟩ := hm.order.getD_levelOf (known v hv)
    exact ⟨l, ⟨v, hv, hl⟩, hl⟩

theorem Conjoins.of_meaning (hm : m.Sound) (hf : m.diagram.Live f)
    (h : ∀ a, m.meaning f a = true ↔ ∀ v ∈ vars, a v = true) : m.Conjoins f vars where
  known := hm.known_of_meaning hf h
  eval assignment ha := by
    rw [hm.eval_eq hf ha]
    refine congrArg _ (Bool.eq_iff_iff.mpr ?_)
    rw [h, List.all_eq_true]

theorem Conjoins.meaning (h : m.Conjoins f vars) (hm : m.Sound) (hf : m.diagram.Live f)
    (a : Var → Bool) : m.meaning f a = true ↔ ∀ v ∈ vars, a v = true := by
  obtain ⟨assignment, hsize, hvaluation⟩ := exists_valuation m.varNum a
  have hvalue := h.eval assignment hsize.ge
  rw [hm.eval_eq hf hsize.ge, hm.meaning_congr hf hvaluation] at hvalue
  rw [Except.ok.inj hvalue, List.all_eq_true]
  exact forall₂_congr fun v hv => by rw [hvaluation v (h.known v hv)]

/-- Positive cubes that mean the same have the same variables, whatever the orders are. -/
theorem Conjoins.cubeVars_perm (h : m.Conjoins f vars) (hm : m.Sound) (hm' : m'.Sound) {g : NodeId}
    (hf : m.diagram.Live f) (hg : m'.diagram.Live g) (heq : m'.meaning g = m.meaning f) :
    (m'.cubeVars g).Perm (m.cubeVars f) := by
  refine (List.perm_ext_iff_of_nodup (hm'.nodup_cubeVars hg) (hm.nodup_cubeVars hf)).mpr fun v => ?_
  rw [hm.mem_cubeVars_iff hf (h.meaning hm hf), hm'.mem_cubeVars_iff hg (heq ▸ h.meaning hm hf)]

/-- In one order, nodes that mean the same have the same variables. -/
theorem Sound.cubeVars_eq_of_meaning (hm : m.Sound) (hm' : m'.Sound) (ho : m'.order = m.order)
    {g : NodeId} (hf : m.diagram.Live f) (hg : m'.diagram.Live g)
    (h : m'.meaning g = m.meaning f) : m'.cubeVars g = m.cubeVars f := by
  rw [(hm.cubeVars_eq hf).1, (hm'.cubeVars_eq hg).1, hm.tree_eq_of_meaning hm' ho hf hg h, ho]

/-- Joining the values of a function of the levels is joining those of a function of the variables
there. -/
theorem Sound.across_map (hm : m.Sound) (op : Connective) {G : (Level → Bool) → Bool}
    {F : (Var → Bool) → Bool}
    (hGF : ∀ x a, (∀ w l, m.order.levelOf[w]? = some l → x l = a w) → G x = F a) {ks : List Level}
    (hks : ∀ j ∈ ks, j < m.varNum) {x : Level → Bool}
    (h : ∀ w l, m.order.levelOf[w]? = some l → x l = a w) :
    op.across G ks x = op.across F (ks.map (m.order.varAt.getD · 0)) a := by
  induction ks generalizing x a with
  | nil => exact hGF x a h
  | cons j js ih =>
    obtain ⟨hj, hjs⟩ := List.forall_mem_cons.mp hks
    obtain ⟨v, -, hget, hl, -⟩ := hm.order.getD_varAt hj
    rw [List.map_cons, hget, Connective.across, Connective.across, ih hjs (hm.update_agrees hl h false),
      ih hjs (hm.update_agrees hl h true)]

end Manager

/-! ### Values joined over all ways to set some variables -/

/-- The value that a quantifier gives to a list of values. -/
def Quantifier.join : Quantifier → List Bool → Bool
  | exist, bs => bs.any id
  | .forall, bs => bs.all id
  | unique, bs => bs.foldr (· != ·) false

theorem Quantifier.join_singleton (q : Quantifier) (b : Bool) : q.join [b] = b := by
  cases q <;> cases b <;> rfl

theorem Quantifier.join_append (q : Quantifier) (bs cs : List Bool) :
    q.join (bs ++ cs) = q.connective.eval (q.join bs) (q.join cs) := by
  cases q
  · exact List.any_append
  · exact List.all_append
  · induction bs with
    | nil => exact (Bool.false_xor _).symm
    | cons b bs ih => exact (congrArg (b != ·) ih).trans (Bool.xor_assoc b _ _).symm

namespace Manager

variable {m m' : Manager} {q : Quantifier} {f cube : NodeId} {vars : List Var}
  {assignment : Array Bool}

/-- All assignments that the variables in a list can be set to, while the others stay as they are. -/
def reassign : List Var → Array Bool → List (Array Bool)
  | [], assignment => [assignment]
  | v :: vars, assignment =>
    reassign vars (assignment.setIfInBounds v false) ++
      reassign vars (assignment.setIfInBounds v true)

theorem mem_reassign {b : Array Bool} :
    b ∈ reassign vars assignment ↔
      b.size = assignment.size ∧ ∀ v, v ∉ vars → b[v]? = assignment[v]? := by
  induction vars generalizing assignment with
  | nil =>
    rw [reassign, List.mem_singleton]
    exact ⟨fun h => h ▸ ⟨rfl, fun _ _ => rfl⟩, fun h => Array.ext_getElem? fun v => h.2 v (by simp)⟩
  | cons v vars ih =>
    have hcons : b ∈ reassign (v :: vars) assignment ↔
        ∃ c, b ∈ reassign vars (assignment.setIfInBounds v c) := by
      rw [reassign, List.mem_append, Bool.exists_bool]
    simp only [hcons, ih, Array.size_setIfInBounds]
    constructor
    · rintro ⟨c, hsize, h⟩
      refine ⟨hsize, fun w hw => ?_⟩
      obtain ⟨hwv, hw⟩ := not_or.mp (mt List.mem_cons.mpr hw)
      rw [h w hw, Array.getElem?_setIfInBounds_ne (Ne.symm hwv)]
    · rintro ⟨hsize, h⟩
      -- The value to assign to `v` is the one that `b` has.
      refine ⟨valuation b v, hsize, fun w hw => ?_⟩
      by_cases hwv : w = v
      · subst hwv
        rw [Array.getElem?_setIfInBounds, if_pos rfl, valuation, Array.getD_eq_getD_getElem?, ← hsize]
        split
        · rename_i hlt
          rw [Array.getElem?_eq_getElem hlt]
          rfl
        · rename_i hlt
          exact Array.getElem?_eq_none (Nat.le_of_not_lt hlt)
      · rw [h w (by simp [hwv, hw]), Array.getElem?_setIfInBounds_ne (Ne.symm hwv)]

theorem across_valuation (q : Quantifier) (F : (Var → Bool) → Bool)
    (hvars : ∀ v ∈ vars, v < assignment.size) :
    q.connective.across F vars (valuation assignment) =
      q.join ((reassign vars assignment).map fun b => F (valuation b)) := by
  induction vars generalizing assignment with
  | nil => exact (q.join_singleton _).symm
  | cons v vars ih =>
    obtain ⟨hv, hvars⟩ := List.forall_mem_cons.mp hvars
    rw [Connective.across, ← valuation_set hv, ← valuation_set hv, ih (by simpa using hvars),
      ih (by simpa using hvars), reassign, List.map_append, q.join_append]

/-- At each assignment the result has the value that the quantifier gives to those which the operand has
in `m` when the variables are set in all ways. -/
def Quantifies (m : Manager) (q : Quantifier) (f : NodeId) (vars : List Var) (res : NodeId)
    (m' : Manager) : Prop :=
  ∀ assignment : Array Bool, m'.varNum ≤ assignment.size → ∃ value : Array Bool → Bool,
    (∀ b ∈ reassign vars assignment, m.eval f b = .ok (value b)) ∧
    m'.eval res assignment = .ok (q.join ((reassign vars assignment).map value))

theorem Quantifies.of_meaning (hm : m.Sound) (hm' : m'.Sound) {res : NodeId} (hf : m.diagram.Live f)
    (hres : m'.diagram.Live res) (hvar : m.varNum ≤ m'.varNum) (hvars : ∀ v ∈ vars, v < m'.varNum)
    (h : m'.meaning res = q.connective.across (m.meaning f) vars) : m.Quantifies q f vars res m' := by
  intro assignment ha
  refine ⟨fun b => m.meaning f (valuation b), fun b hb => hm.eval_eq hf ?_, ?_⟩
  · rw [(mem_reassign.mp hb).1]
    exact Nat.le_trans hvar ha
  · rw [hm'.eval_eq hres ha, h, across_valuation q _ fun v hv => Nat.lt_of_lt_of_le (hvars v hv) ha]

end Manager

/-! ### The requests -/

namespace Request

open Program Manager

variable {m : Manager} {q : Quantifier} {f cube : NodeId} {vars : List Var}

/-- What the answer of a quantifier has to mean.  The cube goes on to mean the same. -/
theorem meets_quantify (hm : m.Ready) :
    (quantify q f cube).Meets (fun res m' => m.diagram.Live f ∧ m.diagram.Live cube ∧
      m'.diagram.Live cube ∧ m'.meaning cube = m.meaning cube ∧
      m'.meaning res = q.connective.across (m.meaning f) (m'.cubeVars cube)) m := by
  unfold quantify
  split
  · rename_i ht
    intro hcheck
    have hvars : m.cubeVars cube = [] := highVars_terminal ht m.depth
    exact ⟨checkNode_ok hm hcheck, checkNode_ok hm hcheck, .inl ht, .inl ht, rfl, by rw [hvars]; rfl⟩
  · refine meets_yields hm fun _ hlive e he _ hk hsame => ?_
    have hf := hk f (by simp)
    have hcube := hk cube (by simp)
    refine ⟨_, .depth he (.quantifyCube q he hf hcube), fun res m' hev hm' htree => ?_⟩
    obtain ⟨hcube', hmeaning⟩ := hev.meaning he hm' hcube
    refine ⟨hlive f (by simp), hlive cube (by simp), hcube', hmeaning.trans (hsame cube (by simp)),
      funext fun a => ?_⟩
    rw [meaning, htree, ((he.operand hf).proper he).eval_quantifyCube ((he.operand hcube).proper he),
      hev.order, he.across_map _ (fun x a h => he.eval_eq_meaning (he.kept_live hf) h)
        (he.cubeVars_eq (he.kept_live hcube)).2 (he.getD_agrees a), hsame f (by simp),
      (hm'.cubeVars_eq hcube').1, he.tree hm' hev hcube, hev.order]

/-- The answer of `makeSet` is the conjunction of the variables. -/
theorem meets_makeSet (hm : m.Ready) :
    (makeSet vars).Meets (fun res m' => ∀ a, m'.meaning res a = true ↔ ∀ v ∈ vars, a v = true) m := by
  refine meets_meaning hm fun hcheck _ e he hp hretains _ _ => ?_
  have hvars := fun v hv => Nat.lt_of_lt_of_le (checkVars_ok hcheck v hv) hretains.varNum
  refine (ensures_makeSet he hp hvars).mono fun res m' _ _ ⟨hlive, heval⟩ =>
    ⟨hlive, fun hev _ a => ?_⟩
  rw [meaning, hev.order, heval]
  refine forall₂_congr fun v hv => ?_
  obtain ⟨l, hl, -⟩ := he.order.getD_levelOf (hvars v hv)
  constructor
  · intro h
    rw [← he.getD_agrees a v l hl]
    exact h l hl
  · intro h k hk
    rwa [he.getD_agrees a v k hk]

end Request

/-! ### Sets are refused for want of room only -/

/-- The step reports no error but that there is no room. -/
def Step.Starves (s : Step) : Prop :=
  ∀ (bound : Nat) (m m' : Manager) (e : Error), m.Coherent bound →
    s.exec m = .error (.error e) m' → e = .nodeLimit

theorem Step.starves_mk (level : Level) (low high : NodeId) : (mk level low high).Starves := by
  intro bound m m' e hm h
  rcases Build.mk_error hm h with hi | hi | ⟨hi, -⟩
  · cases hi
  · cases hi
    rfl
  · cases hi

theorem Step.starves_levelOf (v : Var) : (levelOf v).Starves := by
  intro bound m m' e _ h
  simp only [exec, Build.read, Manager.levelOf] at h
  rcases hl : m.order.levelOf[v]? with _ | l
  · simp only [hl] at h
    cases h
  · simp only [hl] at h
    cases h

namespace Program

theorem starves_cubeOfLevels (levels : List Level) (res : NodeId) :
    (cubeOfLevels levels res).Only Step.Starves := by
  induction levels generalizing res with
  | nil => trivial
  | cons level levels ih =>
    exact ⟨Step.starves_mk _ _ _, fun res => ⟨fun _ _ _ _ _ h => (by cases h), fun _ => ih res⟩⟩

theorem starves_levelsOf (vars : List Var) : (levelsOf vars).Only Step.Starves := by
  induction vars with
  | nil => trivial
  | cons v vars ih => exact ⟨Step.starves_levelOf v, fun _ => ⟨ih, fun _ => trivial⟩⟩

end Program

namespace Manager

variable {m : Manager} {vars : List Var}

theorem checkVars_eq (h : ∀ v ∈ vars, v < m.varNum) : m.checkVars vars = .ok () := by
  induction vars with
  | nil => rfl
  | cons v vars ih =>
    obtain ⟨hv, hvars⟩ := List.forall_mem_cons.mp h
    have hcheck : m.checkVar v = .ok () := if_pos hv
    rw [checkVars, hcheck]
    exact ih hvars

/-- The set of known variables has an answer, unless there is no room for it. -/
theorem makeSet_error (hm : m.Ready) (h : ∀ v ∈ vars, v < m.varNum) :
    Action.Ensures m (Manager.call (.makeSet vars)) (fun _ _ => True) fun e _ => e = .nodeLimit := by
  refine (Action.Ensures.call_error (checkVars_eq h) rfl rfl).mono (fun _ _ h => h) ?_
  rintro e - ⟨hattempt, hrun, -⟩
  obtain ⟨s, rest, m₃, hat, hexec⟩ := Program.exists_of_run_error hrun
  have honly : (do Program.cube (← Program.levelsOf vars)).Only Step.Starves :=
    ⟨Program.starves_levelsOf vars, fun _ => Program.starves_cubeOfLevels _ _⟩
  have hensures := (hattempt.ensures hm ((Request.Delivers.makeSet vars).fulfilled m hm)).2
  exact honly.at hat _ _ _ _ (hensures.at hat).2.1 hexec

/-! ### Answers -/

/-- Quantification is right.  Whichever node stands for the set of variables, the result has at each
assignment the disjunction, the conjunction or the exclusive disjunction of the values that the operand
has when these variables are set in all ways.  They are read along the high children in the order that
the call ends with.  If that is the order it began with, or the node is a terminal or a positive cube, they
are those from before the call.  The set of some known variables is the positive cube of exactly these, and only
for want of room there is none. -/
theorem Settled.quantification (hm : m.Settled) :
    (∀ q f cube answer m', (Command.quantify q f cube).run m = (.ok answer, m') →
      ∃ res, answer = .node res ∧ m'.store.isLive res = true ∧ (m'.cubeVars cube).Nodup ∧
        m.Quantifies q f (m'.cubeVars cube) res m' ∧
        (m'.order.toList = m.order.toList ∨ cube.isTerminal = true ∨ (∃ vars, m.Conjoins cube vars) →
          (m'.cubeVars cube).Perm (m.cubeVars cube) ∧
          m.Quantifies q f (m.cubeVars cube) res m')) ∧
    ∀ vars : List Var, (∀ v ∈ vars, v < m.varNum) →
      ((Command.makeSet vars).run m).1 = .error (.error .nodeLimit) ∨
      ∃ res m', (Command.makeSet vars).run m = (.ok (.node res), m') ∧
        m'.store.isLive res = true ∧ m'.Conjoins res vars ∧ ∀ v, v ∈ m'.cubeVars res ↔ v ∈ vars := by
  have hready := hm.ready
  have hsound := hready.toSound
  refine ⟨fun q f cube answer m' h => ?_, fun vars hvars => ?_⟩
  · obtain ⟨res, hanswer, hcompletes, -, hlive, hf, hcube, hcube', hsame, hmeaning⟩ :=
      Command.answered hready (c := .quantify q f cube) rfl
        (fun h _ _ _ => (cubeVars_unkept _ cube _ _ _).symm ▸ h) (Request.meets_quantify hready) h
    have hsound' := hcompletes.ready.toSound
    have hvar := hcompletes.retains.varNum
    have hlt : ∀ v ∈ m'.cubeVars cube, v < m'.varNum := fun v hv => by
      obtain ⟨l, -, hl⟩ := (hsound'.mem_cubeVars hcube').mp hv
      exact hsound'.order.mem_toList.mp
        (VarOrder.mem_toList_iff.mpr ⟨l, hsound'.order.varAt_levelOf hl⟩)
    refine ⟨res, hanswer, hsound'.store.live_iff.mp hlive, hsound'.nodup_cubeVars hcube',
      .of_meaning hsound hsound' hf hlive hvar hlt hmeaning, fun hkept => ?_⟩
    have hperm : (m'.cubeVars cube).Perm (m.cubeVars cube) := by
      rcases hkept with ho | ht | ⟨vars, hvars⟩
      · have ho := hsound.order.eq_of_toList hsound'.order ho
        rw [hsound.cubeVars_eq_of_meaning hsound' ho hcube hcube' hsame]
      · rw [cubeVars, cubeVars, highVars_terminal ht, highVars_terminal ht]
      · exact hvars.cubeVars_perm hsound hsound' hcube hcube' hsame
    refine ⟨hperm, .of_meaning hsound hsound' hf hlive hvar
      (fun v hv => hlt v (hperm.mem_iff.mpr hv)) ?_⟩
    rw [hmeaning]
    exact funext fun a => Connective.across_perm hperm q _ a
  · have hfault := Command.run_ne_fault (c := .makeSet vars) hready hm.reachable.nested
      ⟨nofun, nofun⟩
    rcases hrun : (Command.makeSet vars).run m with ⟨⟨e | _⟩ | answer, m'⟩
    · have he : ((Command.makeSet vars).run m).1 = .error (.error e) := by rw [hrun]
      obtain rfl := Command.of_call_error (c := .makeSet vars) rfl (makeSet_error hready hvars) he
      exact .inl rfl
    · exact absurd (congrArg Prod.fst hrun) hfault
    · obtain ⟨res, rfl, hcompletes, -, hlive, hmeaning⟩ := Command.answered hready
        (c := .makeSet vars) rfl (fun h _ _ _ => h) (Request.meets_makeSet hready) hrun
      have hsound' := hcompletes.ready.toSound
      have hconjoins : m'.Conjoins res vars :=
        ⟨fun v hv => Nat.lt_of_lt_of_le (hvars v hv) hcompletes.retains.varNum, fun assignment ha => by
          rw [hsound'.eval_eq hlive ha]
          refine congrArg _ (Bool.eq_iff_iff.mpr ?_)
          rw [hmeaning, List.all_eq_true]⟩
      exact .inr ⟨res, m', rfl, hsound'.store.live_iff.mp hlive, hconjoins, fun v =>
        hsound'.mem_cubeVars_iff hlive hmeaning⟩

/-- A set with a variable that is given twice, and one that is quantified in another order. -/
theorem quantification_sets :
    ∃ m m' m'', after (.small 16 64) [.setVarNum 3, .swapVar 0 1, .apply .and 2 4, .apply .imp 8 6,
        .protect 10, .makeSet [2, 1, 2]] = some m ∧ m.order.toList = [1, 0, 2] ∧
      m.cubeVars 11 = [1, 2] ∧ (Command.quantify .unique 10 11).run m = (.ok (.node 2), m') ∧
      m.Quantifies .unique 10 [1, 2] 2 m' ∧
      (Command.makeSet [2, 0, 2]).run m = (.ok (.node 12), m'') ∧ m''.Conjoins 12 [2, 0, 2] := by
  have hrun : (after (.small 16 64) [.setVarNum 3, .swapVar 0 1, .apply .and 2 4, .apply .imp 8 6,
      .protect 10, .makeSet [2, 1, 2]]).any fun m =>
        m.varNum == 3 && m.order.toList == [1, 0, 2] && m.cubeVars 11 == [1, 2] &&
        (Command.quantify .unique 10 11).node? m == some 2 &&
        ((Command.quantify .unique 10 11).run m).2.order.toList == [1, 0, 2] &&
        (Command.makeSet [2, 0, 2]).node? m == some 12 := by
    decide +kernel
  obtain ⟨m, hm, hfacts⟩ := (Option.any_eq_true _ _).mp hrun
  simp only [Bool.and_eq_true, beq_iff_eq] at hfacts
  obtain ⟨⟨⟨⟨⟨hvar, horder⟩, hvars⟩, hnode⟩, horder'⟩, hset⟩ := hfacts
  obtain ⟨hquantify, hsets⟩ := (settled_after hm).quantification
  have hrun' : (Command.quantify .unique 10 11).run m = (.ok (.node 2), _) :=
    Prod.ext (Command.run_of_node? hnode) rfl
  obtain ⟨res, hres, -, -, -, hkept⟩ := hquantify _ _ _ _ _ hrun'
  obtain rfl : 2 = res := Answer.node.inj hres
  obtain ⟨-, hquantifies⟩ := hkept (.inl (horder'.trans horder.symm))
  have hknown : ∀ v ∈ [2, 0, 2], v < m.varNum := by
    rw [hvar]
    decide
  have hset := Command.run_of_node? hset
  rcases hsets [2, 0, 2] hknown with hlimit | ⟨res, m'', hset', -, hconjoins, -⟩
  · rw [hset] at hlimit
    cases hlimit
  · obtain rfl : 12 = res :=
      Answer.node.inj (Except.ok.inj (hset.symm.trans (congrArg Prod.fst hset')))
    exact ⟨m, _, m'', hm, horder, hvars, hrun', hvars ▸ hquantifies, hset', hconjoins⟩

/-- The set is not a positive cube, and its variables are read after a reordering within the call.  With
those from before, both values of the operand would be true and the result false. -/
theorem quantification_reread :
    ∃ m m', after (.small 10 64) [.setVarNum 3, .apply .imp 7 4, .protect 8, .apply .and 8 2,
        .protect 9, .setAutoReorder .win2 none] = some m ∧ m.store.isLive 9 = true ∧
      m.store.isLive 8 = true ∧ (Command.quantify .unique 9 8).run m = (.ok (.node 10), m') ∧
      m.cubeVars 8 = [1] ∧ m'.cubeVars 8 = [2] ∧ ¬ m.Quantifies .unique 9 (m.cubeVars 8) 10 m' := by
  have hrun : (after (.small 10 64) [.setVarNum 3, .apply .imp 7 4, .protect 8, .apply .and 8 2,
      .protect 9, .setAutoReorder .win2 none]).any fun m =>
        let m' := ((Command.quantify .unique 9 8).run m).2
        m.store.isLive 9 && m.store.isLive 8 && (Command.quantify .unique 9 8).node? m == some 10 &&
        m.cubeVars 8 == [1] && m'.cubeVars 8 == [2] && m'.varNum == 3 &&
        (m.eval 9 #[true, false, true]).toOption == some true &&
        (m.eval 9 #[true, true, true]).toOption == some true &&
        (m'.eval 10 #[true, false, true]).toOption == some true := by
    decide +kernel
  obtain ⟨m, hm, hfacts⟩ := (Option.any_eq_true _ _).mp hrun
  simp only [Bool.and_eq_true, beq_iff_eq] at hfacts
  obtain ⟨⟨⟨⟨⟨⟨⟨⟨hf, hcube⟩, hnode⟩, hvars⟩, hvars'⟩, hvar⟩, hzero⟩, hone⟩, hres⟩ := hfacts
  refine ⟨m, _, hm, hf, hcube, Prod.ext (Command.run_of_node? hnode) rfl, hvars, hvars',
    fun hquantifies => ?_⟩
  rw [hvars] at hquantifies
  obtain ⟨value, hvalue, heval⟩ := hquantifies #[true, false, true] (Nat.le_of_eq hvar)
  have hways : reassign [1] #[true, false, true] = [#[true, false, true], #[true, true, true]] := by
    decide
  rw [hways] at hvalue heval
  rw [hvalue _ (by simp)] at hzero hone
  rw [heval] at hres
  have hjoin := Option.some.inj hres
  rw [List.map_cons, List.map_singleton, Option.some.inj hzero, Option.some.inj hone] at hjoin
  exact absurd hjoin (by decide)

end Manager

end DecisionDiagram
