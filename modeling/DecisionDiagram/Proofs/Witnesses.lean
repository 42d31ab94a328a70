/-
The witnesses of a node are right.

They are built along the preferred path, which goes high only where the low child is false.  No
reordering interrupts them, so the path and the set are those from before the call.

* `Manager.Satisfiable`, `Manager.Implies` — a node holds for some assignment, and it holds only where
  another one does;
* `Manager.fixedWith` — the literals along the path, and those of variables that it leaves open;
* `Request.Delivers.meets_still` — what is kept through a call that no reordering interrupts;
* `Manager.Sound.conjoins_fixedWith`, `Manager.Sound.least_model` — what the trees of witnesses mean;
* `Manager.Settled.witnesses` — the answers of every call.
-/
import DecisionDiagram.Proofs.Paths
import DecisionDiagram.Proofs.Restriction
import DecisionDiagram.Proofs.Tree.Preference

namespace DecisionDiagram

namespace Request

/-- If the call has a program to run, then no reordering interrupts it, and it keeps the nodes meanwhile. -/
def Holds (r : Request) (fs : List NodeId) : Prop :=
  ∀ operands p exclusive, r.task = .perform operands p exclusive →
    exclusive = true ∧ ∀ x ∈ fs, x ∈ operands

theorem holds_answer {check : Manager → Except Failure Unit} {f : NodeId} {fs : List NodeId} :
    Holds ⟨check, .answer f⟩ fs := nofun

theorem holds_exclusive {check : Manager → Except Failure Unit} {operands : List NodeId}
    {p : Nat → Program NodeId} : (exclusive check operands p).Holds operands := by
  intro _ _ _ h
  obtain ⟨rfl, -, rfl⟩ := Task.perform.inj h
  exact ⟨rfl, fun _ hx => hx⟩

theorem holds_satOne (f : NodeId) : (satOne f).Holds [f] := by
  unfold satOne
  split
  · exact holds_answer
  · exact holds_exclusive

theorem holds_satOneSet (f cube : NodeId) (p : Bool) : (satOneSet f cube p).Holds [f, cube] := by
  unfold satOneSet
  dsimp only
  split
  · exact holds_answer
  · exact holds_exclusive

theorem holds_fullSatOne (f : NodeId) : (fullSatOne f).Holds [f] := by
  unfold fullSatOne
  split
  · exact holds_answer
  · exact holds_exclusive

/-- A call that no reordering interrupts leaves the order as it is, and the nodes that it keeps stand for
the same trees. -/
theorem Delivers.meets_still {r : Request} {P : Manager → Tree → Prop} (h : r.Delivers P)
    {m : Manager} (hm : m.Ready) {fs : List NodeId} (hholds : r.Holds fs) :
    r.Meets (fun res m' => m'.order = m.order ∧
      (∀ x ∈ fs, m'.diagram.tree x = m.diagram.tree x) ∧ P m' (m'.diagram.tree res)) m := by
  intro hcheck
  have hr := h m hm hcheck
  rcases htask : r.task with f | ⟨operands, p, exclusive⟩
  · rw [htask] at hr
    exact ⟨hr.1, rfl, fun _ _ => rfl, hr.2⟩
  · obtain ⟨rfl, hkept⟩ := hholds _ _ _ htask
    rw [htask] at hr
    intro ho m' hc he
    have hworks := hr ho m' hc he
    obtain ⟨auto, rfl⟩ := he rfl
    have hsound := hc.ready.toSound.equip (hc.live hm ho)
    refine hworks.mono fun res m' hev hcoherent ⟨hlive, hP⟩ => ⟨hlive, hev.order, fun x hx => ?_, hP⟩
    exact hsound.tree (hsound.evolves hev hcoherent) hev (Manager.kept_equip (hkept x hx))

end Request

namespace Manager

variable {m m' : Manager} {f cube res : NodeId} {v : Var} {b p : Bool} {vars : List Var}
  {lits : List (Var × Bool)} {assignment : Array Bool} {ks : List Level}

/-! ### Satisfiable nodes -/

/-- Some assignment satisfies the node. -/
def Satisfiable (m : Manager) (f : NodeId) : Prop :=
  ∃ assignment : Array Bool, m.varNum ≤ assignment.size ∧ m.eval f assignment = .ok true

/-- The node `res` of `m'` holds only where `f` does in `m`. -/
def Implies (m' : Manager) (res : NodeId) (m : Manager) (f : NodeId) : Prop :=
  ∀ assignment : Array Bool, m'.varNum ≤ assignment.size → m'.eval res assignment = .ok true →
    m.eval f assignment = .ok true

theorem Sound.satisfiable_of_eval (hm : m.Sound) (hf : m.diagram.Live f) {x : Level → Bool}
    (hx : (m.diagram.tree f).eval x = true) : m.Satisfiable f := by
  obtain ⟨assignment, hsize, hvalues⟩ :=
    exists_valuation m.varNum fun w => x (m.order.levelOf.getD w 0)
  refine ⟨assignment, hsize.ge, ?_⟩
  rw [hm.eval_eq hf hsize.ge, hm.meaning_congr hf hvalues, ← hm.eval_tree hf, hx]

/-- The only live node that no assignment satisfies is the one for false. -/
theorem Sound.satisfiable_iff (hm : m.Sound) (hf : m.diagram.Live f) :
    m.Satisfiable f ↔ m.diagram.tree f ≠ .leaf false := by
  refine ⟨fun ⟨assignment, hsize, heval⟩ hleaf => ?_, fun hne => ?_⟩
  · rw [hm.eval_eq hf hsize, meaning, hleaf] at heval
    cases heval
  · exact hm.satisfiable_of_eval hf
      ((hm.reduced.tree_proper hf.under).eval_fixing hne fun _ => false)

/-! ### Literals along the preferred path -/

theorem Sound.mem_literalsFrom (hm : m.Sound) {k bound : Nat} (hf : m.diagram.Under id k f)
    (hbound : m.varNum ≤ bound + k) : (v, b) ∈ m.literalsFrom bound f ↔
      ∃ l, m.order.levelOf[v]? = some l ∧ (m.diagram.tree f).fixes l = some b := by
  induction bound generalizing f k with
  | zero =>
    rw [hm.reduced.tree_terminal (hm.isTerminal_of_under hf (by lia))]
    simp [literalsFrom, Tree.fixes]
  | succ bound ih =>
    rcases hf with ht | ⟨r, hr, hle⟩
    · rw [hm.reduced.tree_terminal ht, literalsFrom, parts?_terminal ht]
      simp [Tree.fixes]
    obtain ⟨w, hparts, hw, -⟩ := hm.parts?_node hr
    have hle : k ≤ r.level := hle
    -- The literal of the node, and those of the child that the walk goes on with.
    have branch : ∀ (c : Bool) {child : NodeId}, m.diagram.Under id (r.level + 1) child →
        ((v, b) ∈ (w, c) :: m.literalsFrom bound child ↔ ∃ l, m.order.levelOf[v]? = some l ∧
          (if l = r.level then some c else (m.diagram.tree child).fixes l) = some b) := by
      intro c child hchild
      rw [List.mem_cons, ih hchild (by lia)]
      constructor
      · rintro (heq | ⟨l, hl, hfixes⟩)
        · obtain ⟨rfl, rfl⟩ := Prod.mk.inj heq
          exact ⟨r.level, hw, if_pos rfl⟩
        · refine ⟨l, hl, ?_⟩
          rw [if_neg, hfixes]
          rintro rfl
          rw [Tree.fixes_eq_none (hm.reduced.tree_proper hchild).not_mem_levels] at hfixes
          cases hfixes
      · rintro ⟨l, hl, hfixes⟩
        split at hfixes
        · rename_i heq
          obtain rfl : v = w := Option.some.inj ((hm.order.varAt_levelOf hl).symm.trans
            (heq ▸ hm.order.varAt_levelOf hw))
          exact .inl (congrArg (v, ·) (Option.some.inj hfixes).symm)
        · exact .inr ⟨l, hl, hfixes⟩
    have hlow : m.diagram.Under id (r.level + 1) r.low := hm.reduced.below hr false
    have hhigh : m.diagram.Under id (r.level + 1) r.high := hm.reduced.below hr true
    rw [hm.reduced.tree_node hr, literalsFrom, hparts]
    simp only [hm.isBot_iff_tree hlow.live, Tree.fixes]
    split
    · exact branch true hhigh
    · exact branch false hlow

/-- The literals of a node are those along the preferred path of its tree. -/
theorem Sound.mem_fixed (hm : m.Sound) (hf : m.diagram.Live f) :
    (v, b) ∈ m.fixed f ↔
      ∃ l, m.order.levelOf[v]? = some l ∧ (m.diagram.tree f).fixes l = some b :=
  hm.mem_literalsFrom hf.under (by rw [depth]; lia)

theorem Sound.fixed_lt (hm : m.Sound) (hf : m.diagram.Live f) (h : (v, b) ∈ m.fixed f) :
    v < m.varNum := by
  obtain ⟨l, hl, -⟩ := (hm.mem_fixed hf).mp h
  exact hm.order.mem_toList.mp (VarOrder.mem_toList_iff.mpr ⟨l, hm.order.varAt_levelOf hl⟩)

/-- A level that the path leaves open is that of a variable without a literal. -/
theorem Sound.fixes_eq_none_iff (hm : m.Sound) (hf : m.diagram.Live f) {l : Level}
    (hl : m.order.levelOf[v]? = some l) :
    (m.diagram.tree f).fixes l = none ↔ v ∉ (m.fixed f).map Prod.fst := by
  rw [Option.eq_none_iff_forall_ne_some, List.mem_map, not_exists]
  constructor
  · rintro h ⟨w, b⟩ ⟨hmem, rfl⟩
    obtain ⟨k, hk, hfixes⟩ := (hm.mem_fixed hf).mp hmem
    exact h b (Option.some.inj (hl.symm.trans hk) ▸ hfixes)
  · exact fun h b hfixes => h (v, b) ⟨(hm.mem_fixed hf).mpr ⟨l, hl, hfixes⟩, rfl⟩

/-- The levels follow the path if the variables have the literals of the node. -/
theorem Sound.follows_iff (hm : m.Sound) (hf : m.diagram.Live f) (a : Var → Bool) :
    (m.diagram.tree f).Follows (fun l => a (m.order.varAt.getD l 0)) ↔
      ∀ x ∈ m.fixed f, a x.1 = x.2 := by
  constructor
  · rintro h ⟨v, b⟩ hmem
    obtain ⟨l, hl, hfixes⟩ := (hm.mem_fixed hf).mp hmem
    exact (hm.getD_agrees a v l hl).symm.trans (h l b hfixes)
  · intro h j b hfixes
    obtain ⟨v, -, hget, hl, -⟩ := hm.order.getD_varAt ((hm.tree_between hf).of_fixes hfixes).2
    exact (congrArg a hget).trans (h (v, b) ((hm.mem_fixed hf).mpr ⟨j, hl, hfixes⟩))

/-! ### Witnesses -/

/-- The literals of a node, and the value `p` for the variables in a list that have none. -/
def fixedWith (m : Manager) (f : NodeId) (vars : List Var) (p : Bool) : List (Var × Bool) :=
  m.fixed f ++ (vars.filter fun v => !((m.fixed f).map Prod.fst).contains v).map fun v => (v, p)

theorem fixedWith_nil (m : Manager) (f : NodeId) (p : Bool) : m.fixedWith f [] p = m.fixed f :=
  List.append_nil _

theorem mem_fixedWith_of_open (hv : v ∈ vars) (hopen : v ∉ (m.fixed f).map Prod.fst) :
    (v, p) ∈ m.fixedWith f vars p :=
  List.mem_append_right _ (List.mem_map.mpr ⟨v, List.mem_filter.mpr ⟨hv, by simpa using hopen⟩, rfl⟩)

/-- Every variable in the list has a literal. -/
theorem mem_fixedWith (hv : v ∈ vars) : v ∈ (m.fixedWith f vars p).map Prod.fst := by
  by_cases hopen : v ∈ (m.fixed f).map Prod.fst
  · rw [fixedWith, List.map_append]
    exact List.mem_append_left _ hopen
  · exact List.mem_map.mpr ⟨_, mem_fixedWith_of_open hv hopen, rfl⟩

theorem ConjoinsLiterals.of_meaning (hm : m.Sound) (hf : m.diagram.Live f)
    (known : ∀ l ∈ lits, l.1 < m.varNum)
    (h : ∀ a, m.meaning f a = true ↔ ∀ l ∈ lits, a l.1 = l.2) : m.ConjoinsLiterals f lits where
  known
  eval assignment ha := by
    rw [hm.eval_eq hf ha]
    refine congrArg _ (Bool.eq_iff_iff.mpr ?_)
    simp only [h, List.all_eq_true, beq_iff_eq]

/-- A node with the tree of a witness is the conjunction of its literals. -/
theorem Sound.conjoins_fixedWith (hm : m.Sound) (hf : m.diagram.Live f) (hsat : m.Satisfiable f)
    (hm' : m'.Sound) (ho : m'.order = m.order) (hres : m'.diagram.Live res)
    (hsorted : ks.Pairwise (· < ·)) (hks : ∀ k ∈ ks, k < m.varNum)
    (htree : m'.diagram.tree res = Tree.satOneSet p (m.diagram.tree f) ks) :
    m'.ConjoinsLiterals res (m.fixedWith f (ks.map (m.order.varAt.getD · 0)) p) ∧
      m'.Satisfiable res ∧ m'.Implies res m f := by
  have hne := (hm.satisfiable_iff hf).mp hsat
  have hproper := hm.reduced.tree_proper hf.under
  have hvar : m'.varNum = m.varNum := congrArg VarOrder.size ho
  -- The answer fixes what the path fixes, and sets the free variables of the set to `p`.
  have hmeaning : ∀ a, m'.meaning res a = true ↔
      (m.diagram.tree f).Follows (fun l => a (m.order.varAt.getD l 0)) ∧
        ∀ j ∈ ks, (m.diagram.tree f).fixes j = none → a (m.order.varAt.getD j 0) = p := fun a => by
    rw [meaning, htree, ho, hproper.eval_satOneSet hne hsorted]
  refine ⟨.of_meaning hm' hres (fun x hx => ?_) fun a => ?_, ?_, fun assignment ha heval => ?_⟩
  · rw [hvar]
    rcases List.mem_append.mp hx with hx | hx
    · exact hm.fixed_lt hf hx
    · obtain ⟨v, hv, rfl⟩ := List.mem_map.mp hx
      obtain ⟨k, hk, rfl⟩ := List.mem_map.mp (List.mem_filter.mp hv).1
      obtain ⟨w, -, hget, -, hlt⟩ := hm.order.getD_varAt (hks k hk)
      exact hget ▸ hlt
  · rw [hmeaning, hm.follows_iff hf, fixedWith, List.forall_mem_append]
    refine and_congr_right fun _ => ?_
    simp only [List.forall_mem_map, List.mem_filter, and_imp]
    refine forall₂_congr fun k hk => ?_
    obtain ⟨v, -, hget, hl, -⟩ := hm.order.getD_varAt (hks k hk)
    rw [hm.fixes_eq_none_iff hf hl, hget]
    simp
  · obtain ⟨x, hx⟩ := hproper.exists_eval_satOneSet hne hsorted
    exact hm'.satisfiable_of_eval hres (htree ▸ hx)
  · rw [hm'.eval_eq hres ha, Except.ok.injEq, hmeaning] at heval
    rw [hm.eval_eq hf (hvar ▸ ha), meaning, hproper.eval_of_follows hne heval.1]

/-! ### Full witnesses -/

/-- The assignment to the known variables that has given values at their levels. -/
theorem Sound.existsUnique_assignment (hm : m.Sound) (x : Level → Bool) :
    ∃! assignment : Array Bool, assignment.size = m.varNum ∧
      ∀ j, j < m.varNum → valuation assignment (m.order.varAt.getD j 0) = x j := by
  obtain ⟨model, hsize, hvalues⟩ := exists_valuation m.varNum fun v => x (m.order.levelOf.getD v 0)
  have hmodel : ∀ j, j < m.varNum → valuation model (m.order.varAt.getD j 0) = x j := by
    intro j hj
    obtain ⟨v, -, hget, hl, hlt⟩ := hm.order.getD_varAt hj
    rw [hget, hvalues v hlt, Array.getD_eq_getD_getElem?, hl, Option.getD_some]
  refine ⟨model, ⟨hsize, hmodel⟩, fun assignment ⟨ha, h⟩ => Array.ext_getElem? fun v => ?_⟩
  -- A known variable has the value of its level.
  by_cases hv : v < m.varNum
  · obtain ⟨l, hl, -, hat, hlt⟩ := hm.order.getD_levelOf hv
    have hget : m.order.varAt.getD l 0 = v := by
      rw [Array.getD_eq_getD_getElem?, hat, Option.getD_some]
    have hsame := (h l hlt).trans (hmodel l hlt).symm
    rw [hget] at hsame
    rw [getElem?_eq_valuation (ha ▸ hv), getElem?_eq_valuation (hsize ▸ hv), hsame]
  · rw [Array.getElem?_eq_none (by lia), Array.getElem?_eq_none (by lia)]

/-- Total assignments in lexicographic order, read off their values at the levels. -/
theorem Sound.precedes_of_levels (hm : m.Sound) {model : Array Bool} {k : Level}
    (hsize : model.size = m.varNum) (ha : assignment.size = m.varNum) (hk : k < m.varNum)
    (hfalse : valuation model (m.order.varAt.getD k 0) = false)
    (htrue : valuation assignment (m.order.varAt.getD k 0) = true)
    (hbefore : ∀ j, j < k → valuation model (m.order.varAt.getD j 0) =
      valuation assignment (m.order.varAt.getD j 0)) :
    m.Precedes (model.map some) (assignment.map some) := by
  have value : ∀ {a : Array Bool} {l : Level} {w : Var}, a.size = m.varNum → l < m.varNum →
      m.order.varAt[l]? = some w →
        (a.map some)[w]? = some (some (valuation a (m.order.varAt.getD l 0))) := by
    intro a l w ha hl hw
    obtain ⟨w', hw', hget, -, hlt⟩ := hm.order.getD_varAt hl
    obtain rfl := Option.some.inj (hw.symm.trans hw')
    rw [Array.getElem?_map, getElem?_eq_valuation (ha ▸ hlt), hget]
    rfl
  obtain ⟨v, hv, -⟩ := hm.order.getD_varAt hk
  refine ⟨k, v, hv, ?_, ?_, fun j w hj hw => ?_⟩
  · rw [value hsize hk hv, hfalse]
  · rw [value ha hk hv, htrue]
  · have hlt := Nat.lt_trans hj hk
    rw [value hsize hlt hw, value ha hlt hw, hbefore j hj]

/-- A node with the tree of a full witness holds for one assignment, which is the least one that
satisfies the operand. -/
theorem Sound.least_model (hm : m.Sound) (hf : m.diagram.Live f) (hsat : m.Satisfiable f)
    (hm' : m'.Sound) (ho : m'.order = m.order) (hres : m'.diagram.Live res)
    (htree : m'.diagram.tree res = ((m.diagram.tree f).fullSatOne m.varNum).fill 0
      ((m.diagram.tree f).levelOr m.varNum)) :
    ∃ model : Array Bool, model.size = m.varNum ∧ m.eval f model = .ok true ∧
      (∀ assignment : Array Bool, assignment.size = m.varNum →
        (m'.eval res assignment = .ok true ↔ assignment = model)) ∧
      ∀ assignment : Array Bool, assignment.size = m.varNum → m.eval f assignment = .ok true →
        assignment ≠ model → m.Precedes (model.map some) (assignment.map some) := by
  have hne := (hm.satisfiable_iff hf).mp hsat
  have hbetween := hm.tree_between hf
  have hvar : m'.varNum = m.varNum := congrArg VarOrder.size ho
  obtain ⟨model, ⟨hsize, hmodel⟩, hunique⟩ :=
    hm.existsUnique_assignment ((m.diagram.tree f).fixing fun _ => false)
  refine ⟨model, hsize, ?_, fun assignment ha => ?_, fun assignment ha heval hother => ?_⟩
  · rw [hm.eval_eq hf hsize.ge, meaning, hm.eval_congr_levels hf hmodel, hbetween.proper.eval_fixing hne]
  · rw [hm'.eval_eq hres (hvar ▸ ha.ge), Except.ok.injEq, meaning, htree, ho,
      hbetween.eval_fill_fullSatOne hne]
    exact ⟨fun h => hunique assignment ⟨ha, h⟩, fun heq => heq ▸ hmodel⟩
  · rw [hm.eval_eq hf ha.ge, Except.ok.injEq] at heval
    have hdiffers : ∃ j, j < m.varNum ∧ valuation assignment (m.order.varAt.getD j 0) ≠
        (m.diagram.tree f).fixing (fun _ => false) j := by
      by_contra hsame
      exact hother (hunique assignment ⟨ha, fun j hj => by_contra fun h => hsame ⟨j, hj, h⟩⟩)
    -- Where they first differ, the model goes low.
    obtain ⟨k, hk, hfalse, htrue, hbefore⟩ := hbetween.least heval hdiffers
    exact hm.precedes_of_levels hsize ha hk ((hmodel k hk).trans hfalse) htrue fun j hj =>
      (hmodel j (Nat.lt_trans hj hk)).trans (hbefore j hj).symm

/-! ### Answers -/

/-- The answer is a live node with the tree `t`, and the order is as before. -/
def Witnessed (m : Manager) (answer : Answer) (m' : Manager) (t : Tree) : Prop :=
  ∃ res, answer = .node res ∧ m'.Sound ∧ m'.order = m.order ∧ m'.diagram.Live res ∧
    m'.diagram.tree res = t

/-- What a call answers that no reordering interrupts, if the operands stand for the same trees. -/
theorem Settled.witnessed (hm : m.Settled) {c : Command} {r : Request} (hr : c.request? = some r)
    {fs : List NodeId} (hholds : r.Holds fs) {t : Tree}
    (htells : ∀ m' : Manager, m'.order = m.order →
      (∀ x ∈ fs, m'.diagram.tree x = m.diagram.tree x) → ∀ t', c.Tells m' t' → t' = t)
    {answer : Answer} (h : c.run m = (.ok answer, m')) : m.Witnessed answer m' t := by
  obtain ⟨res, hanswer, hcompletes, -, hlive, ho, hsame, htree⟩ := Command.answered hm.ready hr
    (fun h _ _ _ => h) ((Command.delivers hr).meets_still hm.ready hholds) h
  exact ⟨res, hanswer, hcompletes.ready.toSound, ho, hlive, htells m' ho hsame _ htree⟩

theorem Settled.satOne_witnessed (hm : m.Settled) {answer : Answer}
    (h : (Command.satOne f).run m = (.ok answer, m')) :
    m.Witnessed answer m' (m.diagram.tree f).satOne := by
  refine hm.witnessed rfl (Request.holds_satOne f) (fun m' _ hsame t' ht => ?_) h
  rw [← hsame f (by simp)]
  exact ht

theorem Settled.satOneSet_witnessed (hm : m.Settled) {answer : Answer}
    (h : (Command.satOneSet f cube p).run m = (.ok answer, m')) :
    m.Witnessed answer m' (Tree.satOneSet p (m.diagram.tree f) (m.diagram.tree cube).spine) := by
  refine hm.witnessed rfl (Request.holds_satOneSet f cube p) (fun m' _ hsame t' ht => ?_) h
  rw [← hsame f (by simp), ← hsame cube (by simp)]
  exact ht

theorem Settled.fullSatOne_witnessed (hm : m.Settled) {answer : Answer}
    (h : (Command.fullSatOne f).run m = (.ok answer, m')) :
    m.Witnessed answer m' (((m.diagram.tree f).fullSatOne m.varNum).fill 0
      ((m.diagram.tree f).levelOr m.varNum)) := by
  refine hm.witnessed rfl (Request.holds_fullSatOne f) (fun m' ho hsame t' ht => ?_) h
  have hvar : m'.varNum = m.varNum := congrArg VarOrder.size ho
  rw [← hsame f (by simp), ← hvar]
  exact ht

/-- The only live node whose tree is false is the one for false. -/
theorem Witnessed.bot {answer : Answer} {t : Tree} (h : m.Witnessed answer m' t)
    (ht : t = .leaf false) : answer = .node NodeId.bot := by
  obtain ⟨res, rfl, hm', -, hres, htree⟩ := h
  exact congrArg _ (eq_of_beq ((hm'.isBot_iff_tree hres).mpr (htree.trans ht)))

/-- The witnesses of a live node are right.  If some assignment satisfies it, then a witness is a
satisfiable cube that implies it: of the literals along the preferred path, and, with a set, of those
variables in it that the path leaves open, with the value asked for.  A full witness is the least
assignment that satisfies the node, in the current order of the variables and with false before true.
If there is none, then each of the calls answers false. -/
theorem Settled.witnesses (hm : m.Settled) (hf : m.store.isLive f = true) :
    (m.Satisfiable f →
      (∀ answer m', (Command.satOne f).run m = (.ok answer, m') → ∃ res, answer = .node res ∧
        m'.store.isLive res = true ∧ m'.ConjoinsLiterals res (m.fixed f) ∧ m'.Satisfiable res ∧
        m'.Implies res m f) ∧
      (∀ cube p answer m', m.store.isLive cube = true →
        (Command.satOneSet f cube p).run m = (.ok answer, m') → ∃ res, answer = .node res ∧
          m'.store.isLive res = true ∧ m'.Satisfiable res ∧ m'.Implies res m f ∧
          m'.ConjoinsLiterals res (m.fixedWith f (m.cubeVars cube) p) ∧
          (∀ v ∈ m.cubeVars cube, v ∈ (m.fixedWith f (m.cubeVars cube) p).map Prod.fst) ∧
          ∀ v ∈ m.cubeVars cube, v ∉ (m.fixed f).map Prod.fst →
            (v, p) ∈ m.fixedWith f (m.cubeVars cube) p) ∧
      ∀ answer m', (Command.fullSatOne f).run m = (.ok answer, m') → ∃ res, answer = .node res ∧
        m'.store.isLive res = true ∧ m'.currentOrder = m.currentOrder ∧
        ∃ model : Array Bool, model.size = m.varNum ∧ m.eval f model = .ok true ∧
          (∀ assignment : Array Bool, assignment.size = m.varNum →
            (m'.eval res assignment = .ok true ↔ assignment = model)) ∧
          ∀ assignment : Array Bool, assignment.size = m.varNum → m.eval f assignment = .ok true →
            assignment ≠ model → m.Precedes (model.map some) (assignment.map some)) ∧
    (¬ m.Satisfiable f → ∀ cube p, ∀ c ∈ [Command.satOne f, .satOneSet f cube p, .fullSatOne f],
      ∀ answer m', c.run m = (.ok answer, m') → answer = .node NodeId.bot) := by
  have hsound := hm.ready.toSound
  have hlive := hsound.store.live_iff.mpr hf
  refine ⟨fun hsat => ⟨fun answer m' h => ?_, fun cube p answer m' hcube h => ?_, fun answer m' h => ?_⟩,
    fun hunsat cube p c hc answer m' h => ?_⟩
  · obtain ⟨res, hanswer, hm', ho, hres, htree⟩ := hm.satOne_witnessed h
    -- This is the witness for the empty set.
    rw [← Tree.satOneSet_nil (p := false)] at htree
    have hspec := hsound.conjoins_fixedWith hlive hsat hm' ho hres .nil (by simp) htree
    rw [List.map_nil, fixedWith_nil] at hspec
    exact ⟨res, hanswer, hm'.store.live_iff.mp hres, hspec⟩
  · obtain ⟨res, hanswer, hm', ho, hres, htree⟩ := hm.satOneSet_witnessed h
    have hlive' := hsound.store.live_iff.mpr hcube
    obtain ⟨hvars, hlt⟩ := hsound.cubeVars_eq hlive'
    obtain ⟨hconjoins, hsat', himplies⟩ := hsound.conjoins_fixedWith hlive hsat hm' ho hres
      (hsound.spine_pairwise hlive') hlt htree
    exact ⟨res, hanswer, hm'.store.live_iff.mp hres, hsat', himplies, hvars ▸ hconjoins,
      fun _ hv => mem_fixedWith hv, fun _ hv hopen => mem_fixedWith_of_open hv hopen⟩
  · obtain ⟨res, hanswer, hm', ho, hres, htree⟩ := hm.fullSatOne_witnessed h
    exact ⟨res, hanswer, hm'.store.live_iff.mp hres, congrArg VarOrder.toList ho,
      hsound.least_model hlive hsat hm' ho hres htree⟩
  · have hleaf : m.diagram.tree f = .leaf false :=
      by_contra fun hne => hunsat ((hsound.satisfiable_iff hlive).mpr hne)
    simp only [List.mem_cons, List.not_mem_nil, or_false] at hc
    rcases hc with rfl | rfl | rfl
    · exact (hm.satOne_witnessed h).bot (by rw [hleaf]; rfl)
    · exact (hm.satOneSet_witnessed h).bot (by rw [hleaf]; exact Tree.literals_false)
    · exact (hm.fullSatOne_witnessed h).bot (by rw [hleaf]; exact Tree.literals_false)

/-- In reversed order, a disjunction of the lower two of three variables, and the set of the upper two.
The path leaves only the uppermost variable open, which a full witness makes false. -/
theorem witnesses_reversed :
    ∃ m m₁ m₂ m₃, after (.small 32 0) [.setVarNum 3, .swapVar 0 2, .apply .or 2 4, .makeSet [1, 2]] =
        some m ∧ m.fixed 8 = [(1, false), (0, true)] ∧ m.cubeVars 9 = [2, 1] ∧
      (Command.satOne 8).run m = (.ok (.node 10), m₁) ∧
      m₁.ConjoinsLiterals 10 [(1, false), (0, true)] ∧
      (Command.satOneSet 8 9 true).run m = (.ok (.node 11), m₂) ∧
      m₂.ConjoinsLiterals 11 [(1, false), (0, true), (2, true)] ∧
      (Command.fullSatOne 8).run m = (.ok (.node 11), m₃) ∧
      ∀ assignment : Array Bool, assignment.size = 3 →
        (m₃.eval 11 assignment = .ok true ↔ assignment = #[true, false, false]) := by
  have hrun : (after (.small 32 0)
      [.setVarNum 3, .swapVar 0 2, .apply .or 2 4, .makeSet [1, 2]]).any fun m =>
        m.varNum == 3 && m.store.isLive 8 && m.store.isLive 9 &&
        (m.eval 8 #[true, false, false]).toOption == some true &&
        m.fixed 8 == [(1, false), (0, true)] && m.cubeVars 9 == [2, 1] &&
        (Command.satOne 8).node? m == some 10 && (Command.satOneSet 8 9 true).node? m == some 11 &&
        (Command.fullSatOne 8).node? m == some 11 &&
        (((Command.fullSatOne 8).run m).2.eval 11 #[true, false, false]).toOption == some true := by
    decide +kernel
  obtain ⟨m, hm, hfacts⟩ := (Option.any_eq_true _ _).mp hrun
  simp only [Bool.and_eq_true, beq_iff_eq] at hfacts
  obtain ⟨⟨⟨⟨⟨⟨⟨⟨⟨hvar, hf⟩, hcube⟩, heval⟩, hfixed⟩, hvars⟩, hone⟩, hset⟩, hfull⟩, hmodel⟩ := hfacts
  have of_toOption : ∀ {x : Except Failure Bool}, x.toOption = some true → x = .ok true := by
    rintro (_ | _) h
    · cases h
    · exact congrArg _ (Option.some.inj h)
  have hsat : m.Satisfiable 8 :=
    ⟨#[true, false, false], Nat.le_of_eq hvar, of_toOption heval⟩
  have hrun₁ : (Command.satOne 8).run m = (.ok (.node 10), _) :=
    Prod.ext (Command.run_of_node? hone) rfl
  have hrun₂ : (Command.satOneSet 8 9 true).run m = (.ok (.node 11), _) :=
    Prod.ext (Command.run_of_node? hset) rfl
  have hrun₃ : (Command.fullSatOne 8).run m = (.ok (.node 11), _) :=
    Prod.ext (Command.run_of_node? hfull) rfl
  obtain ⟨h₁, h₂, h₃⟩ := ((settled_after hm).witnesses hf).1 hsat
  obtain ⟨res, hres, -, hconjoins, -⟩ := h₁ _ _ hrun₁
  obtain rfl : 10 = res := Answer.node.inj hres
  obtain ⟨res, hres, -, -, -, hconjoins', -⟩ := h₂ 9 true _ _ hcube hrun₂
  obtain rfl : 11 = res := Answer.node.inj hres
  obtain ⟨res, hres, -, -, model, -, -, hunique, -⟩ := h₃ _ _ hrun₃
  obtain rfl : 11 = res := Answer.node.inj hres
  rw [hvar] at hunique
  obtain rfl : #[true, false, false] = model := (hunique _ rfl).mp (of_toOption hmodel)
  rw [hfixed] at hconjoins
  rw [fixedWith, hfixed, hvars] at hconjoins'
  exact ⟨m, _, _, _, hm, hfixed, hvars, hrun₁, hconjoins, hrun₂, hconjoins', hrun₃, hunique⟩

end Manager

end DecisionDiagram
