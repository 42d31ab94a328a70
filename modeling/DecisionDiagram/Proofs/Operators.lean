/-
Every operator call does its work.

* `Request.Delivers` — what is known of the tree of the answer, in the manager in which the call ends;
* `Request.Delivers.of_ensures`, `.of_yields` — this is the answer of a program that is right in every
  sound manager that keeps the operands;
* `Request.Delivers.apply` and its like — the requests of all operators;
* `Request.Delivers.fulfilled` — so each request is fulfilled.
-/
import DecisionDiagram.Operators
import DecisionDiagram.Proofs.Calls
import DecisionDiagram.Proofs.Operator.Cofactor
import DecisionDiagram.Proofs.Operator.Quantify
import DecisionDiagram.Proofs.Operator.Substitute
import DecisionDiagram.Proofs.Operator.Witness

namespace DecisionDiagram

open Manager

section

variable {ε α β : Type}

/-- Two checks in a row pass if each does. -/
theorem exists_of_bind_eq_ok {x : Except ε α} {k : α → Except ε β} {b : β} (h : x >>= k = .ok b) :
    ∃ a, x = .ok a ∧ k a = .ok b := by
  cases x with
  | error e => cases h
  | ok a => exact ⟨a, rfl, h⟩

/-- What comes after a guard that passes. -/
theorem of_guard_eq_ok {c : Prop} [Decidable c] {e : ε} {k : Unit → Except ε β} {b : β}
    (h : (if c then (throw e : Except ε Unit) >>= k else k ()) = .ok b) : ¬ c ∧ k () = .ok b := by
  split at h
  · cases h
  · exact ⟨‹_›, h⟩

/-- A function that has a value for each element of a list has one for the list. -/
theorem exists_mapM {f : α → Except ε β} {l : List α} (h : ∀ a ∈ l, ∃ b, f a = .ok b) :
    ∃ bs, l.mapM f = .ok bs ∧ ∀ b, b ∈ bs ↔ ∃ a ∈ l, f a = .ok b := by
  induction l with
  | nil => exact ⟨[], rfl, by simp⟩
  | cons a l ih =>
    obtain ⟨b, hb⟩ := h a (by simp)
    obtain ⟨bs, hbs, hmem⟩ := ih fun a ha => h a (List.mem_cons_of_mem _ ha)
    refine ⟨b :: bs, ?_, fun c => ?_⟩
    · rw [List.mapM_cons, hb, hbs]
      rfl
    · rw [List.mem_cons, hmem, List.exists_mem_cons_iff, hb, Except.ok.injEq, eq_comm]

end

/-- The levels of a tree are those of the nodes that the root of the tree reaches. -/
theorem Diagram.Unfolds.mem_levels {g : Diagram} {f : NodeId} {t : Tree} {k : Level}
    (hg : ∀ {id n}, g id = some n → id.isTerminal = false) (h : g.Unfolds f t) :
    k ∈ t.levels ↔ ∃ id n, g.Reaches f id ∧ g id = some n ∧ n.level = k := by
  induction h with
  | @terminal id ht =>
    refine ⟨nofun, ?_⟩
    rintro ⟨id', n, hreach, hn, -⟩
    rcases hreach.cases_head with rfl | ⟨c, ⟨n', b, hn', -⟩, -⟩
    · rw [hg hn] at ht
      cases ht
    · rw [hg hn'] at ht
      cases ht
  | @node id n l h hn _ _ ihl ihh =>
    rw [Tree.levels, List.mem_cons, List.mem_append, ihl, ihh]
    constructor
    · rintro (rfl | ⟨id', n', hreach, hn', hk⟩ | ⟨id', n', hreach, hn', hk⟩)
      · exact ⟨id, n, .refl, hn, rfl⟩
      · exact ⟨id', n', .head ⟨n, false, hn, rfl⟩ hreach, hn', hk⟩
      · exact ⟨id', n', .head ⟨n, true, hn, rfl⟩ hreach, hn', hk⟩
    · rintro ⟨id', n', hreach, hn', rfl⟩
      rcases hreach.cases_head with rfl | ⟨c, ⟨n₁, b, hn₁, rfl⟩, hreach⟩
      · exact .inl (by rw [Option.some.inj (hn.symm.trans hn')])
      · obtain rfl := Option.some.inj (hn.symm.trans hn₁)
        cases b
        · exact .inr (.inl ⟨id', n', hreach, hn', rfl⟩)
        · exact .inr (.inr ⟨id', n', hreach, hn', rfl⟩)

namespace Manager

variable {m m' : Manager} {v : Var} {l : Level}

/-! ### Arguments -/

theorem levelOf_ok (h : m.levelOf v = .ok l) : m.order.levelOf[v]? = some l := by
  unfold levelOf at h
  split at h
  · obtain rfl := Except.ok.inj h
    assumption
  · cases h

theorem levelOf_lt (hm : m.Sound) (h : m.levelOf v = .ok l) : l < m.varNum :=
  (Array.getElem?_eq_some_iff.mp (hm.order.varAt_levelOf (levelOf_ok h))).1

theorem checkVar_ok (h : m.checkVar v = .ok ()) : v < m.varNum := by
  unfold checkVar at h
  split at h
  · assumption
  · cases h

theorem checkVars_ok {vars : List Var} (h : m.checkVars vars = .ok ()) : ∀ v ∈ vars, v < m.varNum := by
  induction vars with
  | nil => simp
  | cons v vars ih =>
    rw [checkVars] at h
    split at h
    · cases h
    · rename_i hv
      intro w hw
      rcases List.mem_cons.mp hw with rfl | hw
      · exact checkVar_ok hv
      · exact ih h w hw

theorem Sound.exists_levelOf (hm : m.Sound) (hv : v < m.varNum) :
    ∃ l, m.levelOf v = .ok l ∧ l < m.varNum := by
  obtain ⟨l, hl, -, -, hlt⟩ := hm.order.getD_levelOf hv
  exact ⟨l, by rw [levelOf, hl], hlt⟩

theorem exists_pairing {number : Nat} (h : number < m.pairings.tables.size) :
    ∃ p, m.pairing number = .ok p := ⟨_, by rw [pairing, Array.getElem?_eq_getElem h]⟩

theorem pairing_lt {number : Nat} {p : Pairing} (h : m.pairing number = .ok p) :
    number < m.pairings.tables.size := by
  unfold pairing at h
  split at h
  · rename_i hp
    exact (Array.getElem?_eq_some_iff.mp hp).1
  · cases h

theorem checkNode_ok (hm : m.Ready) {f : NodeId} (h : m.checkNode f = .ok ()) : m.diagram.Live f := by
  unfold checkNode at h
  split at h
  · exact hm.store.live_iff.mpr ‹_›
  · cases h

theorem checkChild_ok (hm : m.Ready) {level : Level} {child : NodeId}
    (h : m.checkChild level child = .ok ()) : m.diagram.Under id (level + 1) child := by
  obtain ⟨⟨⟩, hcheck, h⟩ := exists_of_bind_eq_ok h
  obtain ⟨n, hn, h⟩ := exists_of_bind_eq_ok h
  by_cases ht : child.isTerminal = true
  · exact .inl ht
  · obtain ⟨n', hn'⟩ := (checkNode_ok hm hcheck).eq_some (Bool.eq_false_iff.mpr ht)
    rw [node, Store.node?_of_diagram hn'] at hn
    obtain rfl := Except.ok.inj hn
    refine .inr ⟨n', hn', ?_⟩
    by_contra hle
    have hle : n'.level ≤ level := Nat.le_of_lt_succ (Nat.lt_of_not_le hle)
    rw [if_pos hle] at h
    cases h

/-- The nodes below live nodes can be listed. -/
theorem Sound.exists_reachable (hm : m.Sound) {roots : List NodeId}
    (hroots : ∀ r ∈ roots, m.diagram.Live r) :
    ∃ marks, m.reachable roots = .ok marks ∧
      ∀ id, id ∈ marks.toList ↔ (∃ n, m.diagram id = some n) ∧ ∃ r ∈ roots, m.diagram.Reaches r id := by
  obtain ⟨marks, hmarks, hM⟩ := exists_reachAll hm.store hm.reduced hroots
    (BitSet.ofCapacity m.store.capacity)
  have hempty := BitSet.contains_ofCapacity m.store.capacity
  refine ⟨marks, ?_, fun id => ?_⟩
  · unfold reachable
    rw [show m.extent = m.store.nodes.size + 1 from rfl, hmarks]
  · rw [BitSet.mem_toList]
    constructor
    · intro hid
      obtain ⟨ht, r, hr, hreach⟩ := hM.source hid (hempty id)
      exact ⟨(hm.reduced.reaches_live (hroots r hr) hreach).eq_some ht, r, hr, hreach⟩
    · rintro ⟨⟨n, hn⟩, r, hr, hreach⟩
      exact (hM.contains_iff hm.reduced hempty (hm.reduced.inner hn)).mpr ⟨r, .inr hr, hreach⟩

/-- The levels of the nodes below a live node are those of its tree. -/
theorem Sound.exists_levelsBelow (hm : m.Sound) {f : NodeId} (hf : m.diagram.Live f) :
    ∃ levels, m.levelsBelow f = .ok levels ∧ ∀ l, l ∈ levels ↔ l ∈ (m.diagram.tree f).levels := by
  obtain ⟨marks, hmarks, hM⟩ := hm.exists_reachable (List.forall_mem_singleton.mpr hf)
  have hlevel : ∀ {id n}, m.diagram id = some n → (do return (← m.node id).level) = .ok n.level :=
    fun hn => by
      rw [node, Store.node?_of_diagram hn]
      rfl
  obtain ⟨levels, hlevels, hmem⟩ := exists_mapM (f := fun id => do return (← m.node id).level)
    (l := marks.toList) fun id hid => ((hM id).mp hid).1.elim fun n hn => ⟨n.level, hlevel hn⟩
  refine ⟨levels, ?_, fun l => ?_⟩
  · rw [levelsBelow, descendants, hmarks]
    exact hlevels
  · rw [hmem, (hm.reduced.unfolds hf).mem_levels hm.reduced.inner]
    constructor
    · rintro ⟨id, hid, hl⟩
      obtain ⟨⟨n, hn⟩, r, hr, hreach⟩ := (hM id).mp hid
      obtain rfl := List.mem_singleton.mp hr
      exact ⟨id, n, hreach, hn, Except.ok.inj ((hlevel hn).symm.trans hl)⟩
    · rintro ⟨id, n, hreach, hn, rfl⟩
      exact ⟨id, (hM id).mpr ⟨⟨n, hn⟩, f, by simp, hreach⟩, hlevel hn⟩

end Manager

namespace Request

open Program

variable {operands : List NodeId} {p : Nat → Program NodeId} {q : Program NodeId} {m : Manager}
  {single : Bool} {f g h l cube : NodeId}

/-! ### From operators to calls -/

/-- A request does its work when its program ends with a right answer in every sound manager that
keeps the operands, and that the manager `m` of the call may have become by then. -/
theorem meets_of_ensures {check : Manager → Except Failure Unit} {Q : NodeId → Manager → Prop}
    (hm : m.Ready)
    (h : check m = .ok () → ∀ m' e : Manager, m.Completes operands m' → e = m'.equip operands →
      (∀ x ∈ operands, m.diagram.Live x) → e.Sound → (∀ x ∈ operands, e.Kept x) →
      (single = true → e.diagram = m.diagram) →
      Program.Ensures e.varNum e q (fun _ _ => True) e fun res m'' =>
        m''.diagram.Live res ∧ Q res m'') :
    Meets ⟨check, .perform operands q single⟩ Q m := by
  intro hcheck ho m' hc he
  refine h hcheck m' _ hc rfl ho (hc.ready.toSound.equip (hc.live hm ho)) (fun x hx => kept_equip hx)
    fun hsingle => ?_
  obtain ⟨auto, rfl⟩ := he hsingle
  rfl

/-- Whenever the call has an answer, `P` holds of the tree of this in the manager in which the call
ends. -/
def Delivers (r : Request) (P : Manager → Tree → Prop) : Prop := ∀ m : Manager, m.Ready →
  r.Meets (fun res m' => P m' (m'.diagram.tree res)) m

/-- The manager in which the program of the call is attempted. -/
structure Opens (operands : List NodeId) (single : Bool) (m e : Manager) : Prop where
  sound : e.Sound
  pending : e.pending = []
  kept : ∀ x ∈ operands, e.Kept x
  varNum : m.varNum ≤ e.varNum
  tables : m.pairings.tables.size ≤ e.pairings.tables.size
  single : single = true → e.diagram = m.diagram

/-- The program answers a live node. -/
theorem Delivers.fulfilled {r : Request} {P : Manager → Tree → Prop} (h : r.Delivers P) :
    r.Fulfilled := by
  intro m hm hcheck
  have hr := h m hm hcheck
  rcases htask : r.task with f | ⟨operands, p, single⟩
  · rw [htask] at hr
    exact ⟨hr.1, trivial⟩
  · rw [htask] at hr
    exact fun ho m' hc he => (hr ho m' hc he).mono fun _ _ _ _ hres => ⟨hres.1, trivial⟩

theorem Delivers.of_ensures {check : Manager → Except Failure Unit} {P : Manager → Tree → Prop}
    (h : ∀ m e : Manager, m.Ready → check m = .ok () → Opens operands single m e →
      Program.Ensures e.varNum e q (fun _ _ => True) e fun res m' =>
        m'.diagram.Live res ∧ (m'.Sound → e.Evolves m' → P m' (m'.diagram.tree res))) :
    Delivers ⟨check, .perform operands q single⟩ P := fun m hm =>
  meets_of_ensures hm fun hcheck _ e hc he _ hsound hk hsingle =>
    (h m e hm hcheck ⟨hsound, he ▸ rfl, hk, he ▸ hc.retains.varNum, he ▸ hc.retains.carries.tables,
      hsingle⟩).mono fun _ _ hev hcoherent ⟨hlive, hP⟩ =>
        ⟨hlive, hP (hsound.evolves hev hcoherent) hev⟩

/-- A program that yields a right tree. This has to be right later, too, when the operands and the
entries of the pairings have the same trees. -/
theorem Delivers.of_yields {check : Manager → Except Failure Unit} {P : Manager → Tree → Prop}
    (h : ∀ m e : Manager, m.Ready → check m = .ok () → Opens operands single m e →
      Yields e q (P e))
    (hP : ∀ e m' t, m'.order = e.order → m'.pairings = e.pairings →
      (∀ x ∈ operands, m'.diagram.tree x = e.diagram.tree x) →
      (∀ x ∈ e.pairings.tables, ∀ k, m'.diagram.tree (x.entry k) = e.diagram.tree (x.entry k)) →
      P e t → P m' t) : Delivers ⟨check, .perform operands q single⟩ P :=
  .of_ensures fun m e hm hcheck ho =>
    (h m e hm hcheck ho (fun _ _ => True) fun _ _ => trivial).mono fun _ _ _ _ ⟨hlive, ht⟩ =>
      ⟨hlive, fun hm' hev => hP e _ _ hev.order hev.pairings
        (fun x hx => ho.sound.tree hm' hev (ho.kept x hx))
        (fun _ hx k => ho.sound.tree hm' hev (kept_entry hx k)) ht⟩

/-- A recursion whose result depends on the trees of the operands only. -/
theorem Delivers.bounded {F : (NodeId → Tree) → Tree}
    (h : ∀ e : Manager, e.Sound → (∀ x ∈ operands, e.Kept x) →
      Yields e (p e.depth) (· = F e.diagram.tree))
    (hF : ∀ s t : NodeId → Tree, (∀ x ∈ operands, s x = t x) → F s = F t) :
    Delivers (Request.bounded operands p) fun m t => t = F m.diagram.tree :=
  .of_yields (fun _ e _ _ ho => .depth ho.sound (h e ho.sound ho.kept))
    fun _ _ _ _ _ hsame _ ht => ht.trans (hF _ _ hsame).symm

/-- The answer is an argument. -/
theorem Delivers.checked {P : Manager → Tree → Prop}
    (h : ∀ m : Manager, m.Ready → m.diagram.Live f → P m (m.diagram.tree f)) :
    Delivers (Request.checked f) P := fun m hm hf =>
  ⟨checkNode_ok hm hf, h m hm (checkNode_ok hm hf)⟩

/-! ### Nodes -/

/-- The children of the node stay where they are, since no reordering can start. -/
theorem Delivers.makeNode (level : Level) (l h : NodeId) :
    Delivers (Request.makeNode level l h) fun m t =>
      t = Tree.make level (m.diagram.tree l) (m.diagram.tree h) := by
  refine .of_yields (fun m e hm hcheck ho => ?_) fun e m' t _ _ hsame _ ht => by simp [ht, hsame]
  have hd : e.diagram = m.diagram := ho.single rfl
  have hargs : level < m.varNum ∧ m.checkChild level l = .ok () ∧ m.checkChild level h = .ok () := by
    by_cases hlevel : m.varNum ≤ level
    · simp only [if_pos hlevel] at hcheck
      cases hcheck
    · simp only [if_neg hlevel] at hcheck
      obtain ⟨⟨⟩, hl, hh⟩ := exists_of_bind_eq_ok hcheck
      exact ⟨Nat.lt_of_not_le hlevel, hl, hh⟩
  obtain ⟨hlevel, hl, hh⟩ := hargs
  have hle : level + 1 ≤ e.varNum := Nat.lt_of_lt_of_le hlevel ho.varNum
  refine Yields.mk ho.sound hle ⟨ho.kept l (by simp), ?_, hle⟩ ⟨ho.kept h (by simp), ?_, hle⟩
  · rw [hd]
    exact checkChild_ok hm hl
  · rw [hd]
    exact checkChild_ok hm hh

/-! ### Connectives -/

theorem Delivers.not (f : NodeId) :
    Delivers (Request.not f) fun m t => t = (m.diagram.tree f).not :=
  .bounded (F := fun tree => (tree f).not) (fun _ hm hk => .not_depth hm (hk f (by simp)))
    fun _ _ h => by simp [h]

theorem Delivers.apply (op : Connective) (l r : NodeId) : Delivers (Request.apply op l r) fun m t =>
    t = Tree.apply op (m.diagram.tree l) (m.diagram.tree r) :=
  .bounded (F := fun tree => Tree.apply op (tree l) (tree r))
    (fun _ hm hk => .apply_depth hm (hk l (by simp)) (hk r (by simp))) fun _ _ h => by simp [h]

theorem Delivers.applyMany (op : Connective) (fs : List NodeId) {unit : NodeId}
    (hunit : unit.isTerminal = true) :
    Delivers (Request.plain fs (Program.applyMany op fs unit)) fun m t =>
      t = fs.foldl (fun t f => Tree.apply op t (m.diagram.tree f)) (.leaf unit.isTop) :=
  .of_ensures fun _ e _ _ ho =>
    (Ensures.applyMany ho.sound ho.pending ho.kept (.refl e) ho.sound.toCoherent
      (kept_of_terminal hunit) fun _ _ => trivial).mono fun res m' _ _ ⟨hlive, htree⟩ =>
        ⟨hlive, fun hm' hev => by
          rw [htree, ho.sound.reduced.tree_terminal hunit]
          refine List.foldl_ext _ _ _ fun t f hf => ?_
          rw [ho.sound.tree hm' hev (ho.kept f hf)]⟩

theorem Delivers.ite (f g h : NodeId) : Delivers (Request.ite f g h) fun m t =>
    t = Tree.ite (m.diagram.tree f) (m.diagram.tree g) (m.diagram.tree h) :=
  .bounded (F := fun tree => Tree.ite (tree f) (tree g) (tree h))
    (fun _ hm hk => .ite_depth hm (hk f (by simp)) (hk g (by simp)) (hk h (by simp)))
    fun _ _ h => by simp [h]

/-! ### Sets of variables and quantification -/

/-- A cube of levels is their conjunction. -/
theorem ensures_cube (hm : m.Sound) (hp : m.pending = []) {levels : List Level}
    (h : ∀ l ∈ levels, l < m.varNum) :
    Program.Ensures m.varNum m (Program.cube levels) (fun _ _ => True) m fun res m' =>
      m'.diagram.Live res ∧ ∀ v, (m'.diagram.tree res).eval v = true ↔ ∀ l ∈ levels, v l = true := by
  have hmem : ∀ l, l ∈ (BitSet.empty.insertMany levels).toList.reverse ↔ l ∈ levels := fun l => by
    rw [List.mem_reverse, BitSet.mem_toList, BitSet.contains_insertMany]
    simp
  refine (Ensures.cubeOfLevels hm hp ?_ (fun l hl => h l ((hmem l).mp hl)) (.refl m) hm.toCoherent
    (kept_of_terminal rfl) (fun l _ => ?_) fun _ _ => trivial).mono
    fun res m' _ _ ⟨hlive, heval⟩ => ⟨hlive, fun v => ?_⟩
  · rw [List.pairwise_reverse]
    exact BitSet.toList_pairwise _
  · rw [hm.reduced.tree_top]
    exact .leaf _ _
  · simp only [heval, hmem, hm.reduced.tree_top, Tree.eval_leaf, and_true]

/-- The levels of known variables. -/
theorem observes_levelsOf (hm : m.Sound) {vars : List Var} (hv : ∀ v ∈ vars, v < m.varNum) :
    Observes m (levelsOf vars) fun levels =>
      ∀ l, l ∈ levels ↔ ∃ v ∈ vars, m.order.levelOf[v]? = some l := by
  induction vars with
  | nil => exact fun l => by simp
  | cons v vars ih =>
    obtain ⟨l, hl, -⟩ := hm.exists_levelOf (hv v (by simp))
    refine ⟨rfl, l, by simp only [Step.exec, Build.read, hl], ?_⟩
    refine (ih fun w hw => hv w (List.mem_cons_of_mem _ hw)).mono fun levels hlevels k => ?_
    rw [List.mem_cons, hlevels, List.exists_mem_cons_iff, levelOf_ok hl, Option.some.injEq, eq_comm]

/-- The cube of known variables, in a manager that keeps nothing else pending. -/
theorem ensures_makeSet (hm : m.Sound) (hp : m.pending = []) {vars : List Var}
    (hv : ∀ v ∈ vars, v < m.varNum) :
    Program.Ensures m.varNum m (do Program.cube (← Program.levelsOf vars)) (fun _ _ => True) m
      fun res m' => m'.diagram.Live res ∧ ∀ x, (m'.diagram.tree res).eval x = true ↔
        ∀ v ∈ vars, ∀ l, m.order.levelOf[v]? = some l → x l = true := by
  refine Ensures.bind ((observes_levelsOf hm hv).ensures hm _) ?_
  rintro levels m' - - ⟨rfl, h⟩
  refine (ensures_cube hm hp fun l hl => ?_).mono fun res m' _ _ ⟨hlive, heval⟩ =>
    ⟨hlive, fun x => ?_⟩
  · obtain ⟨v, -, hl⟩ := (h l).mp hl
    exact (Array.getElem?_eq_some_iff.mp (hm.order.varAt_levelOf hl)).1
  · rw [heval]
    exact ⟨fun hx v hv l hl => hx l ((h l).mpr ⟨v, hv, hl⟩), fun hx l hl => by
      obtain ⟨v, hv, hl⟩ := (h l).mp hl
      exact hx v hv l hl⟩

theorem Delivers.makeSet (vars : List Var) : Delivers (Request.makeSet vars) fun m t =>
    ∀ x, t.eval x = true ↔ ∀ v ∈ vars, ∀ l, m.order.levelOf[v]? = some l → x l = true :=
  .of_ensures fun _ _ _ hcheck ho =>
    (ensures_makeSet ho.sound ho.pending fun v hv =>
      Nat.lt_of_lt_of_le (checkVars_ok hcheck v hv) ho.varNum).mono fun _ _ _ _ ⟨hlive, heval⟩ =>
        ⟨hlive, fun _ hev => hev.order ▸ heval⟩

theorem Delivers.quantify (q : Quantifier) (f cube : NodeId) :
    Delivers (Request.quantify q f cube) fun m t =>
      t = Tree.quantifyCube q (m.diagram.tree f) (m.diagram.tree cube) := by
  unfold Request.quantify
  split
  · rename_i ht
    refine .checked fun m hm hf => ?_
    rw [hm.reduced.tree_terminal ht, (hm.reduced.tree_proper hf.under).quantifyCube_leaf]
  · exact .bounded (F := fun tree => Tree.quantifyCube q (tree f) (tree cube))
      (fun _ hm hk => .quantifyCube q hm (hk f (by simp)) (hk cube (by simp))) fun _ _ h => by simp [h]

theorem Delivers.appQuantify (q : Quantifier) (op : Connective) (l r cube : NodeId) :
    Delivers (Request.appQuantify q op l r cube) fun m t => t = Tree.quantifyCube q
      (Tree.apply op (m.diagram.tree l) (m.diagram.tree r)) (m.diagram.tree cube) := by
  unfold Request.appQuantify
  split
  · rename_i ht
    refine .of_ensures fun m e _ _ ho => ?_
    have hl := ho.kept l (by simp)
    have hr := ho.kept r (by simp)
    refine ((Yields.depth ho.sound (.apply_depth ho.sound hl hr)) (fun _ _ => True) fun _ _ =>
      trivial).mono fun res m' _ _ ⟨hlive, htree⟩ => ⟨hlive, fun hm' hev => ?_⟩
    have hproper := hm'.reduced.tree_proper hlive.under
    rw [htree] at hproper ⊢
    rw [hm'.reduced.tree_terminal ht, ho.sound.tree hm' hev hl, ho.sound.tree hm' hev hr,
      hproper.quantifyCube_leaf]
  · exact .bounded (F := fun tree => Tree.quantifyCube q (Tree.apply op (tree l) (tree r)) (tree cube))
      (fun _ hm hk => .applyQuantifyCube q op hm (hk l (by simp)) (hk r (by simp)) (hk cube (by simp)))
      fun _ _ h => by simp [h]

/-! ### Cofactors -/

theorem Delivers.restrict (f cube : NodeId) : Delivers (Request.restrict f cube) fun m t =>
    t = Tree.restrict (m.diagram.tree cube).fixes (m.diagram.tree f) := by
  unfold Request.restrict
  split
  · rename_i ht
    refine .checked fun m hm hf => ?_
    rw [hm.reduced.tree_terminal ht]
    exact ((hm.reduced.tree_proper hf.under).restrict_eq fun _ _ => rfl).symm
  · exact .bounded (F := fun tree => Tree.restrict (tree cube).fixes (tree f))
      (fun _ hm hk => .restrictCube hm (hk f (by simp)) (hk cube (by simp))) fun _ _ h => by simp [h]

theorem Delivers.constrain (f care : NodeId) : Delivers (Request.constrain f care) fun m t =>
    t = Tree.constrain (m.diagram.tree f) (m.diagram.tree care) :=
  .bounded (F := fun tree => Tree.constrain (tree f) (tree care))
    (fun _ hm hk => .constrain_depth hm (hk f (by simp)) (hk care (by simp))) fun _ _ h => by simp [h]

theorem Delivers.simplify (f care : NodeId) : Delivers (Request.simplify f care) fun m t =>
    t = Tree.simplify (m.diagram.tree f) (m.diagram.tree care) :=
  .bounded (F := fun tree => Tree.simplify (tree f) (tree care))
    (fun _ hm hk => .simplify_depth hm (hk f (by simp)) (hk care (by simp))) fun _ _ h => by simp [h]

/-! ### Substitution -/

theorem observes_levelOf {v : Var} {l : Level} (h : m.levelOf v = .ok l) :
    Observes m (Program.levelOf v) (· = l) :=
  ⟨rfl, l, by simp only [Step.exec, Build.read, h], rfl⟩

theorem Delivers.compose (f g : NodeId) (v : Var) : Delivers (Request.compose f g v) fun m t =>
    ∃ level, m.order.levelOf[v]? = some level ∧
      t = Tree.compose level (m.diagram.tree f) (m.diagram.tree g) := by
  refine .of_yields (fun m e hm hcheck ho => ?_) fun e m' t hord _ hsame _ ⟨level, hl, ht⟩ =>
    ⟨level, hord ▸ hl, by simp [ht, hsame]⟩
  obtain ⟨level, hlevel, hlt⟩ :=
    ho.sound.exists_levelOf (Nat.lt_of_lt_of_le (checkVar_ok hcheck) ho.varNum)
  refine .depth ho.sound (.observe ho.sound (observes_levelOf hlevel) ?_)
  rintro _ rfl
  exact (Yields.compose_depth ho.sound hlt (ho.kept f (by simp)) (ho.kept g (by simp))).mono
    fun t ht => ⟨_, levelOf_ok hlevel, ht⟩

/-- The pairing is there when the program is attempted, too. -/
theorem Delivers.withPairing {number : Nat} {P : Manager → Tree → Prop}
    (h : ∀ (m : Manager) e, m.Sound → m.Kept f → m.pairing number = .ok e → Yields m (p m.depth) (P m))
    (hP : ∀ e m' t, m'.pairings = e.pairings → m'.diagram.tree f = e.diagram.tree f →
      (∀ x ∈ e.pairings.tables, ∀ k, m'.diagram.tree (x.entry k) = e.diagram.tree (x.entry k)) →
      P e t → P m' t) : Delivers (Request.withPairing f number p) P := by
  refine .of_yields (fun m e _ hcheck ho => ?_) fun e m' t _ hp hsame => hP e m' t hp (hsame f (by simp))
  have hnumber : number < m.pairings.tables.size := by
    obtain ⟨⟨⟩, -, hcheck⟩ := exists_of_bind_eq_ok hcheck
    obtain ⟨_, hp, -⟩ := exists_of_bind_eq_ok hcheck
    exact pairing_lt hp
  obtain ⟨t, ht⟩ := exists_pairing (Nat.lt_of_lt_of_le hnumber ho.tables)
  exact .depth ho.sound (h e t ho.sound (ho.kept f (by simp)) ht)

/-- The tree comes from that of `f` by a pairing: it is the same one if nothing was set in the pairing,
and else it is as `S` says of the trees of the entries and of the last level that has one of its own,
unless the stamps of the pairings have run out. -/
def Pairs (S : (Level → Tree) → Level → Tree → Tree → Prop) (f : NodeId) (number : Nat) (m : Manager)
    (t : Tree) : Prop :=
  ∃ e, m.pairing number = .ok e ∧ (e.last = none → t = m.diagram.tree f) ∧
    ∀ last, e.last = some last → m.pairings.updates < 2 ^ 32 →
      S (fun k => m.diagram.tree (e.entry k)) last (m.diagram.tree f) t

theorem Delivers.pairs {number : Nat} {S : (Level → Tree) → Level → Tree → Tree → Prop}
    (hunset : ∀ (m : Manager) e, m.Sound → m.Kept f → m.pairing number = .ok e → e.last = none →
      Yields m (p m.depth) (· = m.diagram.tree f))
    (hset : ∀ (m : Manager) e, m.Sound → m.Kept f → m.pairing number = .ok e →
      Yields m (p m.depth) fun t => ∀ last, e.last = some last → m.pairings.updates < 2 ^ 32 →
        S (fun k => m.diagram.tree (e.entry k)) last (m.diagram.tree f) t) :
    Delivers (Request.withPairing f number p) (Pairs S f number) := by
  refine .withPairing (fun m e hm hf he => ?_) fun e m' t hp hsame hentries ⟨x, hx, hnone, hsome⟩ => ?_
  · rcases hlast : e.last with _ | last
    · exact (hunset m e hm hf he hlast).mono fun t ht =>
        ⟨e, he, fun _ => ht, fun _ h => absurd (hlast.symm.trans h) nofun⟩
    · exact (hset m e hm hf he).mono fun t ht =>
        ⟨e, he, fun h => absurd (hlast.symm.trans h) nofun, ht⟩
  · have hpairing : m'.pairing number = e.pairing number := by
      rw [Manager.pairing, Manager.pairing, hp]
    refine ⟨x, hpairing.trans hx, fun hlast => (hnone hlast).trans hsame.symm, fun last hlast hu => ?_⟩
    rw [hp] at hu
    rw [hsame, funext fun k => hentries x (mem_tables hx) k]
    exact hsome last hlast hu

theorem Delivers.vecCompose (f : NodeId) (number : Nat) : Delivers (Request.vecCompose f number)
    (Pairs (fun entry last s t => t = Tree.vecCompose entry last s) f number) := by
  refine .pairs (fun _ _ hm hf he hlast => .vecComposeBy_unset hm he hlast hf) fun m e hm hf he =>
    (Yields.vecComposeBy hm he hf).mono fun t ht last hlast hu => ?_
  obtain ⟨last', hlast', hres⟩ := (ht last hlast hu).2 e (mem_tables he) rfl
  obtain rfl := Option.some.inj (hlast.symm.trans hlast')
  exact hres.symm

theorem Delivers.replace (f : NodeId) (number : Nat) : Delivers (Request.replace f number)
    (Pairs (fun entry last s t => Tree.rename (fun k => (entry k).level?) last s = some t) f
      number) := by
  refine .pairs (fun _ _ hm hf he hlast => .renameBy_unset hm he hlast hf) fun m e hm hf he =>
    (Yields.renameBy hm he hf).mono fun t ht last hlast hu => ?_
  obtain ⟨last', hlast', hres⟩ := (ht last hlast hu).2 e (mem_tables he) rfl
  obtain rfl := Option.some.inj (hlast.symm.trans hlast')
  exact hres

/-! ### Witnesses and support -/

theorem Delivers.exclusive {check : Manager → Except Failure Unit} {F : Level → (NodeId → Tree) → Tree}
    (h : ∀ m : Manager, m.Sound → (∀ x ∈ operands, m.Kept x) →
      Builds m 0 (p m.depth) (F m.varNum m.diagram.tree))
    (hF : ∀ d, ∀ s t : NodeId → Tree, (∀ x ∈ operands, s x = t x) → F d s = F d t) :
    Delivers (Request.exclusive check operands p) fun m t => t = F m.varNum m.diagram.tree := by
  refine .of_ensures fun _ e _ _ ho => ?_
  have hb : Builds e 0 (Program.depth >>= p) (F e.varNum e.diagram.tree) := by
    refine .observe ho.sound (p := Program.depth) (Q := (· = e.depth)) ⟨rfl, _, rfl, rfl⟩ ?_
    rintro _ rfl
    exact h e ho.sound ho.kept
  refine (hb (fun _ _ => True) fun _ _ => trivial).mono fun res m' _ _ ⟨hres, htree⟩ =>
    ⟨hres.live, fun hm' hev => ?_⟩
  rw [htree, hev.varNum]
  exact hF _ _ _ fun x hx => (ho.sound.tree hm' hev (ho.kept x hx)).symm

theorem Delivers.satOne (f : NodeId) :
    Delivers (Request.satOne f) fun m t => t = (m.diagram.tree f).satOne := by
  unfold Request.satOne
  split
  · rename_i ht
    refine fun m hm _ => ⟨.inl ht, ?_⟩
    show m.diagram.tree f = (m.diagram.tree f).satOne
    rw [hm.reduced.tree_terminal ht]
    rfl
  · refine .exclusive (F := fun _ tree => (tree f).satOne) (fun m hm hk => ?_) fun _ _ _ h => by simp [h]
    have hdepth : m.depth = m.varNum + 2 := rfl
    exact .satOne hm (hm.operand (hk f (by simp))) (by lia)

theorem Delivers.satOneSet (f cube : NodeId) (polarity : Bool) :
    Delivers (Request.satOneSet f cube polarity) fun m t =>
      t = Tree.satOneSet polarity (m.diagram.tree f) (m.diagram.tree cube).spine := by
  unfold Request.satOneSet
  dsimp only
  split
  · rename_i hbot
    refine fun m hm _ => ⟨.inl (eq_of_beq hbot ▸ rfl), ?_⟩
    show m.diagram.tree f = Tree.satOneSet polarity (m.diagram.tree f) _
    rw [hm.tree_leaf_of_isBot hbot]
    exact Tree.literals_false.symm
  · refine .exclusive (F := fun _ tree => Tree.satOneSet polarity (tree f) (tree cube).spine)
      (fun m hm hk => ?_) fun _ _ _ h => by simp [h]
    have hdepth : m.depth = m.varNum + 2 := rfl
    exact .satOneSet hm (hm.operand (hk f (by simp))) (hm.operand (hk cube (by simp))) (by lia)

theorem Delivers.fullSatOne (f : NodeId) : Delivers (Request.fullSatOne f) fun m t =>
    t = ((m.diagram.tree f).fullSatOne m.varNum).fill 0 ((m.diagram.tree f).levelOr m.varNum) := by
  unfold Request.fullSatOne
  split
  · rename_i hbot
    refine .checked fun m hm _ => ?_
    rw [hm.tree_leaf_of_isBot hbot]
    exact Tree.literals_false.symm
  · exact .exclusive (F := fun d tree => ((tree f).fullSatOne d).fill 0 ((tree f).levelOr d))
      (fun m hm hk => .fullSatOneFromTop hm (hk f (by simp))) fun _ _ _ h => by simp [h]

/-- The cube of the levels below a node, in a manager that keeps nothing else pending. -/
theorem ensures_support (hm : m.Sound) (hp : m.pending = []) {f : NodeId} (hf : m.diagram.Live f) :
    Program.Ensures m.varNum m (do Program.cube (← Program.levelsBelow f)) (fun _ _ => True) m
      fun res m' => m'.diagram.Live res ∧ ∀ x, (m'.diagram.tree res).eval x = true ↔
        ∀ l ∈ (m.diagram.tree f).levels, x l = true := by
  obtain ⟨levels, hlevels, hmem⟩ := hm.exists_levelsBelow hf
  have hobserve : Observes m (Program.levelsBelow f) (· = levels) :=
    ⟨rfl, levels, by simp only [Step.exec, Build.read, hlevels], rfl⟩
  have hlt : ∀ l ∈ levels, l < m.varNum := fun l hl => by
    have hbelow := (hm.reduced.unfolds hf).mem_levels hm.reduced.inner |>.mp ((hmem l).mp hl)
    obtain ⟨id, n, -, hn, rfl⟩ := hbelow
    exact hm.reduced.label_lt hn
  refine Ensures.bind (hobserve.ensures hm _) ?_
  rintro _ _ - - ⟨rfl, rfl⟩
  refine (ensures_cube hm hp hlt).mono fun _ _ _ _ hcube => ⟨hcube.1, fun x => ?_⟩
  rw [hcube.2]
  exact forall_congr' fun l => by rw [hmem]

theorem Delivers.support (f : NodeId) : Delivers (Request.support f) fun m t =>
    ∀ x, t.eval x = true ↔ ∀ l ∈ (m.diagram.tree f).levels, x l = true := by
  refine .of_ensures fun _ e _ _ ho => ?_
  have hk := ho.kept f (by simp)
  refine (ensures_support ho.sound ho.pending (ho.sound.kept_live hk)).mono
    fun _ _ _ _ ⟨hlive, heval⟩ => ⟨hlive, fun hm' hev x => ?_⟩
  rw [heval, ho.sound.tree hm' hev hk]

end Request

end DecisionDiagram
