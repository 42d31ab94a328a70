/-
The cofactors by a care set are right.

Outside its care set, the generalised cofactor has the value that its operand has at the nearest
assignment within.  What is nearest depends on the order: the care set is walked down from the root, and a
variable is flipped only where the branch that the assignment takes is false.  A call that is
interrupted goes this way in the order that it ends with.  Only for a cube of literals all ways lead to
the same assignment.

* `Manager.nearest` — this assignment;
* `Manager.Repairs` — a map of the assignments into a care set, of which there is only one for a cube
  (`Manager.ConjoinsLiterals.image_eq`);
* `Request.meets_constrain`, `Request.meets_simplify` — the requests, in terms of meanings;
* `Manager.Settled.constraining`, `Manager.Settled.simplification` — the answers of every call.
-/
import DecisionDiagram.Proofs.Dependence
import DecisionDiagram.Proofs.Tree.Projection

namespace DecisionDiagram

namespace Manager

variable {m m' n s : Manager} {f g g' h care res : NodeId} {v : Var} {assignment : Array Bool}

/-! ### Walks -/

/-- The variable of an inner node and its children, as the calls answer them. -/
def parts? (m : Manager) (f : NodeId) : Option (Var × NodeId × NodeId) :=
  match m.varOf f, m.low f, m.high f with
  | .ok v, .ok low, .ok high => some (v, low, high)
  | _, _, _ => none

theorem Sound.parts?_node (hm : m.Sound) {r : Node} (hr : m.diagram f = some r) :
    ∃ v, m.parts? f = some (v, r.low, r.high) ∧ m.order.levelOf[v]? = some r.level ∧
      v < m.varNum := by
  obtain ⟨v, hv, hlevel, hlt⟩ := hm.varOf_node hr
  exact ⟨v, by rw [parts?, hv, hm.low_node hr, hm.high_node hr], hlevel, hlt⟩

theorem parts?_terminal (ht : f.isTerminal = true) : m.parts? f = none := by
  rw [parts?]
  split
  · rename_i h _ _
    exact absurd h (varOf_terminal ht _)
  · rfl

/-- Walks down from a node, at most `n` steps, and flips a variable where the branch would be false. -/
def nearestFrom (m : Manager) : Nat → NodeId → Array Bool → Array Bool
  | 0, _, assignment => assignment
  | n + 1, f, assignment =>
    match m.parts? f with
    | none => assignment
    | some (v, low, high) =>
      if valuation assignment v then
        if high.isBot then m.nearestFrom n low (assignment.setIfInBounds v false)
        else m.nearestFrom n high assignment
      else if low.isBot then m.nearestFrom n high (assignment.setIfInBounds v true)
      else m.nearestFrom n low assignment

/-- The assignment that the walk along the care set ends with. -/
def nearest (m : Manager) (care : NodeId) (assignment : Array Bool) : Array Bool :=
  m.nearestFrom m.depth care assignment

theorem nearest_unkept (m : Manager) (care : NodeId) (pending operands : List NodeId)
    (auto : AutoReorder) : nearest { m with pending, operands, auto } care = m.nearest care := by
  have h : ∀ n f, nearestFrom { m with pending, operands, auto } n f = m.nearestFrom n f := fun n => by
    induction n with
    | zero => exact fun _ => rfl
    | succ n ih =>
      intro f
      funext assignment
      simp only [nearestFrom, ih]
      rfl
  exact h m.depth care

/-- The levels have the values that `image` gives to the variables there, and `image` is the assignment
but for known variables. -/
structure Tracks (m : Manager) (x : Level → Bool) (assignment image : Array Bool) : Prop where
  size : image.size = assignment.size
  value : ∀ w l, m.order.levelOf[w]? = some l → x l = valuation image w
  other : ∀ w, m.order.levelOf[w]? = none → valuation image w = valuation assignment w

variable {x : Level → Bool} {image : Array Bool}

theorem Sound.tracks (hm : m.Sound) (assignment : Array Bool) :
    m.Tracks (fun l => valuation assignment (m.order.varAt.getD l 0)) assignment assignment :=
  ⟨rfl, hm.getD_agrees _, fun _ _ => rfl⟩

theorem Tracks.set (h : m.Tracks x assignment image) (hm : m.Sound) {l : Level}
    (hl : m.order.levelOf[v]? = some l) (hv : v < image.size) (b : Bool) :
    m.Tracks (Function.update x l b) assignment (image.setIfInBounds v b) where
  size := by rw [Array.size_setIfInBounds, h.size]
  value := by
    rw [valuation_set hv]
    exact hm.update_agrees hl h.value b
  other w hw := by
    have hwv : w ≠ v := fun heq => by
      rw [heq, hl] at hw
      cases hw
    rw [valuation_set hv, Function.update_of_ne hwv, h.other w hw]

/-- The value of a tree at the levels is the meaning of its node at the image. -/
theorem Tracks.eval_tree (h : m.Tracks x assignment image) (hm : m.Sound) (hf : m.diagram.Live f) :
    (m.diagram.tree f).eval x = m.meaning f (valuation image) := hm.eval_eq_meaning hf h.value

/-- In one order, what tracks the same levels is the same. -/
theorem Tracks.valuation_eq {image' : Array Bool} (h : m.Tracks x assignment image)
    (h' : n.Tracks x assignment image') (ho : n.order = m.order) :
    valuation image' = valuation image := by
  funext v
  rcases hl : m.order.levelOf[v]? with _ | l
  · rw [h.other v hl, h'.other v (ho ▸ hl)]
  · rw [← h.value v l hl, ← h'.value v l (ho ▸ hl)]

theorem Sound.isBot_iff_tree (hm : m.Sound) (hf : m.diagram.Live f) :
    f.isBot = true ↔ m.diagram.tree f = .leaf false :=
  ⟨hm.tree_leaf_of_isBot, fun hleaf => by_contra fun hbot => hm.tree_ne_false hf hbot hleaf⟩

/-- The walk has the values of the one along the tree. -/
theorem Tracks.nearestFrom (h : m.Tracks x assignment image) (hm : m.Sound) {k bound : Nat}
    (hf : m.diagram.Under id k f) (hbound : m.varNum ≤ bound + k) (ha : m.varNum ≤ assignment.size) :
    m.Tracks ((m.diagram.tree f).nearest x) assignment (m.nearestFrom bound f image) := by
  induction bound generalizing f k image x with
  | zero =>
    rw [hm.reduced.tree_terminal (hm.isTerminal_of_under hf (by lia))]
    exact h
  | succ bound ih =>
    rcases hf with ht | ⟨r, hr, hle⟩
    · rw [hm.reduced.tree_terminal ht, Manager.nearestFrom, parts?_terminal ht]
      exact h
    -- The record read off the manager and the root of the tree decide the same variable.
    obtain ⟨v, hparts, hl, hv⟩ := hm.parts?_node hr
    have hle : k ≤ r.level := hle
    have hv : v < image.size := h.size ▸ Nat.lt_of_lt_of_le hv ha
    have hlow : m.diagram.Under id (r.level + 1) r.low := hm.reduced.below hr false
    have hhigh : m.diagram.Under id (r.level + 1) r.high := hm.reduced.below hr true
    rw [hm.reduced.tree_node hr, Tree.nearest, Manager.nearestFrom, hparts]
    simp only [h.value v r.level hl, hm.isBot_iff_tree hlow.live,
      hm.isBot_iff_tree hhigh.live]
    split
    · split
      · exact ih (h.set hm hl hv false) hlow (by lia)
      · exact ih h hhigh (by lia)
    · split
      · exact ih (h.set hm hl hv true) hhigh (by lia)
      · exact ih h hlow (by lia)

theorem Tracks.nearest (h : m.Tracks x assignment image) (hm : m.Sound) (hf : m.diagram.Live f)
    (ha : m.varNum ≤ assignment.size) :
    m.Tracks ((m.diagram.tree f).nearest x) assignment (m.nearest f image) :=
  h.nearestFrom hm hf.under (by rw [depth]; lia) ha

/-! ### Maps into a care set -/

/-- The care set holds at the image of every assignment, which differs from the assignment only in
variables that the care set depends on. -/
structure Repairs (m : Manager) (care : NodeId) (image : Array Bool → Array Bool) : Prop where
  size : ∀ assignment, m.varNum ≤ assignment.size → (image assignment).size = assignment.size
  holds : ∀ assignment, m.varNum ≤ assignment.size →
    m.meaning care (valuation (image assignment)) = true
  keeps : ∀ assignment, m.varNum ≤ assignment.size → ∀ v, ¬ m.DependsOn care v →
    valuation (image assignment) v = valuation assignment v

/-- A map is of that kind if it tracks one of the levels which leads into the tree of the care set. -/
theorem Sound.repairs (hm : m.Sound) (hcare : m.diagram.Live care) {image : Array Bool → Array Bool}
    (walk : (Level → Bool) → Level → Bool)
    (htracks : ∀ assignment, m.varNum ≤ assignment.size →
      m.Tracks (walk fun l => valuation assignment (m.order.varAt.getD l 0)) assignment
        (image assignment))
    (hholds : ∀ x, (m.diagram.tree care).eval (walk x) = true)
    (hkeeps : ∀ x, ∀ l ∉ (m.diagram.tree care).levels, walk x l = x l) : m.Repairs care image where
  size assignment ha := (htracks assignment ha).size
  holds assignment ha := by rw [← (htracks assignment ha).eval_tree hm hcare, hholds]
  keeps assignment ha v hv := by
    rcases hl : m.order.levelOf[v]? with _ | l
    · exact (htracks assignment ha).other v hl
    · have hmem : l ∉ (m.diagram.tree care).levels := fun hmem =>
        hv ((hm.dependsOn_iff_levels hcare).mpr ⟨l, hmem, hl⟩)
      rw [← (htracks assignment ha).value v l hl, hkeeps _ l hmem]
      exact hm.getD_agrees _ v l hl

theorem Sound.repairs_nearest (hm : m.Sound) (hcare : m.diagram.Live care)
    (hbot : ¬ care.isBot = true) : m.Repairs care (m.nearest care) :=
  hm.repairs hcare (m.diagram.tree care).nearest
    (fun assignment ha => (hm.tracks assignment).nearest hm hcare ha)
    ((hm.reduced.tree_proper hcare.under).eval_nearest (hm.tree_ne_false hcare hbot))
    fun x _ hl => Tree.nearest_apply hl x

/-- The node is the conjunction of literals, each a known variable with its value. -/
structure ConjoinsLiterals (m : Manager) (f : NodeId) (lits : List (Var × Bool)) : Prop where
  known : ∀ l ∈ lits, l.1 < m.varNum
  eval : ∀ assignment : Array Bool, m.varNum ≤ assignment.size →
    m.eval f assignment = .ok (lits.all fun l => valuation assignment l.1 == l.2)

variable {lits : List (Var × Bool)}

theorem ConjoinsLiterals.meaning (h : m.ConjoinsLiterals f lits) (hm : m.Sound)
    (hf : m.diagram.Live f) (a : Var → Bool) :
    m.meaning f a = true ↔ ∀ l ∈ lits, a l.1 = l.2 := by
  obtain ⟨assignment, hsize, hvaluation⟩ := exists_valuation m.varNum a
  have hvalue := h.eval assignment hsize.ge
  rw [hm.eval_eq hf hsize.ge, hm.meaning_congr hf hvaluation] at hvalue
  rw [Except.ok.inj hvalue, List.all_eq_true]
  exact forall₂_congr fun l hl => by rw [hvaluation l.1 (h.known l hl), beq_iff_eq]

/-- A cube depends on the variables of its literals only. -/
theorem ConjoinsLiterals.not_dependsOn (h : m.ConjoinsLiterals f lits) (hm : m.Sound)
    (hf : m.diagram.Live f) (hv : ∀ l ∈ lits, l.1 ≠ v) : ¬ m.DependsOn f v := by
  rw [hm.dependsOn_iff hf]
  rintro ⟨a, ha⟩
  refine ha (Bool.eq_iff_iff.mpr ?_)
  rw [h.meaning hm hf, h.meaning hm hf]
  exact forall₂_congr fun l hl => by
    rw [Function.update_of_ne (hv l hl), Function.update_of_ne (hv l hl)]

/-- A map into the cube sets its literals and nothing else, whatever the order is. -/
theorem ConjoinsLiterals.sets (h : m.ConjoinsLiterals f lits) (hm : m.Sound) (hn : n.Sound)
    (hg : m.Agrees f n g) {image : Array Bool → Array Bool} (hi : n.Repairs g image)
    (ha : n.varNum ≤ assignment.size) :
    (∀ l ∈ lits, valuation (image assignment) l.1 = l.2) ∧
      ∀ v, (∀ l ∈ lits, l.1 ≠ v) → valuation (image assignment) v = valuation assignment v := by
  obtain ⟨hf, hg, heq⟩ := (hm.agrees_iff hn).mp hg
  refine ⟨(h.meaning hm hf _).mp (heq ▸ hi.holds assignment ha), fun v hv => ?_⟩
  refine hi.keeps assignment ha v fun hdepends => h.not_dependsOn hm hf hv ?_
  rwa [hm.dependsOn_iff hf, heq, ← hn.dependsOn_iff hg]

/-- Into a cube there is one map only, whatever the orders are. -/
theorem ConjoinsLiterals.image_eq (h : m.ConjoinsLiterals f lits) (hm : m.Sound) (hn : n.Sound)
    (hs : s.Sound) (hg : m.Agrees f n g) (hg' : m.Agrees f s g')
    {image image' : Array Bool → Array Bool} (hi : n.Repairs g image) (hi' : s.Repairs g' image')
    (ha : n.varNum ≤ assignment.size) (ha' : s.varNum ≤ assignment.size) :
    valuation (image assignment) = valuation (image' assignment) := by
  obtain ⟨hset, hrest⟩ := h.sets hm hn hg hi ha
  obtain ⟨hset', hrest'⟩ := h.sets hm hs hg' hi' ha'
  funext v
  -- Both maps set the variables of the literals as the cube says, and keep the others.
  by_cases hv : ∃ l ∈ lits, l.1 = v
  · obtain ⟨l, hl, rfl⟩ := hv
    rw [hset l hl, hset' l hl]
  · have hv : ∀ l ∈ lits, l.1 ≠ v := fun l hl heq => hv ⟨l, hl, heq⟩
    rw [hrest v hv, hrest' v hv]

/-- In one order the walk along the same function is the same. -/
theorem Sound.nearest_eq (hm : m.Sound) (hn : n.Sound) (ho : n.order = m.order)
    (hg : m.Agrees f n g) (ha : m.varNum ≤ assignment.size) :
    valuation (n.nearest g assignment) = valuation (m.nearest f assignment) := by
  obtain ⟨hf, hg, heq⟩ := (hm.agrees_iff hn).mp hg
  have htree := hm.tree_eq_of_meaning hn ho hf hg heq.symm
  have hvar : n.varNum = m.varNum := congrArg VarOrder.size ho
  have h := (hm.tracks assignment).nearest hm hf ha
  have h' := (hn.tracks assignment).nearest hn hg (hvar.trans_le ha)
  rw [htree, ho] at h'
  exact h.valuation_eq h' ho

/-! ### Connectives -/

/-- At each assignment the value of `h` is what the connective makes of the values of `f` and `g`.  Each
of the nodes is in its own manager. -/
def Joins (op : Connective) (m : Manager) (f : NodeId) (n : Manager) (g : NodeId) (s : Manager)
    (h : NodeId) : Prop :=
  ∀ assignment : Array Bool, m.varNum ≤ assignment.size → n.varNum ≤ assignment.size →
    s.varNum ≤ assignment.size → ∃ b c, m.eval f assignment = .ok b ∧ n.eval g assignment = .ok c ∧
      s.eval h assignment = .ok (op.eval b c)

theorem Sound.joins_iff (hm : m.Sound) (hn : n.Sound) (hs : s.Sound) {op : Connective} :
    Joins op m f n g s h ↔ (m.diagram.Live f ∧ n.diagram.Live g ∧ s.diagram.Live h) ∧
      s.meaning h = fun a => op.eval (m.meaning f a) (n.meaning g a) := by
  constructor
  · intro hjoins
    have sized : ∀ a : Var → Bool, ∃ assignment : Array Bool,
        (m.varNum ≤ assignment.size ∧ n.varNum ≤ assignment.size ∧ s.varNum ≤ assignment.size) ∧
        ∀ v, v < max m.varNum (max n.varNum s.varNum) → valuation assignment v = a v := fun a => by
      obtain ⟨assignment, hsize, hvaluation⟩ :=
        exists_valuation (max m.varNum (max n.varNum s.varNum)) a
      exact ⟨assignment, by omega, hvaluation⟩
    have value : ∀ a : Var → Bool, (m.diagram.Live f ∧ n.diagram.Live g ∧ s.diagram.Live h) ∧
        s.meaning h a = op.eval (m.meaning f a) (n.meaning g a) := fun a => by
      obtain ⟨assignment, ⟨ha, ha', ha''⟩, hvaluation⟩ := sized a
      obtain ⟨b, c, hb, hc, hbc⟩ := hjoins assignment ha ha' ha''
      obtain ⟨-, hf, rfl⟩ := hm.meaning_of_eval hb
      obtain ⟨-, hg, rfl⟩ := hn.meaning_of_eval hc
      obtain ⟨-, hh, heq⟩ := hs.meaning_of_eval hbc
      refine ⟨⟨hf, hg, hh⟩, ?_⟩
      rw [← hm.meaning_congr hf fun v hv => hvaluation v (by omega),
        ← hn.meaning_congr hg fun v hv => hvaluation v (by omega),
        ← hs.meaning_congr hh fun v hv => hvaluation v (by omega), heq]
    exact ⟨(value fun _ => false).1, funext fun a => (value a).2⟩
  · rintro ⟨⟨hf, hg, hh⟩, heq⟩ assignment ha ha' ha''
    exact ⟨_, _, hm.eval_eq hf ha, hn.eval_eq hg ha', by rw [hs.eval_eq hh ha'', heq]⟩

end Manager

/-! ### The requests -/

namespace Request

open Program Manager

variable {m : Manager} {f care : NodeId}

/-- What the answer of `constrain` has to mean.  The care set goes on to mean the same. -/
theorem meets_constrain (hm : m.Ready) (hbot : ¬ care.isBot = true) :
    (constrain f care).Meets (fun res m' => (m.diagram.Live f ∧ m.diagram.Live care) ∧
      (m'.diagram.Live care ∧ m'.meaning care = m.meaning care) ∧
      ∀ assignment, m'.varNum ≤ assignment.size → m'.meaning res (valuation assignment) =
        m.meaning f (valuation (m'.nearest care assignment))) m := by
  refine meets_yields hm fun _ hlive e he _ hk hsame => ?_
  have hf := hk f (by simp)
  have hcare := hk care (by simp)
  refine ⟨_, .depth he (.constrain_depth he hf hcare), fun res m' hev hm' htree => ?_⟩
  obtain ⟨hf', hmeaning⟩ := hev.meaning he hm' hf
  obtain ⟨hcare', hmeaning'⟩ := hev.meaning he hm' hcare
  refine ⟨⟨hlive f (by simp), hlive care (by simp)⟩,
    ⟨hcare', hmeaning'.trans (hsame care (by simp))⟩, fun assignment ha => ?_⟩
  rw [← he.tree hm' hev hf, ← he.tree hm' hev hcare] at htree
  rw [meaning, htree, (hm'.reduced.tree_proper hf'.under).eval_constrain
    (hm'.reduced.tree_proper hcare'.under) (hm'.tree_ne_false hcare' hbot),
    ((hm'.tracks assignment).nearest hm' hcare' ha).eval_tree hm' hf', hmeaning, hsame f (by simp)]

/-- What the answer of `simplify` has to mean. -/
theorem meets_simplify (hm : m.Ready) :
    (simplify f care).Meets (fun res m' => m.diagram.Live f ∧
      (∀ a, m.meaning care a = true → m'.meaning res a = m.meaning f a) ∧
      ∀ a v, m'.meaning res (Function.update a v false) ≠
        m'.meaning res (Function.update a v true) → m.DependsOn f v) m := by
  refine meets_yields hm fun _ hlive e he _ hk hsame => ?_
  have hf := hk f (by simp)
  have hcare := hk care (by simp)
  have hlive' := he.kept_live hf
  refine ⟨_, .depth he (.simplify_depth he hf hcare), fun res m' hev hm' htree =>
    ⟨hlive f (by simp), fun a ha => ?_, fun a v hv => ?_⟩⟩
  · rw [← hsame care (by simp)] at ha
    rw [meaning, htree, hev.order, ((he.operand hf).proper he).eval_simplify
      ((he.operand hcare).proper he) ha, ← hsame f (by simp), meaning]
  · -- The variable stands at a level that the result decides.
    obtain ⟨l, hl, hat⟩ : ∃ l ∈ (e.diagram.tree f).levels, e.order.varAt.getD l 0 = v := by
      by_contra hnone
      rw [meaning, meaning, htree, hev.order] at hv
      refine hv (Tree.eval_congr_levels fun l hl => ?_)
      have hne : e.order.varAt.getD l 0 ≠ v := fun heq =>
        hnone ⟨l, Tree.mem_levels_of_simplify hl, heq⟩
      rw [Function.update_of_ne hne, Function.update_of_ne hne]
    obtain ⟨w, -, hget, hof, -⟩ := he.order.getD_varAt (he.lt_of_mem_levels hlive' hl)
    obtain rfl := hget.symm.trans hat
    have hdepends := (he.dependsOn_iff_levels hlive').mpr ⟨l, hl, hof⟩
    rwa [he.dependsOn_iff hlive', hsame f (by simp), ← hm.toSound.dependsOn_iff (hlive f (by simp))]
      at hdepends

end Request

/-! ### Answers -/

namespace Manager

variable {m m' n s : Manager} {f g g' care : NodeId} {answer : Answer}

theorem Agrees.trans (h : m.Agrees f n g) (hm : m.Sound) (hn : n.Sound) (hs : s.Sound)
    (h' : n.Agrees g s g') : m.Agrees f s g' := by
  rw [hm.agrees_iff hn] at h
  rw [hn.agrees_iff hs] at h'
  exact (hm.agrees_iff hs).mpr ⟨h.1, h'.2.1, h.2.2.trans h'.2.2⟩

theorem Sound.isBot_iff (hm : m.Sound) (hf : m.diagram.Live f) :
    f.isBot = true ↔ ∀ a, m.meaning f a = false := by
  rw [hm.isBot_iff_tree hf]
  constructor
  · intro hleaf a
    rw [meaning, hleaf, Tree.eval_leaf]
  · intro hfalse
    refine Tree.eq_of_eval (hm.reduced.tree_proper hf.under) (.leaf 0 false) fun x => ?_
    rw [hm.eval_tree hf, hfalse, Tree.eval_leaf]

theorem Agrees.isBot_eq (h : m.Agrees f n g) (hm : m.Sound) (hn : n.Sound) : g.isBot = f.isBot := by
  obtain ⟨hf, hg, heq⟩ := (hm.agrees_iff hn).mp h
  rw [Bool.eq_iff_iff, hm.isBot_iff hf, hn.isBot_iff hg, heq]

/-- Where the care set holds, nothing is flipped. -/
theorem Sound.nearest_of_holds (hm : m.Sound) {assignment : Array Bool}
    (ha : m.varNum ≤ assignment.size) (hcare : m.diagram.Live care)
    (h : m.meaning care (valuation assignment) = true) :
    valuation (m.nearest care assignment) = valuation assignment := by
  have htracks := hm.tracks assignment
  have hwalk := htracks.nearest hm hcare ha
  rw [Tree.nearest_eq ((htracks.eval_tree hm hcare).trans h)] at hwalk
  funext v
  rcases hl : m.order.levelOf[v]? with _ | l
  · exact hwalk.other v hl
  · exact (hwalk.value v l hl).symm.trans (htracks.value v l hl)

/-- The walks along the care sets of two calls end alike if the care sets are the same cube of literals,
the same function in one order, or happen to lead to the same assignments. -/
theorem Sound.nearest_alike {c c' c'' : NodeId} {assignment : Array Bool} (hm : m.Sound) (hn : n.Sound)
    (hs : s.Sound) (hc : m.Agrees c n c') (hc' : m.Agrees c s c'') (hbot : ¬ c'.isBot = true)
    (hbot' : ¬ c''.isBot = true) (ha : n.varNum ≤ assignment.size) (ha' : s.varNum ≤ assignment.size)
    (h : (∃ lits, m.ConjoinsLiterals c lits) ∨ s.order.toList = n.order.toList ∨
      s.nearest c'' assignment = n.nearest c' assignment) :
    valuation (s.nearest c'' assignment) = valuation (n.nearest c' assignment) := by
  have hlive := ((hm.agrees_iff hn).mp hc).2.1
  have hlive' := ((hm.agrees_iff hs).mp hc').2.1
  rcases h with ⟨lits, hlits⟩ | ho | heq
  · exact hlits.image_eq hm hs hn hc' hc (hs.repairs_nearest hlive' hbot')
      (hn.repairs_nearest hlive hbot) ha' ha
  · refine hn.nearest_eq hs (hn.order.eq_of_toList hs.order ho) ?_ ha
    exact (hn.agrees_iff hs).mpr ⟨hlive, hlive', ((hm.agrees_iff hn).mp hc).2.2.symm.trans
      ((hm.agrees_iff hs).mp hc').2.2⟩
  · rw [heq]

/-- Simplification is right.  The result agrees with the operand on the care set, and depends on no
variable that the operand does not depend on. -/
theorem Settled.simplification (hm : m.Settled)
    (h : (Command.simplify f care).run m = (.ok answer, m')) :
    ∃ res, answer = .node res ∧ m'.store.isLive res = true ∧ m.AgreesOn care f m' res ∧
      ∀ v, m'.DependsOn res v → m.DependsOn f v := by
  have hready := hm.ready
  obtain ⟨res, hanswer, hcompletes, -, hlive, hf, hagrees, hdepends⟩ := Command.answered hready
    (c := .simplify f care) rfl (fun h _ _ _ => h) (Request.meets_simplify hready) h
  have hsound := hcompletes.ready.toSound
  refine ⟨res, hanswer, hsound.store.live_iff.mp hlive,
    .of_meaning hready.toSound hsound hf hlive hagrees, fun v hv => ?_⟩
  obtain ⟨a, ha⟩ := (hsound.dependsOn_iff hlive).mp hv
  exact hdepends a v ha

/-- The operand lies below the root of the care set, which is widened for it. -/
theorem simplification_widened :
    ∃ m m', after (.small 12 64) [.setVarNum 3, .apply .xor 4 6, .apply .and 2 4] = some m ∧
      (Command.simplify 8 9).run m = (.ok (.node 7), m') ∧ m.AgreesOn 9 8 m' 7 ∧
      ∀ v, m'.DependsOn 7 v → m.DependsOn 8 v := by
  have hrun : (after (.small 12 64) [.setVarNum 3, .apply .xor 4 6, .apply .and 2 4]).any fun m =>
      (Command.simplify 8 9).node? m == some 7 := by
    decide +kernel
  obtain ⟨m, hm, hnode⟩ := (Option.any_eq_true _ _).mp hrun
  have hrun : (Command.simplify 8 9).run m = (.ok (.node 7), _) :=
    Prod.ext (Command.run_of_node? (beq_iff_eq.mp hnode)) rfl
  obtain ⟨res, hres, -, hagrees, hdepends⟩ := (settled_after hm).simplification hrun
  obtain rfl : 7 = res := Answer.node.inj hres
  exact ⟨m, _, hm, hrun, hagrees, hdepends⟩

/-- What a call of `constrain` answers, in terms of meanings. -/
theorem Settled.constrained (hm : m.Settled) (hbot : care.isBot = false)
    (h : (Command.constrain f care).run m = (.ok answer, m')) :
    ∃ res, answer = .node res ∧ m.Completes [] m' ∧ m'.diagram.Live res ∧ m.diagram.Live f ∧
      m.Agrees care m' care ∧ ∀ assignment, m'.varNum ≤ assignment.size →
        m'.meaning res (valuation assignment) =
          m.meaning f (valuation (m'.nearest care assignment)) := by
  have hready := hm.ready
  obtain ⟨res, hanswer, hcompletes, -, hlive, ⟨hf, hc⟩, ⟨hc', hsame⟩, hmeaning⟩ :=
    Command.answered hready (c := .constrain f care) rfl
      (fun h _ _ _ => (nearest_unkept _ care _ _ _).symm ▸ h)
      (Request.meets_constrain hready (Bool.eq_false_iff.mp hbot)) h
  exact ⟨res, hanswer, hcompletes, hlive, hf, (hready.toSound.agrees_iff hcompletes.ready.toSound).mpr
    ⟨hc, hc', hsame.symm⟩, hmeaning⟩

/-- The generalised cofactor is right.  At each assignment its result has the value that the operand has
at the nearest one within the care set, in the order that the call ends with.  If that is the order it
began with, or the care set is a cube of literals, then it is the one from before the call.  In any case
the result agrees with the operand on the care set.  The results of three calls are joined by
a connective if their operands are, and if what is nearest is the same in all of them. -/
theorem Settled.constraining (hm : m.Settled) :
    (∀ f care answer m', care.isBot = false → (Command.constrain f care).run m = (.ok answer, m') →
      ∃ res, answer = .node res ∧ m'.store.isLive res = true ∧
        m.Composes f (m'.nearest care) res m' ∧ m.AgreesOn care f m' res ∧
        (m'.order.toList = m.order.toList ∨ (∃ lits, m.ConjoinsLiterals care lits) →
          m.Composes f (m.nearest care) res m')) ∧
    ∀ op n s f g h c c' c'' res res' res'' m' n' s', n.Settled → s.Settled → c.isBot = false →
      (Command.constrain f c).run m = (.ok (.node res), m') →
      (Command.constrain g c').run n = (.ok (.node res'), n') →
      (Command.constrain h c'').run s = (.ok (.node res''), s') →
      m.Agrees c n c' → m.Agrees c s c'' → Joins op m f n g s h →
      ((∃ lits, m.ConjoinsLiterals c lits) ∨
        (n'.order.toList = m'.order.toList ∧ s'.order.toList = m'.order.toList) ∨
        ∀ assignment, n'.nearest c' assignment = m'.nearest c assignment ∧
          s'.nearest c'' assignment = m'.nearest c assignment) →
      Joins op m' res n' res' s' res'' := by
  have hsound := hm.ready.toSound
  refine ⟨fun f care answer m' hbot h => ?_, ?_⟩
  · obtain ⟨res, hanswer, hcompletes, hlive, hf, hcare, hmeaning⟩ := hm.constrained hbot h
    have hsound' := hcompletes.ready.toSound
    have hvar := hcompletes.retains.varNum
    obtain ⟨hc, hc', hsame⟩ := (hsound.agrees_iff hsound').mp hcare
    have hbot' := Bool.eq_false_iff.mp hbot
    have hrepairs := hsound'.repairs_nearest hc' hbot'
    refine ⟨res, hanswer, hsound'.store.live_iff.mp hlive,
      .of_meaning hsound hsound' hf hlive (fun assignment ha => ?_) hmeaning,
      fun assignment ha htrue => ?_, fun hkept => .of_meaning hsound hsound' hf hlive
        (fun assignment ha => ?_) fun assignment ha => ?_⟩
    · exact Nat.le_trans (Nat.le_trans hvar ha) (hrepairs.size assignment ha).ge
    · obtain ⟨ha', -, htrue⟩ := hsound.meaning_of_eval htrue
      refine ⟨_, hsound.eval_eq hf ha', ?_⟩
      rw [hsound'.eval_eq hlive ha, hmeaning assignment ha,
        hsound'.nearest_of_holds ha hc' (hsame ▸ htrue)]
    · have ha := Nat.le_trans hvar ha
      exact Nat.le_trans ha ((hsound.repairs_nearest hc hbot').size assignment ha).ge
    · rw [hmeaning assignment ha]
      exact congrArg _ (hsound.nearest_alike hsound hsound' (hsound.agrees_self hc) hcare hbot' hbot'
        (Nat.le_trans hvar ha) ha (hkept.symm.imp_right .inl))
  · intro op n s f g h c c' c'' res res' res'' m' n' s' hn hs hbot hf hg hh hc hc' hjoins hwalk
    have hn₀ := hn.ready.toSound
    have hs₀ := hs.ready.toSound
    have hbot' := (hc.isBot_eq hsound hn₀).trans hbot
    have hbot'' := (hc'.isBot_eq hsound hs₀).trans hbot
    obtain ⟨_, hres, hcompletes, hlive, -, hcare, hmeaning⟩ := hm.constrained hbot hf
    obtain rfl := Answer.node.inj hres
    obtain ⟨_, hres, hcompletes', hlive', -, hcare', hmeaning'⟩ := hn.constrained hbot' hg
    obtain rfl := Answer.node.inj hres
    obtain ⟨_, hres, hcompletes'', hlive'', -, hcare'', hmeaning''⟩ := hs.constrained hbot'' hh
    obtain rfl := Answer.node.inj hres
    have hm₁ := hcompletes.ready.toSound
    have hn₁ := hcompletes'.ready.toSound
    have hs₁ := hcompletes''.ready.toSound
    have hcn := hc.trans hsound hn₀ hn₁ hcare'
    have hcs := hc'.trans hsound hs₀ hs₁ hcare''
    obtain ⟨-, hvalue⟩ := (hsound.joins_iff hn₀ hs₀).mp hjoins
    intro assignment ha ha' ha''
    -- All three walks end alike, so the values are those of the operands at one assignment.
    have hwalk' : valuation (n'.nearest c' assignment) = valuation (m'.nearest c assignment) :=
      hsound.nearest_alike hm₁ hn₁ hcare hcn (Bool.eq_false_iff.mp hbot) (Bool.eq_false_iff.mp hbot')
        ha ha' (hwalk.imp_right (Or.imp And.left fun h => (h assignment).1))
    have hwalk'' : valuation (s'.nearest c'' assignment) = valuation (m'.nearest c assignment) :=
      hsound.nearest_alike hm₁ hs₁ hcare hcs (Bool.eq_false_iff.mp hbot) (Bool.eq_false_iff.mp hbot'')
        ha ha'' (hwalk.imp_right (Or.imp And.right fun h => (h assignment).2))
    refine ⟨_, _, hm₁.eval_eq hlive ha, hn₁.eval_eq hlive' ha', ?_⟩
    rw [hs₁.eval_eq hlive'' ha'', hmeaning'' assignment ha'', hmeaning' assignment ha',
      hmeaning assignment ha, hwalk', hwalk'', hvalue]

/-- Two variables and their exclusive disjunction, where at least one of them is true. -/
theorem constraining_parity :
    ∃ m m' n' s', after (.small 10 64) [.setVarNum 2, .apply .or 2 4, .apply .xor 2 4] = some m ∧
      (Command.constrain 2 6).run m = (.ok (.node 2), m') ∧
      (Command.constrain 4 6).run m = (.ok (.node 8), n') ∧
      (Command.constrain 7 6).run m = (.ok (.node 8), s') ∧
      m.nearest 6 #[false, false] = #[false, true] ∧ m.Composes 4 (m.nearest 6) 8 n' ∧
      m.AgreesOn 6 4 n' 8 ∧ Joins .xor m 2 m 4 m 7 ∧ Joins .xor m' 2 n' 8 s' 8 := by
  have hrun : (after (.small 10 64) [.setVarNum 2, .apply .or 2 4, .apply .xor 2 4]).any fun m =>
      let orders := [2, 4, 7].map fun f => ((Command.constrain f 6).run m).2.order.toList
      (Command.constrain 2 6).node? m == some 2 && (Command.constrain 4 6).node? m == some 8 &&
      (Command.constrain 7 6).node? m == some 8 && m.order.toList == [0, 1] &&
      orders == [[0, 1], [0, 1], [0, 1]] && m.nearest 6 #[false, false] == #[false, true] &&
      m.literals[0]? == some (2, 3) && m.literals[1]? == some (4, 5) &&
      m.diagram 7 == some ⟨0, 4, 5⟩ && m.order.varAt.getD 0 0 == 0 && m.store.isLive 6 := by
    decide +kernel
  obtain ⟨m, hm, hfacts⟩ := (Option.any_eq_true _ _).mp hrun
  simp only [Bool.and_eq_true, beq_iff_eq, List.map_cons, List.map_nil, List.cons.injEq] at hfacts
  obtain ⟨⟨⟨⟨⟨⟨⟨⟨⟨⟨hnode, hnode'⟩, hnode''⟩, ho⟩, ho₁, ho₂, ho₃, -⟩, hnearest⟩, hx⟩, hy⟩, hxor⟩, hat⟩,
    hcare⟩ := hfacts
  have hsettled := settled_after hm
  have hsound := hsettled.ready.toSound
  have hjoins : Joins .xor m 2 m 4 m 7 := by
    have hlive := fun {v p} hp => (hsound.meaning_literal (v := v) (p := p) hp fun _ => false).1.1
    refine (hsound.joins_iff hsound hsound).mpr
      ⟨⟨hlive hx, hlive hy, Diagram.live_of_eq_some hxor⟩, funext fun a => ?_⟩
    have hx := (hsound.meaning_literal hx a).1.2
    obtain ⟨⟨-, hy⟩, -, hny⟩ := hsound.meaning_literal hy a
    rw [hsound.meaning_node hxor, hat, hx, hy, hny]
    cases a 0 <;> cases a 1 <;> rfl
  have hself := hsound.agrees_self (hsound.store.live_iff.mpr hcare)
  have hrun : (Command.constrain 2 6).run m = (.ok (.node 2), _) :=
    Prod.ext (Command.run_of_node? hnode) rfl
  have hrun' : (Command.constrain 4 6).run m = (.ok (.node 8), _) :=
    Prod.ext (Command.run_of_node? hnode') rfl
  have hrun'' : (Command.constrain 7 6).run m = (.ok (.node 8), _) :=
    Prod.ext (Command.run_of_node? hnode'') rfl
  obtain ⟨hone, hthree⟩ := hsettled.constraining
  obtain ⟨res, hres, -, -, hagrees, hkept⟩ := hone 4 6 _ _ rfl hrun'
  obtain rfl : 8 = res := Answer.node.inj hres
  exact ⟨m, _, _, _, hm, hrun, hrun', hrun'', hnearest, hkept (.inl (ho₂.trans ho.symm)), hagrees, hjoins,
    hthree .xor m m 2 4 7 6 6 6 2 8 8 _ _ _ hsettled hsettled rfl hrun hrun' hrun'' hself hself hjoins
      (.inr (.inl ⟨ho₂.trans ho₁.symm, ho₃.trans ho₁.symm⟩))⟩

/-- The negative literals of two variables and their disjunction, which is the care set, too.  The second
call does not find room before it has reordered, so that it flips the other variable where both are true.
The disjunction of the two results is not that of the third call, which is true. -/
theorem constraining_reread :
    ∃ m m' n' s', after (.small 7 64) [.setVarNum 2, .apply .or 3 5, .setAutoReorder .win2 none] =
        some m ∧
      m.store.isLive 6 = true ∧ Joins .or m 3 m 5 m 6 ∧
      (Command.constrain 3 6).run m = (.ok (.node 3), m') ∧
      (Command.constrain 5 6).run m = (.ok (.node 5), n') ∧
      (Command.constrain 6 6).run m = (.ok (.node 1), s') ∧
      ¬ m.Composes 5 (m.nearest 6) 5 n' ∧ ¬ Joins .or m' 3 n' 5 s' 1 := by
  have hrun : (after (.small 7 64) [.setVarNum 2, .apply .or 3 5, .setAutoReorder .win2 none]).any fun m =>
      let m' := ((Command.constrain 3 6).run m).2
      let n' := ((Command.constrain 5 6).run m).2
      let s' := ((Command.constrain 6 6).run m).2
      (Command.constrain 3 6).node? m == some 3 && (Command.constrain 5 6).node? m == some 5 &&
      (Command.constrain 6 6).node? m == some 1 && m'.varNum == 2 && n'.varNum == 2 && s'.varNum == 2 &&
      m.nearest 6 #[true, true] == #[true, false] &&
      (m.eval 5 #[true, false]).toOption == some true &&
      (m'.eval 3 #[true, true]).toOption == some false &&
      (n'.eval 5 #[true, true]).toOption == some false &&
      (s'.eval 1 #[true, true]).toOption == some true &&
      m.literals[0]? == some (2, 3) && m.literals[1]? == some (4, 5) &&
      m.diagram 6 == some ⟨0, 1, 5⟩ && m.order.varAt.getD 0 0 == 0 := by
    decide +kernel
  obtain ⟨m, hm, hfacts⟩ := (Option.any_eq_true _ _).mp hrun
  simp only [Bool.and_eq_true, beq_iff_eq] at hfacts
  obtain ⟨⟨⟨⟨⟨⟨⟨⟨⟨⟨⟨⟨⟨⟨hnode, hnode'⟩, hnode''⟩, hvar⟩, hvar'⟩, hvar''⟩, hnearest⟩, hmoved⟩, hf⟩, hg⟩,
    hh⟩, hx⟩, hy⟩, hor⟩, hat⟩ := hfacts
  have hsound := (settled_after hm).ready.toSound
  have hjoins : Joins .or m 3 m 5 m 6 := by
    have hlive := fun {v p} hp => (hsound.meaning_literal (v := v) (p := p) hp fun _ => false).2.1
    refine (hsound.joins_iff hsound hsound).mpr
      ⟨⟨hlive hx, hlive hy, Diagram.live_of_eq_some hor⟩, funext fun a => ?_⟩
    have hx := (hsound.meaning_literal hx a).2.2
    have hy := (hsound.meaning_literal hy a).2.2
    rw [hsound.meaning_node hor, hat, hx, hy, hsound.meaning_terminal rfl]
    cases a 0 <;> cases a 1 <;> rfl
  refine ⟨m, _, _, _, hm, hsound.store.live_iff.mp (Diagram.live_of_eq_some hor), hjoins,
    Prod.ext (Command.run_of_node? hnode) rfl, Prod.ext (Command.run_of_node? hnode') rfl,
    Prod.ext (Command.run_of_node? hnode'') rfl, fun hcomposes => ?_, fun hjoined => ?_⟩
  · obtain ⟨b, hb, hres⟩ := hcomposes #[true, true] (Nat.le_of_eq hvar')
    rw [hnearest] at hb
    rw [hb] at hmoved
    rw [hres] at hg
    exact absurd ((Option.some.inj hmoved).symm.trans (Option.some.inj hg)) (by decide)
  · obtain ⟨b, c, hb, hc, hbc⟩ := hjoined #[true, true] (Nat.le_of_eq hvar)
      (Nat.le_of_eq hvar') (Nat.le_of_eq hvar'')
    rw [hb] at hf
    rw [hc] at hg
    rw [hbc, Option.some.inj hf, Option.some.inj hg] at hh
    exact absurd hh (by decide)

end Manager

end DecisionDiagram
