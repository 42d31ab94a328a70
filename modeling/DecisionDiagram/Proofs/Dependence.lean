/-
What the function of a node depends on.

* `Manager.DependsOn` — a variable makes a difference; `Manager.Sound.dependsOn_iff_levels` finds these
  variables in the tree;
* `Manager.Composes` — the values of a node are those of another one at images of the assignments;
* `Manager.AgreesOn` — two nodes have the same values wherever a third one is true.
-/
import DecisionDiagram.Proofs.Fusion
import DecisionDiagram.Proofs.Substitution
import DecisionDiagram.Proofs.Tree.Support

namespace DecisionDiagram.Manager

variable {m m' : Manager} {f care res : NodeId} {v : Var}

/-- The meaning of a node with a record, by that of its children. -/
theorem Sound.meaning_node (hm : m.Sound) {r : Node} (hr : m.diagram f = some r) (a : Var → Bool) :
    m.meaning f a =
      if a (m.order.varAt.getD r.level 0) then m.meaning r.high a else m.meaning r.low a := by
  rw [meaning, hm.reduced.tree_node hr]
  rfl

/-! ### Variables -/

/-- At some assignment the value of the node changes with the variable. -/
def DependsOn (m : Manager) (f : NodeId) (v : Var) : Prop :=
  ∃ (assignment : Array Bool) (b : Bool), m.eval f (assignment.setIfInBounds v b) = .ok true ∧
    m.eval f (assignment.setIfInBounds v (!b)) = .ok false

/-- What evaluation has answered is the meaning of a live node. -/
theorem Sound.meaning_of_eval (hm : m.Sound) {assignment : Array Bool} {b : Bool}
    (h : m.eval f assignment = .ok b) :
    m.varNum ≤ assignment.size ∧ m.diagram.Live f ∧ m.meaning f (valuation assignment) = b := by
  obtain ⟨ha, hvalue⟩ := (hm.eval_iff hm.order).mp h
  exact ⟨ha, hvalue.live, (hm.value_iff hvalue.live).mp hvalue⟩

theorem Sound.dependsOn_iff (hm : m.Sound) (hf : m.diagram.Live f) :
    m.DependsOn f v ↔ ∃ a : Var → Bool,
      m.meaning f (Function.update a v false) ≠ m.meaning f (Function.update a v true) := by
  constructor
  · rintro ⟨assignment, b, htrue, hfalse⟩
    -- Past the end of the assignment nothing would be set.
    have hlt : v < assignment.size := by
      by_contra hlt
      have hset : ∀ b, assignment.setIfInBounds v b = assignment := fun b =>
        Array.setIfInBounds_eq_of_size_le (Nat.le_of_not_lt hlt)
      rw [hset] at htrue hfalse
      cases htrue.symm.trans hfalse
    have htrue := (hm.meaning_of_eval htrue).2.2
    have hfalse := (hm.meaning_of_eval hfalse).2.2
    rw [valuation_set hlt] at htrue hfalse
    refine ⟨valuation assignment, fun heq => ?_⟩
    cases b
    · exact Bool.false_ne_true (hfalse.symm.trans (heq.symm.trans htrue))
    · exact Bool.false_ne_true (hfalse.symm.trans (heq.trans htrue))
  · rintro ⟨a, ha⟩
    -- The assignment has room for the variable even if the manager does not know it.
    obtain ⟨assignment, hsize, hvaluation⟩ := exists_valuation (max m.varNum (v + 1)) a
    have hvar : m.varNum ≤ assignment.size := hsize ▸ Nat.le_max_left _ _
    have hlt : v < assignment.size := hsize ▸ Nat.le_max_right m.varNum (v + 1)
    have heval : ∀ b, m.eval f (assignment.setIfInBounds v b) =
        .ok (m.meaning f (Function.update a v b)) := by
      intro b
      rw [hm.eval_eq hf (by simpa using hvar), valuation_set hlt]
      refine congrArg _ (hm.meaning_congr hf fun w hw => ?_)
      by_cases hwv : w = v
      · rw [hwv, Function.update_self, Function.update_self]
      · rw [Function.update_of_ne hwv, Function.update_of_ne hwv, hvaluation w (by omega)]
    rcases htrue : m.meaning f (Function.update a v true)
    · rw [htrue, Ne, Bool.not_eq_false] at ha
      refine ⟨assignment, false, ?_, by rw [Bool.not_false, heval, htrue]⟩
      rw [heval, ha]
    · rw [htrue, Ne, Bool.not_eq_true] at ha
      refine ⟨assignment, true, by rw [heval, htrue], ?_⟩
      rw [Bool.not_true, heval, ha]

/-- A tree decides only levels at which variables stand. -/
theorem Sound.lt_of_mem_levels (hm : m.Sound) (hf : m.diagram.Live f) {l : Level}
    (hl : l ∈ (m.diagram.tree f).levels) : l < m.varNum := by
  obtain ⟨x, hx⟩ := (hm.reduced.tree_proper hf.under).mem_levels.mp hl
  by_contra hlt
  refine hx (hm.eval_congr_levels hf fun k hk => ?_)
  rw [Function.update_of_ne (by lia), Function.update_of_ne (by lia)]

/-- A node depends on the variables at the levels that its tree decides. -/
theorem Sound.dependsOn_iff_levels (hm : m.Sound) (hf : m.diagram.Live f) :
    m.DependsOn f v ↔ ∃ l ∈ (m.diagram.tree f).levels, m.order.levelOf[v]? = some l := by
  have hproper := hm.reduced.tree_proper hf.under
  rw [hm.dependsOn_iff hf]
  constructor
  · rintro ⟨a, ha⟩
    have hlt : v < m.varNum := by
      by_contra hlt
      refine ha (hm.meaning_congr hf fun w hw => ?_)
      rw [Function.update_of_ne (by lia), Function.update_of_ne (by lia)]
    obtain ⟨l, hl, -⟩ := hm.order.getD_levelOf hlt
    refine ⟨l, hproper.mem_levels.mpr ⟨fun l => a (m.order.varAt.getD l 0), ?_⟩, hl⟩
    rw [hm.eval_update hf hl, hm.eval_update hf hl]
    exact ha
  · rintro ⟨l, hmem, hl⟩
    obtain ⟨x, hx⟩ := hproper.mem_levels.mp hmem
    refine ⟨fun w => x (m.order.levelOf.getD w 0), ?_⟩
    have hagrees := hm.update_agrees hl (a := fun w => x (m.order.levelOf.getD w 0)) (x := x)
      fun w k hk => by rw [Array.getD_eq_getD_getElem?, hk]; rfl
    rw [← hm.eval_eq_meaning hf (hagrees false), ← hm.eval_eq_meaning hf (hagrees true)]
    exact hx

/-! ### Functions of other nodes -/

/-- The value of `res` at each assignment is the one that `f` has in `m` at the image of the
assignment. -/
def Composes (m : Manager) (f : NodeId) (image : Array Bool → Array Bool) (res : NodeId)
    (m' : Manager) : Prop :=
  ∀ assignment : Array Bool, m'.varNum ≤ assignment.size → ∃ b,
    m.eval f (image assignment) = .ok b ∧ m'.eval res assignment = .ok b

theorem Composes.of_meaning (hm : m.Sound) (hm' : m'.Sound) (hf : m.diagram.Live f)
    (hres : m'.diagram.Live res) {image : Array Bool → Array Bool}
    (hsize : ∀ assignment, m'.varNum ≤ assignment.size → m.varNum ≤ (image assignment).size)
    (h : ∀ assignment, m'.varNum ≤ assignment.size →
      m'.meaning res (valuation assignment) = m.meaning f (valuation (image assignment))) :
    m.Composes f image res m' := fun assignment ha =>
  ⟨_, hm.eval_eq hf (hsize assignment ha), h assignment ha ▸ hm'.eval_eq hres ha⟩

/-- A variable that has no influence on the images has none on the result. -/
theorem Composes.not_dependsOn {image : Array Bool → Array Bool} (h : m.Composes f image res m')
    (hm' : m'.Sound)
    (hv : ∀ assignment b, image (assignment.setIfInBounds v b) = image assignment) :
    ¬ m'.DependsOn res v := by
  rintro ⟨assignment, b, htrue, hfalse⟩
  have hvalue : ∀ c d, m'.eval res (assignment.setIfInBounds v c) = .ok d →
      m.eval f (image assignment) = .ok d := by
    intro c d hd
    obtain ⟨d', hf, hres⟩ := h _ (hm'.meaning_of_eval hd).1
    rw [hv] at hf
    rw [hf, ← hres, hd]
  cases (hvalue _ _ htrue).symm.trans (hvalue _ _ hfalse)

/-- Wherever `care` is true, the nodes `f` and `res`, each in its own manager, have the same value. -/
def AgreesOn (m : Manager) (care f : NodeId) (m' : Manager) (res : NodeId) : Prop :=
  ∀ assignment : Array Bool, m'.varNum ≤ assignment.size → m.eval care assignment = .ok true →
    ∃ b, m.eval f assignment = .ok b ∧ m'.eval res assignment = .ok b

theorem AgreesOn.of_meaning (hm : m.Sound) (hm' : m'.Sound) (hf : m.diagram.Live f)
    (hres : m'.diagram.Live res)
    (h : ∀ a, m.meaning care a = true → m'.meaning res a = m.meaning f a) :
    m.AgreesOn care f m' res := by
  intro assignment ha hcare
  obtain ⟨ha', -, hmeaning⟩ := hm.meaning_of_eval hcare
  exact ⟨_, hm.eval_eq hf ha', h _ hmeaning ▸ hm'.eval_eq hres ha⟩

end DecisionDiagram.Manager
