/-
Evaluation follows the path that an assignment leads down.

* `Manager.Coherent.eval_iff` — what evaluation answers is the value of a live node;
* `Manager.eval_congr` — it depends on the order and the records below the node only;
* `Manager.Follows` — what every call leaves as it is, in terms of evaluation.
-/
import DecisionDiagram.Evaluation
import DecisionDiagram.Proofs.Soundness

namespace DecisionDiagram.Manager

variable {m m' : Manager} {assignment : Array Bool} {id : NodeId} {b : Bool}

/-- The value that an assignment gives to each variable. -/
def valuation (assignment : Array Bool) : Var → Bool := fun v => assignment.getD v false

theorem valuation_eq {v : Var} {x : Bool} (h : assignment[v]? = some x) :
    valuation assignment v = x := by
  rw [valuation, Array.getD_eq_getD_getElem?, h]
  rfl

theorem node_of_diagram {n : Node} (h : m.diagram id = some n) : m.node id = .ok n := by
  rw [node, Store.node?_of_diagram h]

theorem checkNode_eq (hs : m.store.Valid) :
    m.checkNode id = .ok () ↔ m.diagram.Live id := by
  unfold checkNode
  split
  · rename_i h
    exact iff_of_true rfl (hs.live_iff.mpr h)
  · rename_i h
    exact iff_of_false (fun h => by cases h) fun hl => h (hs.live_iff.mp hl)

/-! ### Evaluation answers the value -/

/-- The induction is on the number of steps that may still be needed. -/
theorem Coherent.evalFrom_eq (hm : m.Coherent m.varNum) (ho : m.order.Valid)
    (ha : m.varNum ≤ assignment.size) {n : Nat} {k : Level} (hid : m.diagram.Under (fun l => l) k id)
    (hn : m.varNum ≤ k + n) (hb : m.Value (valuation assignment) id b) :
    m.evalFrom assignment (n + 1) id = .ok b := by
  induction n generalizing id k with
  | zero =>
    rcases hid with ht | ⟨r, hr, hk⟩
    · rw [hb.eq_isTop hm.reduced.inner ht, evalFrom, if_pos ht]
    · have hlevel := hm.reduced.label_lt hr
      have hk : k ≤ r.level := hk
      lia
  | succ n ih =>
    rcases hid with ht | ⟨r, hr, hk⟩
    · rw [hb.eq_isTop hm.reduced.inner ht, evalFrom, if_pos ht]
    · have hlevel := hm.reduced.label_lt hr
      have hk : k ≤ r.level := hk
      have hfuel : m.varNum ≤ r.level + 1 + n := by lia
      obtain ⟨v, hv, hget, -, hlt⟩ := ho.getD_varAt hlevel
      obtain ⟨x, hx⟩ : ∃ x, assignment[v]? = some x :=
        ⟨_, Array.getElem?_eq_getElem (Nat.lt_of_lt_of_le hlt ha)⟩
      have hchild := hb.child hm.reduced.inner hr
      rw [hget, valuation_eq hx] at hchild
      rw [evalFrom, if_neg (by rw [hm.reduced.inner hr]; decide), node_of_diagram hr]
      simp only [bind, Except.bind, varAt, hv, hx]
      exact ih (hm.reduced.below hr _) hfuel hchild

/-- What evaluation answers is the value of a live node. -/
theorem Coherent.eval_iff (hm : m.Coherent m.varNum) (ho : m.order.Valid) :
    m.eval id assignment = .ok b ↔
      m.varNum ≤ assignment.size ∧ m.Value (valuation assignment) id b := by
  have heval : ∀ {c}, m.varNum ≤ assignment.size → m.Value (valuation assignment) id c →
      m.eval id assignment = .ok c := by
    intro c ha hc
    have hcheck := (checkNode_eq hm.store).mpr hc.live
    simp only [eval, hcheck, bind, Except.bind, if_neg (Nat.not_lt.mpr ha)]
    exact hm.evalFrom_eq ho ha hc.live.under (by omega) hc
  constructor
  · intro h
    have hcheck : m.checkNode id = .ok () := by
      rcases hc : m.checkNode id with e | _
      · simp only [eval, hc, bind, Except.bind] at h
        cases h
      · rfl
    have ha : m.varNum ≤ assignment.size := by
      by_contra ha
      simp only [eval, hcheck, bind, Except.bind, if_pos (Nat.not_le.mp ha)] at h
      cases h
    obtain ⟨c, hc⟩ := hm.exists_value ((checkNode_eq hm.store).mp hcheck) (valuation assignment)
    obtain rfl := Except.ok.inj (h.symm.trans (heval ha hc))
    exact ⟨ha, hc⟩
  · rintro ⟨ha, hb⟩
    exact heval ha hb

/-! ### Evaluation elsewhere -/

variable {S : NodeId → Prop}

theorem evalFrom_congr (hS : m.diagram.Closed S) (hlive : ∀ id, S id → m.diagram.Live id)
    (agree : ∀ id, S id → m'.diagram id = m.diagram id) (ho : m'.order = m.order) (hid : S id)
    (n : Nat) : m'.evalFrom assignment n id = m.evalFrom assignment n id := by
  induction n generalizing id with
  | zero => rfl
  | succ n ih =>
    rw [evalFrom, evalFrom]
    by_cases ht : id.isTerminal = true
    · rw [if_pos ht, if_pos ht]
    · obtain ⟨r, hr⟩ := (hlive id hid).eq_some (Bool.eq_false_iff.mpr ht)
      rw [if_neg ht, if_neg ht, node_of_diagram hr, node_of_diagram ((agree id hid).trans hr)]
      simp only [bind, Except.bind, varAt, ho]
      split
      · rfl
      · split
        · rfl
        · rename_i x _
          cases x
          · exact ih (hS hid ⟨r, false, hr, rfl⟩)
          · exact ih (hS hid ⟨r, true, hr, rfl⟩)

/-- Evaluation gives the same answers in a manager with the same order whose diagram agrees on a
closed set around the node. -/
theorem eval_congr (hS : m.diagram.Closed S) (hlive : ∀ id, S id → m.diagram.Live id)
    (agree : ∀ id, S id → m'.diagram id = m.diagram id) (ho : m'.order = m.order)
    (hs : m.store.Valid) (hs' : m'.store.Valid) (hid : S id) :
    m'.eval id assignment = m.eval id assignment := by
  have hl := hlive id hid
  have hcheck := (checkNode_eq hs).mpr hl
  have hcheck' := (checkNode_eq hs').mpr (hl.congr (agree id hid))
  have hvar : m'.varNum = m.varNum := congrArg VarOrder.size ho
  have hfrom : m'.evalFrom assignment m.depth id = m.evalFrom assignment m.depth id :=
    evalFrom_congr hS hlive agree ho hid _
  simp only [eval, hcheck, hcheck', bind, Except.bind, hvar, depth] at hfrom ⊢
  rw [hfrom]

/-! ### What calls leave as it is -/

/-- What a call leaves as it is, even if it drops names or stops between the two literals of a new
variable. -/
structure Follows (m m' : Manager) : Prop where
  varNum : m.varNum ≤ m'.varNum
  literals : ∀ {v : Var} {p}, m.literals[v]? = some p → m'.literals[v]? = some p
  eval : ∀ {id assignment b}, m.Named id → m'.varNum ≤ assignment.size →
    m.eval id assignment = .ok b → m'.eval id assignment = .ok b

theorem Follows.trans {m'' : Manager} (h : m.Follows m') (hn : ∀ id, m.Named id → m'.Named id)
    (h' : m'.Follows m'') : m.Follows m'' where
  varNum := Nat.le_trans h.varNum h'.varNum
  literals hp := h'.literals (h.literals hp)
  eval hid ha hb := h'.eval (hn _ hid) ha (h.eval hid (Nat.le_trans h'.varNum ha) hb)

end DecisionDiagram.Manager
