/-
The function of the variables that a node stands for.

The tree of a node has levels for labels, and a call may move the variables to other levels before it
begins its work.  So what a call does with trees is said of functions of the variables in the end.

* `Manager.meaning` — the value of a node at an assignment to the variables;
* `Manager.Sound.eval_eq` — evaluation answers this value;
* `Manager.Retains.meaning` — what a call holds or the manager names goes on to mean the same;
* `Request.meets_meaning`, `.meets_yields` — a program that is right in terms of meanings, whatever
  came before it;
* `Command.answered` — what is known of a request is known of the answer to its command.
-/
import DecisionDiagram.Proofs.Frames

namespace DecisionDiagram

namespace Manager

variable {m m' : Manager} {f : NodeId} {a c : Var → Bool} {b : Bool}

/-- The values of an assignment in which a variable is set. -/
theorem valuation_set {assignment : Array Bool} {v : Var} (hv : v < assignment.size) (b : Bool) :
    valuation (assignment.setIfInBounds v b) = Function.update (valuation assignment) v b := by
  funext w
  rw [valuation, Array.getD_eq_getD_getElem?, Array.getElem?_setIfInBounds]
  by_cases hw : v = w
  · subst hw
    rw [if_pos rfl, if_pos hv, Function.update_self]
    rfl
  · rw [if_neg hw, Function.update_of_ne (Ne.symm hw), valuation, Array.getD_eq_getD_getElem?]

/-- There is an assignment of every size with given values. -/
theorem exists_valuation (n : Nat) (a : Var → Bool) :
    ∃ assignment : Array Bool, assignment.size = n ∧ ∀ v, v < n → valuation assignment v = a v := by
  refine ⟨(Array.range n).map a, by simp, fun v hv => valuation_eq ?_⟩
  rw [Array.getElem?_map, Array.getElem?_range, if_pos hv, Option.map_some]

/-- The value of a node when each variable has the value that `a` gives it. -/
noncomputable def meaning (m : Manager) (f : NodeId) (a : Var → Bool) : Bool :=
  (m.diagram.tree f).eval fun l => a (m.order.varAt.getD l 0)

theorem Sound.value_iff (hm : m.Sound) (hf : m.diagram.Live f) : m.Value a f b ↔ m.meaning f a = b :=
  hm.reduced.eval_iff hf

/-- Evaluation answers the meaning of a live node. -/
theorem Sound.eval_eq (hm : m.Sound) (hf : m.diagram.Live f) {assignment : Array Bool}
    (ha : m.varNum ≤ assignment.size) :
    m.eval f assignment = .ok (m.meaning f (valuation assignment)) :=
  (hm.eval_iff hm.order).mpr ⟨ha, (hm.value_iff hf).mpr rfl⟩

/-- The levels that no variable stands at do not matter. -/
theorem Sound.eval_congr_levels (hm : m.Sound) (hf : m.diagram.Live f) {v w : Level → Bool}
    (h : ∀ l, l < m.varNum → v l = w l) : (m.diagram.tree f).eval v = (m.diagram.tree f).eval w := by
  have hv : m.diagram.Eval v f ((m.diagram.tree f).eval v) := (hm.reduced.eval_iff hf).mpr rfl
  exact ((hm.reduced.eval_iff hf).mp (hv.congr_val fun hn => h _ (hm.reduced.label_lt hn))).symm

/-- The meaning at an assignment to the variables, read off a valuation of the levels. -/
theorem Sound.eval_eq_meaning (hm : m.Sound) (hf : m.diagram.Live f) {v : Level → Bool}
    (h : ∀ w l, m.order.levelOf[w]? = some l → v l = a w) :
    (m.diagram.tree f).eval v = m.meaning f a := by
  refine hm.eval_congr_levels hf fun l hl => ?_
  obtain ⟨w, -, hget, hw, -⟩ := hm.order.getD_varAt hl
  rw [hget]
  exact h w l hw

/-- The tree as a function of the levels, read off the meaning. -/
theorem Sound.eval_tree (hm : m.Sound) (hf : m.diagram.Live f) (x : Level → Bool) :
    (m.diagram.tree f).eval x = m.meaning f fun w => x (m.order.levelOf.getD w 0) :=
  hm.eval_eq_meaning hf fun w l hl => by
    rw [Array.getD_eq_getD_getElem?, hl]
    rfl

theorem Sound.meaning_congr (hm : m.Sound) (hf : m.diagram.Live f)
    (h : ∀ v, v < m.varNum → a v = c v) : m.meaning f a = m.meaning f c := by
  refine hm.eval_eq_meaning hf fun w l hl => ?_
  have hat := hm.order.varAt_levelOf hl
  rw [Array.getD_eq_getD_getElem?, hat]
  exact h w (hm.order.mem_toList.mp (VarOrder.mem_toList_iff.mpr ⟨l, hat⟩))

/-- Levels that have the values of their variables keep them when a level and the variable there are set
to one value. -/
theorem Sound.update_agrees (hm : m.Sound) {v : Var} {l : Level} (hl : m.order.levelOf[v]? = some l)
    {x : Level → Bool} (h : ∀ w k, m.order.levelOf[w]? = some k → x k = a w) (b : Bool) (w : Var)
    (k : Level) (hk : m.order.levelOf[w]? = some k) :
    Function.update x l b k = Function.update a v b w := by
  have hat := hm.order.varAt_levelOf hk
  by_cases hw : w = v
  · subst hw
    obtain rfl := Option.some.inj (hl.symm.trans hk)
    rw [Function.update_self, Function.update_self]
  · have hkl : k ≠ l := by
      rintro rfl
      exact hw (Option.some.inj (hat.symm.trans (hm.order.varAt_levelOf hl)))
    rw [Function.update_of_ne hkl, Function.update_of_ne hw]
    exact h w k hk

theorem Sound.getD_agrees (hm : m.Sound) (a : Var → Bool) (w : Var) (k : Level)
    (hk : m.order.levelOf[w]? = some k) : a (m.order.varAt.getD k 0) = a w := by
  rw [Array.getD_eq_getD_getElem?, hm.order.varAt_levelOf hk]
  rfl

/-- One level has another value, and so has the variable there. -/
theorem Sound.eval_update (hm : m.Sound) (hf : m.diagram.Live f) {v : Var} {l : Level}
    (hl : m.order.levelOf[v]? = some l) (a : Var → Bool) (b : Bool) :
    (m.diagram.tree f).eval (Function.update (fun l => a (m.order.varAt.getD l 0)) l b) =
      m.meaning f (Function.update a v b) :=
  hm.eval_eq_meaning hf (hm.update_agrees hl (hm.getD_agrees a) b)

/-! ### Meanings that are kept -/

/-- What a piece of a call has to keep, and what the manager names, goes on to mean the same. -/
theorem Retains.meaning {R : NodeId → Prop} (h : m.Retains R m') (hm : m.Sound) (hm' : m'.Sound)
    (hf : m.diagram.Live f) (hR : R f ∨ m.Named f) :
    m'.diagram.Live f ∧ m'.meaning f = m.meaning f := by
  have hvalue := fun a => h.value hR ((hm.value_iff hf (a := a)).mpr rfl)
  have hlive := (hvalue fun _ => false).live
  exact ⟨hlive, funext fun a => (hm'.value_iff hlive).mp (hvalue a)⟩

/-- What an operator keeps goes on to mean the same while it runs. -/
theorem Evolves.meaning (h : m.Evolves m') (hm : m.Sound) (hm' : m'.Sound) (hf : m.Kept f) :
    m'.diagram.Live f ∧ m'.meaning f = m.meaning f :=
  (h.retains (R := m.Kept) fun _ hid => hid).meaning hm hm' (hm.kept_live hf) (.inl hf)

end Manager

/-! ### Requests and commands -/

open Manager

/-- A program that has a right answer in every sound manager that keeps the operands, as functions of
the variables, is right whatever came before it. -/
theorem Request.meets_meaning {check : Manager → Except Failure Unit} {operands : List NodeId}
    {p : Program NodeId} {single : Bool} {Q : NodeId → Manager → Prop} {m : Manager} (hm : m.Ready)
    (h : check m = .ok () → (∀ x ∈ operands, m.diagram.Live x) → ∀ e : Manager,
      e.Sound → e.pending = [] → m.Retains (· ∈ operands) e → (∀ x ∈ operands, e.Kept x) →
      (∀ x ∈ operands, e.meaning x = m.meaning x) →
      Program.Ensures e.varNum e p (fun _ _ => True) e fun res m' => m'.diagram.Live res ∧
        (e.Evolves m' → m'.Sound → Q res m')) :
    Meets ⟨check, .perform operands p single⟩ Q m := by
  refine meets_of_ensures hm fun hcheck m₁ e hc he ho hsound hk _ => ?_
  have hretains : m.Retains (· ∈ operands) e := he ▸ hc.retains.trans (retains_equip operands)
  refine (h hcheck ho e hsound (he ▸ rfl) hretains hk fun x hx => ?_).mono
    fun res m' hev hcoherent ⟨hlive, hQ⟩ => ⟨hlive, hQ hev (hsound.evolves hev hcoherent)⟩
  exact (hretains.meaning hm.toSound hsound (ho x hx) (.inl hx)).2

/-- The same for a program that yields a tree. -/
theorem Request.meets_yields {check : Manager → Except Failure Unit} {operands : List NodeId}
    {p : Program NodeId} {single : Bool} {Q : NodeId → Manager → Prop} {m : Manager} (hm : m.Ready)
    (h : check m = .ok () → (∀ x ∈ operands, m.diagram.Live x) → ∀ e : Manager,
      e.Sound → m.Retains (· ∈ operands) e → (∀ x ∈ operands, e.Kept x) →
      (∀ x ∈ operands, e.meaning x = m.meaning x) → ∃ P, Program.Yields e p P ∧
        ∀ res m', e.Evolves m' → m'.Sound → P (m'.diagram.tree res) → Q res m') :
    Meets ⟨check, .perform operands p single⟩ Q m := by
  refine meets_meaning hm fun hcheck ho e he _ hretains hk hsame => ?_
  obtain ⟨P, hyields, hQ⟩ := h hcheck ho e he hretains hk hsame
  refine (hyields (fun _ _ => True) fun _ _ => trivial).mono fun res m' _ _ ⟨hlive, htree⟩ => ?_
  exact ⟨hlive, fun hev hm' => hQ res m' hev hm' htree⟩

theorem Action.Ensures.and {α : Type} {x : Action α} {m : Manager} {Q Q' : α → Manager → Prop}
    {E E' : Error → Manager → Prop} (h : Ensures m x Q E) (h' : Ensures m x Q' E') :
    Ensures m x (fun a m' => Q a m' ∧ Q' a m') fun e m' => E e m' ∧ E' e m' := by
  unfold Ensures at h h' ⊢
  split <;> rename_i hx <;> rw [hx] at h h'
  · exact ⟨h, h'⟩
  · exact ⟨h, h'⟩
  · trivial

/-- What holds of a call that has an answer holds of a run that does. -/
theorem Command.of_ok {m m' : Manager} {c : Command} {Q : Answer → Manager → Prop}
    {E : Error → Manager → Prop} (h : Action.Ensures m c.perform Q E) {answer : Answer}
    (hrun : c.run m = (.ok answer, m')) : Q answer m' := by
  unfold Action.Ensures at h
  unfold run at hrun
  rcases hx : c.perform m with ⟨answer', m₁⟩ | ⟨e, m₁⟩
  · rw [hx] at h hrun
    obtain ⟨hanswer, rfl⟩ := Prod.mk.inj hrun
    exact Except.ok.inj hanswer ▸ h
  · rw [hx] at hrun
    cases (Prod.mk.inj hrun).1

/-- What the answer of a request satisfies, the answer of its command does. -/
theorem Command.answered {m m' : Manager} (hm : m.Ready) {c : Command} {r : Request}
    (hr : c.request? = some r) {Q : NodeId → Manager → Prop} (hQ : Action.Unkept Q)
    (hmeets : r.Meets Q m) {answer : Answer} (h : c.run m = (.ok answer, m')) :
    ∃ res, answer = .node res ∧ m.Completes [] m' ∧ m.Accounts m' ∧ m'.diagram.Live res ∧
      Q res m' := by
  refine of_ok (Q := fun answer m' => ∃ res, answer = .node res ∧ m.Completes [] m' ∧
    m.Accounts m' ∧ m'.diagram.Live res ∧ Q res m') (E := fun _ _ => True) ?_ h
  rw [perform_of_request hr]
  refine .bind (((Action.Ensures.call hm hQ hmeets).and (Action.Within.call r m)).mono
    (fun _ _ h => h) fun _ _ _ => trivial) fun res m' ⟨⟨hcompletes, hlive, hres⟩, haccounts⟩ => ?_
  exact ⟨res, rfl, hcompletes, haccounts, hlive, hres⟩

end DecisionDiagram
