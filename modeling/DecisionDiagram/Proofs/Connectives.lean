/-
Connectives denote what they say, whatever happens underneath.

A call may find answers in the computed tables, collect, enlarge the store, or be interrupted for an
automatic reordering, which moves the variables of its operands to other levels.  So the operands are
compared by their values at assignments of the variables, which all of that keeps.

* `Command.connective?` — the operands of a connective, and its value for values of these;
* `Manager.Reflects` — a node has at each assignment the value that the operands had;
* `Manager.Settled.connective` — the answer of every call.
-/
import DecisionDiagram.Proofs.Commands
import DecisionDiagram.Proofs.Runs

namespace DecisionDiagram

open Manager

/-- The operands of a connective, and its value when each of them has the value that `x` gives it. -/
def Command.connective? : Command → Option (List NodeId × ((NodeId → Bool) → Bool))
  | .not f => some ([f], fun x => !x f)
  | .apply op l r => some ([l, r], fun x => op.eval (x l) (x r))
  | .andMany fs => some (fs, fun x => fs.all x)
  | .orMany fs => some (fs, fun x => fs.any x)
  | .ite f g h => some ([f, g, h], fun x => if x f then x g else x h)
  | _ => none

/-- At each assignment, the node `res` has by now the value that belongs to the values which the nodes
`fs` had before. -/
structure Manager.Reflects (m : Manager) (fs : List NodeId) (value : (NodeId → Bool) → Bool)
    (res : NodeId) (m' : Manager) : Prop where
  live : ∀ f ∈ fs, m.diagram.Live f
  value : ∀ {a : Var → Bool} {x : NodeId → Bool}, (∀ f ∈ fs, m.Value a f (x f)) →
    m'.Value a res (value x)

/-! ### Folds -/

namespace Tree

/-- A connective over a list of trees is one over the list of their values. -/
theorem eval_foldl (v : Level → Bool) (op : Connective) (σ : NodeId → Tree) (fs : List NodeId)
    (t : Tree) : (fs.foldl (fun t f => apply op t (σ f)) t).eval v =
      fs.foldl (fun b f => op.eval b ((σ f).eval v)) (t.eval v) :=
  (List.foldl_hom (Tree.eval v) fun s f => (eval_apply v op s (σ f)).symm).symm

end Tree

namespace Connective

theorem foldl_and (x : NodeId → Bool) (fs : List NodeId) (b : Bool) :
    fs.foldl (fun b f => and.eval b (x f)) b = (b && fs.all x) := by
  induction fs generalizing b with
  | nil => simp
  | cons f fs ih => rw [List.foldl_cons, ih, List.all_cons, ← Bool.and_assoc, eval]

theorem foldl_or (x : NodeId → Bool) (fs : List NodeId) (b : Bool) :
    fs.foldl (fun b f => or.eval b (x f)) b = (b || fs.any x) := by
  induction fs generalizing b with
  | nil => simp
  | cons f fs ih => rw [List.foldl_cons, ih, List.any_cons, ← Bool.or_assoc, eval]

end Connective

/-! ### Requests -/

namespace Request

open Program

variable {m : Manager} {fs : List NodeId} {q : Program NodeId} {p : Nat → Program NodeId}
  {value : (NodeId → Bool) → Bool}

/-- A program that computes with the values at levels computes with those at assignments, too, since
a reordering in the middle of the call keeps the values of the operands at each assignment. -/
theorem meets_reflects (hm : m.Ready)
    (h : ∀ e : Manager, e.Sound → e.pending = [] → (∀ x ∈ fs, e.Kept x) →
      Program.Ensures e.varNum e q (fun _ _ => True) e fun res m' => m'.diagram.Live res ∧
        ∀ v, (m'.diagram.tree res).eval v = value fun f => (e.diagram.tree f).eval v)
    (hlocal : ∀ x y : NodeId → Bool, (∀ f ∈ fs, x f = y f) → value x = value y) :
    (plain fs q).Meets (m.Reflects fs value) m := by
  refine meets_of_ensures hm fun _ m₁ e hc he ho hsound hk _ => ?_
  refine (h e hsound (he ▸ rfl) hk).mono fun res m' hev hcoherent ⟨hlive, heval⟩ =>
    ⟨hlive, ho, fun {a x} hx => ?_⟩
  refine (hcoherent.reduced.eval_iff hlive).mpr ?_
  rw [heval, hev.order]
  refine hlocal _ _ fun f hf => ?_
  have hvalue : e.Value a f (x f) := he ▸ hc.retains.value (.inl hf) (hx f hf)
  exact (hsound.reduced.eval_iff (hsound.kept_live (hk f hf))).mp hvalue

/-- The same for a recursion that yields a tree computed from those of the operands. -/
theorem meets_bounded (hm : m.Ready) {t : (NodeId → Tree) → Tree}
    (h : ∀ e : Manager, e.Sound → (∀ x ∈ fs, e.Kept x) →
      Yields e (p e.depth) (· = t e.diagram.tree))
    (heval : ∀ σ v, (t σ).eval v = value fun f => (σ f).eval v)
    (hlocal : ∀ x y : NodeId → Bool, (∀ f ∈ fs, x f = y f) → value x = value y) :
    (bounded fs p).Meets (m.Reflects fs value) m := by
  refine meets_reflects hm (fun e he _ hk => ?_) hlocal
  refine (Yields.depth he (h e he hk) _ fun _ _ => trivial).mono fun res m' _ _ ⟨hlive, htree⟩ =>
    ⟨hlive, fun v => ?_⟩
  rw [htree, heval]

theorem meets_applyMany (hm : m.Ready) (op : Connective) {unit : NodeId} {b : Bool}
    (hunit : unit.isTerminal = true) (hb : unit.isTop = b)
    (hfold : ∀ x, fs.foldl (fun b f => op.eval b (x f)) b = value x)
    (hlocal : ∀ x y : NodeId → Bool, (∀ f ∈ fs, x f = y f) → value x = value y) :
    (plain fs (Program.applyMany op fs unit)).Meets (m.Reflects fs value) m := by
  refine meets_reflects hm (fun e he hp hk => ?_) hlocal
  refine (Ensures.applyMany he hp hk (.refl e) he.toCoherent (kept_of_terminal hunit)
    fun _ _ => trivial).mono fun res m' _ _ ⟨hlive, htree⟩ => ⟨hlive, fun v => ?_⟩
  rw [htree, Tree.eval_foldl, he.reduced.tree_terminal hunit, Tree.eval_leaf, hb, hfold]

end Request

namespace Command

variable {c : Command} {fs : List NodeId} {value : (NodeId → Bool) → Bool}

/-- The value of a connective depends on the values of its operands only. -/
theorem connective?_congr (h : c.connective? = some (fs, value)) {x y : NodeId → Bool}
    (hxy : ∀ f ∈ fs, x f = y f) : value x = value y := by
  cases c <;> cases h
  case not f => simp only [hxy f (by simp)]
  case apply op l r => simp only [hxy l (by simp), hxy r (by simp)]
  case andMany =>
    rw [Bool.eq_iff_iff, List.all_eq_true, List.all_eq_true]
    exact forall₂_congr fun f hf => by rw [hxy f hf]
  case orMany =>
    rw [Bool.eq_iff_iff, List.any_eq_true, List.any_eq_true]
    exact exists_congr fun f => and_congr_right fun hf => by rw [hxy f hf]
  case ite f g h => simp only [hxy f (by simp), hxy g (by simp), hxy h (by simp)]

/-- The request of a connective is met with its value. -/
theorem meets_connective {m : Manager} (hm : m.Ready) (h : c.connective? = some (fs, value)) :
    ∃ r, c.request? = some r ∧ r.Meets (m.Reflects fs value) m := by
  have hlocal : ∀ x y : NodeId → Bool, (∀ f ∈ fs, x f = y f) → value x = value y :=
    fun _ _ => connective?_congr h
  cases c <;> cases h
  case not f =>
    refine ⟨_, rfl, Request.meets_bounded hm (t := fun σ => (σ f).not)
      (fun e he hk => .not_depth he (hk f (by simp))) (fun σ v => ?_) hlocal⟩
    rw [Tree.eval_not]
  case apply op l r =>
    refine ⟨_, rfl, Request.meets_bounded hm (t := fun σ => Tree.apply op (σ l) (σ r))
      (fun e he hk => .apply_depth he (hk l (by simp)) (hk r (by simp))) (fun σ v => ?_) hlocal⟩
    rw [Tree.eval_apply]
  case andMany =>
    exact ⟨_, rfl, Request.meets_applyMany hm .and rfl rfl
      (fun x => Connective.foldl_and x fs true) hlocal⟩
  case orMany =>
    exact ⟨_, rfl, Request.meets_applyMany hm .or rfl rfl
      (fun x => Connective.foldl_or x fs false) hlocal⟩
  case ite f g h =>
    refine ⟨_, rfl, Request.meets_bounded hm (t := fun σ => Tree.ite (σ f) (σ g) (σ h))
      (fun e he hk => .ite_depth he (hk f (by simp)) (hk g (by simp)) (hk h (by simp)))
      (fun σ v => ?_) hlocal⟩
    rw [Tree.eval_ite]

end Command

namespace Manager

variable {m m' : Manager} {fs : List NodeId} {value : (NodeId → Bool) → Bool} {res : NodeId}

/-- What a node reflects it evaluates to. -/
theorem Reflects.eval (h : m.Reflects fs value res m') (hm : m.Sound) (hm' : m'.Sound)
    {assignment : Array Bool} (ha : m.varNum ≤ assignment.size)
    (ha' : m'.varNum ≤ assignment.size) :
    ∃ x : NodeId → Bool, (∀ f ∈ fs, m.eval f assignment = .ok (x f)) ∧
      m'.eval res assignment = .ok (value x) := by
  have hx : ∀ f ∈ fs, m.Value (valuation assignment) f
      ((m.diagram.tree f).eval fun l => valuation assignment (m.order.varAt.getD l 0)) :=
    fun f hf => (hm.reduced.eval_iff (h.live f hf)).mpr rfl
  refine ⟨_, fun f hf => (hm.eval_iff hm.order).mpr ⟨ha, hx f hf⟩, ?_⟩
  exact (hm'.eval_iff hm'.order).mpr ⟨ha', h.value hx⟩

/-- Connectives are right: whichever call it is, when it has an answer, this is a live node, and at each
assignment it evaluates to the value of the connective for what the operands evaluated to before. -/
theorem Settled.connective (hm : m.Settled) {c : Command} (hc : c.connective? = some (fs, value))
    {answer : Answer} (h : (c.run m).1 = .ok answer) :
    ∃ res, answer = .node res ∧ (c.run m).2.store.isLive res = true ∧
      ∀ assignment : Array Bool, (c.run m).2.varNum ≤ assignment.size →
        ∃ x : NodeId → Bool, (∀ f ∈ fs, m.eval f assignment = .ok (x f)) ∧
          (c.run m).2.eval res assignment = .ok (value x) := by
  have hready := hm.ready
  obtain ⟨r, hr, hmeets⟩ := Command.meets_connective hready hc
  have hcall := Action.Ensures.call hready (fun h _ _ _ => ⟨h.live, h.value⟩) hmeets
  have hens : Action.Ensures m c.perform (fun answer m' => ∃ res, answer = .node res ∧
      m.Completes [] m' ∧ m'.diagram.Live res ∧ m.Reflects fs value res m') fun _ _ => True := by
    rw [Command.perform_of_request hr]
    exact .bind (hcall.mono (fun _ _ h => h) fun _ _ _ => trivial) fun res _ h => ⟨res, rfl, h⟩
  unfold Command.run at h ⊢
  rcases hx : c.perform m with ⟨answer', m'⟩ | ⟨e, m'⟩
  · rw [Action.Ensures, hx] at hens
    rw [hx] at h
    obtain rfl := Except.ok.inj h
    obtain ⟨res, rfl, hcompletes, hlive, hreflects⟩ := hens
    have hsound := hcompletes.ready.toSound
    refine ⟨res, rfl, hsound.store.live_iff.mp hlive, fun assignment ha => ?_⟩
    exact hreflects.eval hready.toSound hsound (Nat.le_trans hcompletes.retains.varNum ha) ha
  · rw [hx] at h
    cases h

/-- The exclusive or finds no free slot for its result, and the store grows. -/
theorem connective_after_growth :
    ∃ m, after (.small 7 16) [.setVarNum 2, .apply .and 2 4] = some m ∧ m.store.capacity = 7 ∧
      ((Command.apply .xor 6 2).run m).2.store.capacity = 14 ∧
      ∀ assignment : Array Bool, 2 ≤ assignment.size → ∃ x y : Bool,
        m.eval 6 assignment = .ok x ∧ m.eval 2 assignment = .ok y ∧
        ((Command.apply .xor 6 2).run m).2.eval 7 assignment = .ok (x != y) := by
  have hrun : (after (.small 7 16) [.setVarNum 2, .apply .and 2 4]).any fun m =>
      (Command.apply .xor 6 2).node? m == some 7 && m.store.capacity == 7 &&
      ((Command.apply .xor 6 2).run m).2.store.capacity == 14 &&
      ((Command.apply .xor 6 2).run m).2.varNum == 2 := by
    decide +kernel
  obtain ⟨m, hm, hfacts⟩ := (Option.any_eq_true _ _).mp hrun
  simp only [Bool.and_eq_true, beq_iff_eq] at hfacts
  obtain ⟨⟨⟨hnode, hsmall⟩, hlarge⟩, hvar⟩ := hfacts
  obtain ⟨res, hres, -, heval⟩ :=
    (settled_after hm).connective (c := .apply .xor 6 2) rfl (Command.run_of_node? hnode)
  obtain rfl : 7 = res := Answer.node.inj hres
  refine ⟨m, hm, hsmall, hlarge, fun assignment ha => ?_⟩
  obtain ⟨x, hx, hvalue⟩ := heval assignment (hvar.trans_le ha)
  exact ⟨x 6, x 2, hx 6 (by simp), hx 2 (by simp), hvalue⟩

end Manager

end DecisionDiagram
