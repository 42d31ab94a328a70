/-
Substitution is right, for one variable and for all of them at once.

A substitute may depend on the variable that it is for, on variables above it, and on other variables
that are substituted.  So the value of a result is that of the operand at another assignment, in which
each variable has the value of its substitute at the given one.

* `Manager.substituted` — this assignment, for a pairing;
* `Request.meets_compose`, `Request.meets_vecCompose` — the two requests, in terms of meanings;
* `Command.substitute?_entered` — what is entered into a pairing;
* `Manager.Settled.substitution` — the answers of every call.
-/
import DecisionDiagram.Proofs.Meaning
import DecisionDiagram.Proofs.Survival

namespace DecisionDiagram

namespace Manager

variable {m m' : Manager} {number : Nat} {f g : NodeId} {v : Var}

/-- The assignment that gives to each variable the value which its substitute has at `a`. -/
noncomputable def substituted (m : Manager) (number : Nat) (a : Var → Bool) : Var → Bool := fun v =>
  match m.substitute? number v with
  | some g => m.meaning g a
  | none => a v

theorem substituted_eq (h : m.substitute? number v = some g) (a : Var → Bool) :
    m.substituted number a v = m.meaning g a := by rw [substituted, h]

theorem named_substitute (h : m.substitute? number v = some g) : m.Named g := by
  obtain ⟨t, l, ht, -, hg⟩ := substitute?_eq_some.mp h
  exact .inr (.inr (Pairings.mem_nodes.mpr
    ⟨t, Array.mem_of_getElem? ht, Array.mem_of_getElem? hg⟩))

theorem Sound.live_substitute (hm : m.Sound) (h : m.substitute? number v = some g) :
    m.diagram.Live g := hm.rooted (named_substitute h).rooted

theorem getElem?_of_pairing {p : Pairing} (h : m.pairing number = .ok p) :
    m.pairings.tables[number]? = some p := by
  unfold pairing at h
  split at h
  · rename_i hp
    exact Except.ok.inj h ▸ hp
  · cases h

/-- The literals of a variable mean the variable and its negation. -/
theorem Sound.meaning_literal (hm : m.Sound) {p : NodeId × NodeId} (hp : m.literals[v]? = some p)
    (a : Var → Bool) : (m.diagram.Live p.1 ∧ m.meaning p.1 a = a v) ∧
      m.diagram.Live p.2 ∧ m.meaning p.2 a = !a v := by
  obtain ⟨hpos, hneg⟩ := hm.value_literal hp a
  exact ⟨⟨hpos.live, (hm.value_iff hpos.live).mp hpos⟩, hneg.live, (hm.value_iff hneg.live).mp hneg⟩

/-- The positive literal of a variable has the value of the variable. -/
theorem Sound.meaning_positive (hm : m.Sound) (h : m.positive? v = some g) (a : Var → Bool) :
    m.diagram.Live g ∧ m.meaning g a = a v := by
  obtain ⟨p, hp, rfl⟩ := Option.map_eq_some_iff.mp h
  exact (hm.meaning_literal hp a).1

end Manager

/-- Each level has the value of its entry in the pairing.  Past the last level that was set this is the
value of the variable there. -/
theorem Manager.Sound.eval_entries {e : Manager} (he : e.Sound) (hplain : e.Plain) {number : Nat}
    {p : Pairing} (hp : e.pairing number = .ok p) {f : NodeId} (hf : e.diagram.Live f)
    (a : Var → Bool) (past : Level → Prop) [DecidablePred past]
    (hpast : ∀ l, past l → ∀ last, p.last = some last → last < l) :
    (e.diagram.tree f).eval (fun l =>
        if past l then a (e.order.varAt.getD l 0) else e.meaning (p.entry l) a) =
      e.meaning f (e.substituted number a) := by
  have ht := getElem?_of_pairing hp
  have hmem := Array.mem_of_getElem? ht
  refine he.eval_eq_meaning hf fun v l hl => ?_
  have hat := he.order.varAt_levelOf hl
  have hlt : l < p.result.size := by
    rw [(he.pairings.entries p hmem).1]
    exact (Array.getElem?_eq_some_iff.mp hat).1
  have hentry : p.result[l]? = some (p.entry l) := by
    rw [Pairing.entry, Array.getD_eq_getD_getElem?, Array.getElem?_eq_getElem hlt]
    rfl
  rw [substituted_eq (substitute?_eq_some.mpr ⟨p, l, ht, hl, hentry⟩)]
  split
  · rename_i hl
    obtain ⟨w, hw, hpositive⟩ := hplain p hmem hentry (hpast l hl)
    rw [(he.meaning_positive hpositive a).2, Array.getD_eq_getD_getElem?, hw]
    rfl
  · rfl

/-! ### The two requests -/

namespace Request

open Program Manager

variable {m : Manager} {f g : NodeId} {v : Var} {number : Nat}

/-- What the answer of `compose` has to mean. -/
theorem meets_compose (hm : m.Ready) :
    (compose f g v).Meets (fun res m' => (m.diagram.Live f ∧ m.diagram.Live g) ∧ v < m.varNum ∧
      ∀ a, m'.meaning res a = m.meaning f (Function.update a v (m.meaning g a))) m := by
  refine meets_yields hm fun hcheck hlive e he hretains hk hsame => ?_
  have hv := checkVar_ok hcheck
  have hf := hk f (by simp)
  have hg := hk g (by simp)
  obtain ⟨level, hlevel, hlt⟩ := he.exists_levelOf (Nat.lt_of_lt_of_le hv hretains.varNum)
  refine ⟨(· = Tree.compose level (e.diagram.tree f) (e.diagram.tree g)),
    .depth he (.observe he (observes_levelOf hlevel) ?_), fun res m' hev _ htree =>
      ⟨⟨hlive f (by simp), hlive g (by simp)⟩, hv, fun a => ?_⟩⟩
  · rintro _ rfl
    exact .compose_depth he hlt hf hg
  · rw [meaning, htree, hev.order, Tree.eval_compose, ← hsame f (by simp), ← hsame g (by simp)]
    exact he.eval_update (he.kept_live hf) (levelOf_ok hlevel) a _

/-- What the answer of `vecCompose` has to mean. -/
theorem meets_vecCompose (hm : m.Ready) (hplain : m.Plain) :
    (vecCompose f number).Meets (fun res m' => m.diagram.Live f ∧
      number < m.pairings.tables.size ∧ (m'.pairings.updates < 2 ^ 32 →
        ∀ a, m'.meaning res a = m.meaning f (m.substituted number a))) m := by
  refine meets_yields hm fun hcheck hlive e he hretains hk hsame => ?_
  have hf := hk f (by simp)
  have hnumber : number < m.pairings.tables.size := by
    obtain ⟨⟨⟩, -, hcheck⟩ := exists_of_bind_eq_ok hcheck
    obtain ⟨_, hp, -⟩ := exists_of_bind_eq_ok hcheck
    exact pairing_lt hp
  obtain ⟨p, hp⟩ := exists_pairing (Nat.lt_of_lt_of_le hnumber hretains.carries.tables)
  have hplain := hretains.carries.plain hplain
  have hlive' := he.kept_live hf
  have hsubstituted : ∀ a, e.meaning f (e.substituted number a) =
      m.meaning f (m.substituted number a) := by
    intro a
    rw [hsame f (by simp)]
    refine hm.toSound.meaning_congr (hlive f (by simp)) fun v hv => ?_
    obtain ⟨g, hg⟩ := hm.toSound.aligned.exists_substitute hnumber hv
    rw [substituted_eq hg, substituted_eq (hretains.carries.kept nofun hg)]
    exact congrFun (hretains.meaning hm.toSound he (hm.toSound.live_substitute hg)
      (.inr (named_substitute hg))).2 a
  -- Nothing was set in the pairing, or the recursion ran down to the last level that was.
  rcases hlast : p.last with _ | last
  · refine ⟨_, .depth he (.vecComposeBy_unset he hp hlast hf), fun res m' hev _ htree =>
      ⟨hlive f (by simp), hnumber, fun _ a => ?_⟩⟩
    rw [meaning, htree, hev.order, ← hsubstituted]
    rw [← he.eval_entries hplain hp hlive' a (fun _ => True) fun _ _ last hl => by
      rw [hlast] at hl
      cases hl]
    simp only [if_true]
  · refine ⟨_, .depth he (.vecComposeBy he hp hf), fun res m' hev _ htree =>
      ⟨hlive f (by simp), hnumber, fun hu a => ?_⟩⟩
    rw [hev.pairings] at hu
    have htree := (he.tells_vecCompose (mem_tables hp) hlast).mp (htree last hlast) hu
    rw [meaning, ← htree, hev.order, (he.operand hf).proper he |>.eval_vecCompose, ← hsubstituted]
    exact he.eval_entries hplain hp hlive' a (last < ·) fun l hl last' hl' =>
      Option.some.inj (hlast.symm.trans hl') ▸ hl

end Request

/-! ### Entries -/

namespace Pairings

/-- An entry is the one that was set, or as before. -/
theorem substitute?_set {p p' : Pairings} {o : VarOrder} (ho : o.Valid) (hp : p.Fits o.size)
    {number : Nat} {level : Level} {g : NodeId} (h : p.set? number level g = some p') {old : Var}
    (hold : o.levelOf[old]? = some level) (i : Nat) (v : Var) :
    p'.substitute? o i v = if i = number ∧ v = old then some g else p.substitute? o i v := by
  unfold set? at h
  by_cases hi : i = number
  · subst hi
    unfold update? at h
    split at h
    · rename_i hlt
      obtain rfl := Option.some.inj h
      have hsize := (hp.entries _ (Array.getElem_mem hlt)).1
      have hlevel := (Array.getElem?_eq_some_iff.mp (ho.varAt_levelOf hold)).1
      simp only [substitute?, Array.getElem?_modify, if_true, Array.getElem?_eq_getElem hlt,
        Option.map_some, Option.bind_eq_bind, Option.bind_some, true_and]
      by_cases hv : v = old
      · subst hv
        rw [hold, if_pos rfl, Option.bind_some, Array.getElem?_setIfInBounds_self_of_lt]
        exact hsize.symm ▸ hlevel
      · rw [if_neg hv]
        rcases hl : o.levelOf[v]? with _ | l
        · rfl
        · -- Two variables do not stand at one level.
          have hne : level ≠ l := by
            rintro rfl
            exact hv (Option.some.inj ((ho.varAt_levelOf hl).symm.trans (ho.varAt_levelOf hold)))
          rw [Option.bind_some, Option.bind_some, Array.getElem?_setIfInBounds_ne hne]
    · cases h
  · rw [if_neg fun h => hi h.1]
    simp only [substitute?, getElem?_update_of_ne h hi]

end Pairings

variable {m m' : Manager} {c : Command} {number : Nat} {old : Var} {g : NodeId} {answer : Answer}

theorem Action.Ensures.entered (hm : m.Ready) {level : Level} (hlevel : m.levelOf old = .ok level)
    {f : Manager → Option Pairings}
    (hf : ∀ p, f m = some p → m.pairings.set? number level g = some p) (i : Nat) (v : Var) :
    Ensures m (Manager.updatePairings f) (fun _ m' => m'.substitute? i v =
      if i = number ∧ v = old then some g else m.substitute? i v) fun _ _ => True := by
  unfold Ensures Manager.updatePairings
  rcases hp : f m with _ | p
  · trivial
  · exact Pairings.substitute?_set hm.order hm.pairings (hf p hp) (Manager.levelOf_ok hlevel) i v

/-- The number of the pairing that a command makes an entry in, with the variable and its substitute. -/
def Command.entry? (m : Manager) : Command → Option (Nat × Var × NodeId)
  | .setPair number old new => (m.positive? new).map fun g => (number, old, g)
  | .setPairNode number old g => some (number, old, g)
  | _ => none

/-- A command that makes an entry changes this entry only. -/
theorem Command.substitute?_entered (hm : m.Ready) (hc : c.entry? m = some (number, old, g))
    (h : c.run m = (.ok answer, m')) (i : Nat) (v : Var) :
    m'.substitute? i v = if i = number ∧ v = old then some g else m.substitute? i v := by
  refine of_ok (Q := fun _ m' => m'.substitute? i v =
    if i = number ∧ v = old then some g else m.substitute? i v) (E := fun _ _ => True) ?_ h
  cases c
  case setPair number old new =>
    obtain ⟨g, hg, heq⟩ := Option.map_eq_some_iff.mp hc
    cases heq
    obtain ⟨p, hp, rfl⟩ := Option.map_eq_some_iff.mp hg
    refine Action.Ensures.bind (.read (fun _ => trivial) fun _ _ => .read (fun _ => trivial)
      fun _ _ => .read (fun _ => trivial) fun level hlevel =>
        .entered hm hlevel (fun p' hp' => ?_) i v) fun _ _ h => h
    simpa [hp] using hp'
  case setPairNode =>
    cases hc
    exact Action.Ensures.bind (.read (fun _ => trivial) fun _ _ => .read (fun _ => trivial)
      fun _ _ => .read (fun _ => trivial) fun level hlevel =>
        .entered hm hlevel (fun _ hp => hp) i v) fun _ _ h => h
  all_goals cases hc

/-! ### Answers -/

namespace Manager

/-- An assignment that gives to each variable the value which its substitute has at another one. -/
def Substitutes (m : Manager) (number : Nat) (assignment result : Array Bool) : Prop :=
  result.size = assignment.size ∧ ∀ v, v < m.varNum → ∃ g b, m.substitute? number v = some g ∧
    m.eval g assignment = .ok b ∧ result[v]? = some b

theorem Sound.exists_substitutes (hm : m.Sound) (hnumber : number < m.pairings.tables.size)
    {assignment : Array Bool} (ha : m.varNum ≤ assignment.size) :
    ∃ assignment', m.Substitutes number assignment assignment' ∧
      ∀ v, v < m.varNum → m.substituted number (valuation assignment) v = valuation assignment' v := by
  obtain ⟨assignment', hsize, hvalue⟩ :=
    exists_valuation assignment.size (m.substituted number (valuation assignment))
  have hlt : ∀ v, v < m.varNum → v < assignment.size := fun v hv => Nat.lt_of_lt_of_le hv ha
  refine ⟨assignment', ⟨hsize, fun v hv => ?_⟩, fun v hv => (hvalue v (hlt v hv)).symm⟩
  obtain ⟨g, hg⟩ := hm.aligned.exists_substitute hnumber hv
  have hget := Array.getElem?_eq_getElem (hsize.symm ▸ hlt v hv : v < assignment'.size)
  refine ⟨g, _, hg, hm.eval_eq (hm.live_substitute hg) ha, ?_⟩
  rw [← substituted_eq hg, ← hvalue v (hlt v hv), valuation_eq hget, hget]

/-- Substitution is right.  The result of `compose` has at each assignment the value that the operand
had before the call where the variable has the value of its substitute.  The result of `vecCompose` has
the value that the operand had where every variable has the value of its own substitute, all at once,
unless the stamps of the pairings have run out.  What is substituted for a variable is what was
entered for it last; other calls, whatever they do to the order, leave it so. -/
theorem Settled.substitution (hm : m.Settled) :
    (∀ f g v answer m', (Command.compose f g v).run m = (.ok answer, m') →
      ∃ res, answer = .node res ∧ m'.store.isLive res = true ∧
        ∀ assignment : Array Bool, m'.varNum ≤ assignment.size → ∃ b c,
          m.eval g assignment = .ok b ∧ m.eval f (assignment.setIfInBounds v b) = .ok c ∧
          m'.eval res assignment = .ok c) ∧
    (m.pairings.updates < 2 ^ 32 → ∀ f number answer m',
      (Command.vecCompose f number).run m = (.ok answer, m') →
      ∃ res, answer = .node res ∧ m'.store.isLive res = true ∧
        ∀ assignment : Array Bool, m'.varNum ≤ assignment.size → ∃ assignment' c,
          m.Substitutes number assignment assignment' ∧ m.eval f assignment' = .ok c ∧
          m'.eval res assignment = .ok c) ∧
    (∀ (c : Command) number old g answer m', c.entry? m = some (number, old, g) →
      c.run m = (.ok answer, m') → ∀ i v, m'.substitute? i v =
        if i = number ∧ v = old then some g else m.substitute? i v) ∧
    (∀ (c : Command) number v g, c.Issued m → c.edited? ≠ some number →
      m.substitute? number v = some g → (c.run m).2.substitute? number v = some g) := by
  have hready := hm.ready
  refine ⟨fun f g v answer m' h => ?_, fun hu f number answer m' h => ?_,
    fun c number old g answer m' hc h => Command.substitute?_entered hready hc h,
    fun c number v g hc hedit hg => ?_⟩
  · obtain ⟨res, hanswer, hcompletes, -, hlive, ⟨hf, hg⟩, hv, hmeaning⟩ := Command.answered hready
      (c := .compose f g v) rfl (fun h _ _ _ => h) (Request.meets_compose hready) h
    have hsound := hcompletes.ready.toSound
    refine ⟨res, hanswer, hsound.store.live_iff.mp hlive, fun assignment ha => ?_⟩
    have hsize := Nat.le_trans hcompletes.retains.varNum ha
    refine ⟨_, _, hready.toSound.eval_eq hg hsize, hready.toSound.eval_eq hf (by simpa using hsize), ?_⟩
    rw [hsound.eval_eq hlive ha, hmeaning, valuation_set (Nat.lt_of_lt_of_le hv hsize)]
  · obtain ⟨res, hanswer, hcompletes, haccounts, hlive, hf, hnumber, hmeaning⟩ :=
      Command.answered hready (c := .vecCompose f number) rfl (fun h _ _ _ => h)
        (Request.meets_vecCompose hready hm.plain) h
    have hsound := hcompletes.ready.toSound
    refine ⟨res, hanswer, hsound.store.live_iff.mp hlive, fun assignment ha => ?_⟩
    have hsize := Nat.le_trans hcompletes.retains.varNum ha
    obtain ⟨assignment', hsubstitutes, hvalue⟩ :=
      hready.toSound.exists_substitutes hnumber hsize
    refine ⟨assignment', _, hsubstitutes, hready.toSound.eval_eq hf ?_, ?_⟩
    · rw [hsubstitutes.1]
      exact hsize
    · rw [hsound.eval_eq hlive ha, hmeaning (haccounts.updates.trans_lt hu),
        hready.toSound.meaning_congr hf hvalue]
  · exact (c.run_passes hready
      (Command.run_ne_fault hready hm.reachable.nested hc)).carries.kept hedit hg

/-- What is substituted depends on the variable that it is for.  In the pairing each of two variables has
a substitute that depends on the other one. -/
theorem substitution_cyclic :
    ∃ m, after (.small 16 64) [.setVarNum 2, .apply .and 2 5, .protect 6, .newPairing, .setPair 0 0 1,
        .setPairNode 0 1 6, .swapVar 0 1] = some m ∧ m.order.toList = [1, 0] ∧
      m.substitute? 0 0 = some 4 ∧ m.substitute? 0 1 = some 6 ∧
      ∀ assignment : Array Bool, 2 ≤ assignment.size →
        (∃ b c, m.eval 6 assignment = .ok b ∧
          m.eval 6 (assignment.setIfInBounds 1 b) = .ok c ∧
          ((Command.compose 6 6 1).run m).2.eval 7 assignment = .ok c) ∧
        ∃ assignment' c, m.Substitutes 0 assignment assignment' ∧ m.eval 6 assignment' = .ok c ∧
          ((Command.vecCompose 6 0).run m).2.eval 4 assignment = .ok c := by
  have hrun : (after (.small 16 64) [.setVarNum 2, .apply .and 2 5, .protect 6, .newPairing,
      .setPair 0 0 1, .setPairNode 0 1 6, .swapVar 0 1]).any fun m =>
        m.order.toList == [1, 0] && m.substitute? 0 0 == some 4 && m.substitute? 0 1 == some 6 &&
        m.pairings.updates == 3 &&
        (Command.compose 6 6 1).node? m == some 7 && (Command.vecCompose 6 0).node? m == some 4 &&
        ((Command.compose 6 6 1).run m).2.varNum == 2 &&
        ((Command.vecCompose 6 0).run m).2.varNum == 2 := by
    decide +kernel
  obtain ⟨m, hm, hfacts⟩ := (Option.any_eq_true _ _).mp hrun
  simp only [Bool.and_eq_true, beq_iff_eq] at hfacts
  obtain ⟨⟨⟨⟨⟨⟨⟨horder, h0⟩, h1⟩, hu⟩, hcompose⟩, hvec⟩, hvar⟩, hvar'⟩ := hfacts
  obtain ⟨hone, hall, -⟩ := (settled_after hm).substitution
  obtain ⟨res, hres, -, hvalue⟩ :=
    hone 6 6 1 _ _ (Prod.ext (Command.run_of_node? hcompose) rfl)
  obtain rfl : 7 = res := Answer.node.inj hres
  obtain ⟨res, hres, -, hvalue'⟩ :=
    hall (by omega) 6 0 _ _ (Prod.ext (Command.run_of_node? hvec) rfl)
  obtain rfl : 4 = res := Answer.node.inj hres
  exact ⟨m, hm, horder, h0, h1, fun assignment ha =>
    ⟨hvalue assignment (hvar.trans_le ha), hvalue' assignment (hvar'.trans_le ha)⟩⟩

end Manager

end DecisionDiagram
