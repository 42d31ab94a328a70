/-
Renaming is substitution of variables by variables, and finds a conflict only where two become one.

A pairing that has been built from variables stands for a map of the variables, whatever becomes of the
order afterwards.  Renaming by it sinks every variable through diagrams that are renamed already, and
breaks off if one of them has that variable.  It does not if the map tells the variables apart that
the operand depends on, whether these change places, go round in a circle or move past each other.

* `Manager.Renames` — the calls that build such a pairing;
* `Manager.Renaming` — what its entries are in consequence (`Manager.Renames.renaming`);
* `Request.meets_replace`, `Request.replace_avoids` — the request, in terms of meanings;
* `Manager.Renames.replacement` — the answers of every call, and the conflicts that there are not.
-/
import DecisionDiagram.Proofs.Dependence
import DecisionDiagram.Proofs.Operator.Conflict
import DecisionDiagram.Proofs.Tree.Rename

namespace DecisionDiagram

namespace Manager

variable {m m' : Manager} {number : Nat} {π : Var → Var} {f g : NodeId} {v w : Var}

/-! ### Pairings that are built from variables -/

/-- The pairing has the literal of `π v` for each variable `v`.  Variables that there are not stand for
themselves. -/
structure Renaming (m : Manager) (number : Nat) (π : Var → Var) : Prop where
  known : number < m.pairings.tables.size
  entry : ∀ v, v < m.varNum → ∃ g, m.substitute? number v = some g ∧ m.positive? (π v) = some g
  beyond : ∀ v, m.varNum ≤ v → π v = v

/-- A manager in which calls have built a pairing from variables: it is new or was reset, and since then
only variables have been entered, while all kinds of other calls have come in between.  The map `π` says
what each variable stands for. -/
inductive Renames : Manager → Nat → (Var → Var) → Prop
  | create {m m' : Manager} {number : Nat} (hm : m.Settled)
    (h : Command.newPairing.run m = (.ok (.number number), m')) : Renames m' number id
  | reset {m m' : Manager} {number : Nat} {answer : Answer} (hm : m.Settled)
    (h : (Command.resetPairing number).run m = (.ok answer, m')) : Renames m' number id
  | set {m m' : Manager} {number : Nat} {π : Var → Var} {old new : Var} {answer : Answer}
    (hm : Renames m number π) (h : (Command.setPair number old new).run m = (.ok answer, m')) :
    Renames m' number (Function.update π old new)
  | call {m : Manager} {number : Nat} {π : Var → Var} (c : Command) (hm : Renames m number π)
    (hedit : c.edited? = some number → ∃ e, (c.run m).1 = .error (.error e))
    (h : (c.run m).1 ≠ .error .fault)
    (complete : c.isExtension = true → (c.run m).1 ≠ .error (.error .nodeLimit)) :
    Renames (c.run m).2 number π

/-! ### What their entries are -/

theorem Aligned.substitute?_eq_none (hm : m.Aligned) (hv : m.varNum ≤ v) :
    m.substitute? number v = none := by
  rcases h : m.substitute? number v with _ | g
  · rfl
  · obtain ⟨t, l, -, hl, -⟩ := substitute?_eq_some.mp h
    have hlt := (Array.getElem?_eq_some_iff.mp hl).1
    rw [hm.order.size] at hlt
    exact absurd hv (Nat.not_le.mpr hlt)

/-- A call leaves a pairing that it does not edit as it is.  New variables stand for themselves. -/
theorem Renaming.carries {edited : Option Nat} (h : m.Renaming number π) (hm : m.Aligned)
    (hm' : m'.Aligned) (hc : m.Carries edited m') (hedit : edited ≠ some number)
    (hvar : m.varNum ≤ m'.varNum)
    (hl : ∀ {v : Var} {p}, m.literals[v]? = some p → m'.literals[v]? = some p) :
    m'.Renaming number π := by
  have hknown := Nat.lt_of_lt_of_le h.known hc.tables
  refine ⟨hknown, fun v hv => ?_, fun v hv => h.beyond v (Nat.le_trans hvar hv)⟩
  -- Old variables keep their entries, and those of new variables are their own literals.
  by_cases hv' : v < m.varNum
  · obtain ⟨g, hg, hpositive⟩ := h.entry v hv'
    obtain ⟨p, hp, rfl⟩ := Option.map_eq_some_iff.mp hpositive
    exact ⟨p.1, hc.kept hedit hg, by rw [positive?, hl hp]; rfl⟩
  · have hv' := Nat.le_of_not_lt hv'
    obtain ⟨g, hg⟩ := hm'.exists_substitute hknown hv
    rw [h.beyond v hv']
    exact ⟨g, hg, hc.fresh hedit h.known (hm.substitute?_eq_none hv') hg⟩

/-- A pairing whose entries are those of the identity. -/
theorem Renaming.of_identity (hm : m.Aligned) {t : Pairing}
    (ht : m.pairings.tables[number]? = some t) (hresult : t.result = m.identity) :
    m.Renaming number id := by
  have hknown := (Array.getElem?_eq_some_iff.mp ht).1
  refine ⟨hknown, fun v hv => ?_, fun v _ => rfl⟩
  obtain ⟨g, hg⟩ := hm.exists_substitute hknown hv
  refine ⟨g, hg, ?_⟩
  obtain ⟨t', l, ht', hl, hget⟩ := substitute?_eq_some.mp hg
  obtain rfl := Option.some.inj (ht.symm.trans ht')
  rw [hresult] at hget
  obtain ⟨w, hw, hpositive⟩ := getElem?_identity hm.order hm.literals_size hget
  obtain rfl := Option.some.inj (hw.symm.trans (hm.order.varAt_levelOf hl))
  exact hpositive

end Manager

namespace Command

open Manager

variable {m m' : Manager} {number : Nat} {old new : Var} {answer : Answer} {e : Error}

/-- Pairings are replaced by an update that has an answer. -/
theorem ensures_updatePairings (f : Manager → Option Pairings) (m : Manager) :
    Action.Ensures m (Manager.updatePairings f) (fun _ m' => ∃ p, f m = some p ∧
      m' = { m with pairings := p }) fun _ m' => m' = m := by
  unfold Action.Ensures Manager.updatePairings
  rcases hp : f m with _ | p
  · trivial
  · exact ⟨p, rfl, rfl⟩

/-- What a call of `setPair` has done. -/
theorem ensures_setPair (m : Manager) (number : Nat) (old new : Var) :
    Action.Ensures m (setPair number old new).perform (fun _ m' => old < m.varNum ∧ new < m.varNum ∧
      ∃ p, m' = { m with pairings := p }) fun _ m' => m' = m :=
  Action.Ensures.bind (.read (fun _ => rfl) fun _ hold => .read (fun _ => rfl) fun _ hnew =>
    .read (fun _ => rfl) fun _ _ => (ensures_updatePairings _ m).mono
      (fun _ _ ⟨p, _, hp⟩ => ⟨checkVar_ok hold, checkVar_ok hnew, p, hp⟩) fun _ _ h => h)
    fun _ _ h => h

/-- What a call of `resetPairing` has done. -/
theorem ensures_resetPairing (m : Manager) (number : Nat) :
    Action.Ensures m (resetPairing number).perform (fun _ m' => ∃ p,
      m.pairings.reset? number m.identity = some p ∧ m' = { m with pairings := p })
      fun _ m' => m' = m :=
  Action.Ensures.bind (ensures_updatePairings _ m) fun _ _ h => h

/-- A call that fails to edit a pairing changes nothing. -/
theorem edit_error {c : Command} (hedit : c.edited? = some number)
    (he : (c.run m).1 = .error (.error e)) : (c.run m).2 = m := by
  refine of_error (Q := fun _ _ => True) (E := fun _ m' => m' = m) ?_ he
  cases c <;> cases hedit
  case setPair.refl old new =>
    exact (ensures_setPair m number old new).mono (fun _ _ _ => trivial) fun _ _ h => h
  case setPairNode.refl old g =>
    exact Action.Ensures.bind (Q := fun _ _ => True) (.read (fun _ => rfl) fun _ _ =>
      .read (fun _ => rfl) fun _ _ => .read (fun _ => rfl) fun _ _ =>
        (ensures_updatePairings _ m).mono (fun _ _ _ => trivial) fun _ _ h => h) fun _ _ h => h
  case resetPairing.refl =>
    exact (ensures_resetPairing m number).mono (fun _ _ _ => trivial) fun _ _ h => h

end Command

namespace Manager

variable {m m' : Manager} {number : Nat} {π : Var → Var} {f g : NodeId} {v w : Var}

theorem Renames.settled (h : m.Renames number π) : m.Settled := by
  have ok : ∀ {m m' : Manager} {c : Command} {answer : Answer}, m.Settled →
      c.run m = (.ok answer, m') → m'.Settled := fun {m m' c answer} hm hrun => by
    have hm' := hm.call c (fun heq => by rw [hrun] at heq; cases heq)
      fun _ heq => by rw [hrun] at heq; cases heq
    rwa [hrun] at hm'
  induction h with
  | create hm h => exact ok hm h
  | reset hm h => exact ok hm h
  | set _ h ih => exact ok ih h
  | call c _ _ h complete ih => exact ih.call c h complete

/-- Whatever calls have come in between, the entries are the literals that the map says. -/
theorem Renames.renaming (h : m.Renames number π) : m.Renaming number π := by
  induction h with
  | @create m m' number hm h =>
    have haligned := (Renames.create hm h).settled.ready.aligned
    have hrun : Command.newPairing.run m = (.ok (.number m.pairings.tables.size),
        { m with pairings := m.pairings.create m.identity }) := rfl
    cases hrun.symm.trans h
    exact .of_identity haligned Array.getElem?_push_size rfl
  | @reset m m' number answer hm h =>
    have haligned := (Renames.reset hm h).settled.ready.aligned
    obtain ⟨p, hp, rfl⟩ := Command.of_ok (Command.ensures_resetPairing m number) h
    unfold Pairings.reset? Pairings.update? at hp
    split at hp
    · rename_i hlt
      obtain rfl := Option.some.inj hp
      refine .of_identity (t := ⟨m.identity, none, m.pairings.nextStamp⟩) haligned ?_ rfl
      rw [Array.getElem?_modify, if_pos rfl, Array.getElem?_eq_getElem hlt]
      rfl
    · cases hp
  | @set m m' number π old new answer hm h ih =>
    have hready := hm.settled.ready
    obtain ⟨hold, hnew, p, rfl⟩ := Command.of_ok (Command.ensures_setPair m number old new) h
    have hlt : new < m.literals.size := hready.aligned.literals_size.symm ▸ hnew
    have hliteral := Array.getElem?_eq_getElem hlt
    have hentry : Command.entry? m (.setPair number old new) =
        some (number, old, m.literals[new].1) := by
      show (m.positive? new).map (fun g => (number, old, g)) = _
      rw [positive?, hliteral]
      rfl
    have hsubstitute := Command.substitute?_entered hready hentry h number
    refine ⟨?_, fun v hv => ?_, fun v hv => ?_⟩
    · have hpasses := Command.run_passes hready (.setPair number old new)
        fun heq => by rw [h] at heq; cases heq
      rw [h] at hpasses
      exact Nat.lt_of_lt_of_le ih.known hpasses.carries.tables
    · rw [hsubstitute]
      by_cases hv' : v = old
      · rw [if_pos ⟨rfl, hv'⟩, hv', Function.update_self]
        exact ⟨_, rfl, by rw [positive?, hliteral]; rfl⟩
      · rw [if_neg fun h => hv' h.2, Function.update_of_ne hv']
        exact ih.entry v hv
    · rw [Function.update_of_ne, ih.beyond v hv]
      rintro rfl
      exact Nat.not_lt.mpr hv hold
  | @call m number π c hm hedit h complete ih =>
    -- A call that edits the pairing is one that failed.
    by_cases hnumber : c.edited? = some number
    · obtain ⟨e, he⟩ := hedit hnumber
      rwa [Command.edit_error hnumber he]
    · have hpasses := c.run_passes hm.settled.ready h
      exact ih.carries hm.settled.ready.aligned hpasses.aligned hpasses.carries hnumber
        hpasses.follows.varNum hpasses.follows.literals

/-! ### Levels -/

/-- A positive literal decides the level of its variable. -/
theorem Sound.level_positive (hm : m.Sound) (h : m.positive? v = some g) :
    ∃ l, m.order.levelOf[v]? = some l ∧ (m.diagram.tree g).level? = some l := by
  obtain ⟨p, hp, rfl⟩ := Option.map_eq_some_iff.mp h
  have hv := (Array.getElem?_eq_some_iff.mp hp).1
  rw [hm.literals_size] at hv
  obtain ⟨l, hl, -⟩ := hm.order.getD_levelOf hv
  exact ⟨l, hl, by rw [hm.reduced.tree_node (hm.literals hp hl).1, Tree.level?]⟩

variable {p : Pairing} {l last : Level}

/-- The entry for the level of a variable is the literal of the variable which this one stands for. -/
theorem Renaming.level_entry (h : m.Renaming number π) (hm : m.Sound) (hp : m.pairing number = .ok p)
    (hl : m.order.levelOf[v]? = some l) :
    p.result[l]? = some (p.entry l) ∧ m.positive? (π v) = some (p.entry l) := by
  have hv := (Array.getElem?_eq_some_iff.mp hl).1
  rw [hm.order.size] at hv
  obtain ⟨g, hg, hpositive⟩ := h.entry v hv
  obtain ⟨t, k, ht, hk, hget⟩ := substitute?_eq_some.mp hg
  obtain rfl := Option.some.inj ((getElem?_of_pairing hp).symm.trans ht)
  obtain rfl := Option.some.inj (hl.symm.trans hk)
  obtain rfl : p.entry l = g := by
    rw [Pairing.entry, Array.getD_eq_getD_getElem?, hget, Option.getD_some]
  exact ⟨hget, hpositive⟩

/-- Past the last level that was set, variables stand for themselves. -/
theorem Renaming.eq_self (h : m.Renaming number π) (hm : m.Sound) (hplain : m.Plain)
    (hp : m.pairing number = .ok p) (hl : m.order.levelOf[v]? = some l)
    (hpast : ∀ last, p.last = some last → last < l) : π v = v := by
  obtain ⟨hget, hpositive⟩ := h.level_entry hm hp hl
  obtain ⟨w, hw, hown⟩ := hplain p (Program.mem_tables hp) hget hpast
  obtain rfl := Option.some.inj ((hm.order.varAt_levelOf hl).symm.trans hw)
  -- Two variables with one literal stand at one level.
  obtain ⟨k, hk, hlevel⟩ := hm.level_positive hpositive
  obtain ⟨k', hk', hlevel'⟩ := hm.level_positive hown
  obtain rfl := Option.some.inj (hlevel.symm.trans hlevel')
  exact Option.some.inj ((hm.order.varAt_levelOf hk).symm.trans (hm.order.varAt_levelOf hk'))

/-- The level of a variable is renamed to that of the variable which it stands for. -/
theorem Renaming.level_renamed (h : m.Renaming number π) (hm : m.Sound) (hplain : m.Plain)
    (hp : m.pairing number = .ok p) (hlast : p.last = some last)
    (hl : m.order.levelOf[v]? = some l) :
    m.order.levelOf[π v]? =
      some (Tree.renamed (fun k => (m.diagram.tree (p.entry k)).level?) last l) := by
  rw [Tree.renamed]
  split
  · rename_i hlt
    rw [h.eq_self hm hplain hp hl fun last' hlast' =>
      Option.some.inj (hlast.symm.trans hlast') ▸ hlt, hl]
  · obtain ⟨k, hk, hlevel⟩ := hm.level_positive (h.level_entry hm hp hl).2
    rw [hk, hlevel, Option.getD_some]

end Manager

/-! ### The request -/

namespace Request

open Program Manager

variable {m : Manager} {number : Nat} {π : Var → Var} {f : NodeId}

/-- What the answer of `replace` has to mean. -/
theorem meets_replace (hm : m.Ready) (hplain : m.Plain) (h : m.Renaming number π) :
    (replace f number).Meets (fun res m' => m.diagram.Live f ∧ (m'.pairings.updates < 2 ^ 32 →
      ∀ a, m'.meaning res a = m.meaning f (a ∘ π))) m := by
  refine meets_yields hm fun _ hlive e he hretains hk hsame => ?_
  have hf := hk f (by simp)
  have hlive' := he.kept_live hf
  have hplain := hretains.carries.plain hplain
  have h := h.carries hm.toSound.aligned he.aligned hretains.carries
    (Option.some_ne_none number).symm hretains.varNum hretains.literals
  obtain ⟨p, hp⟩ := exists_pairing h.known
  rcases hlast : p.last with _ | last
  · refine ⟨_, .depth he (.renameBy_unset he hp hlast hf), fun res m' hev _ htree =>
      ⟨hlive f (by simp), fun _ a => ?_⟩⟩
    rw [meaning, htree, hev.order, ← hsame f (by simp)]
    refine he.meaning_congr hlive' fun v hv => ?_
    obtain ⟨l, hl, -⟩ := he.order.getD_levelOf hv
    rw [Function.comp_apply, h.eq_self he hplain hp hl fun last hl => by rw [hlast] at hl; cases hl]
  · refine ⟨_, .depth he (.renameBy he hp hf), fun res m' hev _ htree =>
      ⟨hlive f (by simp), fun hu a => ?_⟩⟩
    rw [hev.pairings] at hu
    have htree := (he.tells_rename (mem_tables hp) hlast).mp (htree last hlast) hu
    rw [meaning, ((he.operand hf).proper he).eval_rename htree, hev.order, ← hsame f (by simp)]
    exact he.eval_eq_meaning hlive' fun v l hl =>
      he.getD_agrees a _ _ (h.level_renamed he hplain hp hlast hl)

/-- No attempt at `replace` finds a conflict if the variables that the operand depends on are told
apart. -/
theorem replace_avoids (hm : m.Ready) (hplain : m.Plain) (h : m.Renaming number π)
    (hu : m.pairings.updates < 2 ^ 32) (hf : m.diagram.Live f)
    (hinj : Set.InjOn π {v | m.DependsOn f v}) :
    Action.Ensures m (Manager.call (replace f number)) (fun _ _ => True) fun e _ =>
      e ≠ .replaceConflict := by
  have hnode : m.checkNode f = .ok () := (checkNode_eq hm.store).mpr hf
  obtain ⟨p, hp⟩ := exists_pairing h.known
  have hcheck : (replace f number).check m = .ok () := by
    show (m.checkNode f >>= fun _ => m.pairing number >>= fun _ => pure ()) = _
    rw [hnode, hp]
    rfl
  have hnodes : m.checkNodes [f] = .ok () := by rw [checkNodes, hnode, checkNodes]
  refine (Action.Ensures.call_error hcheck rfl hnodes).mono (fun _ _ h => h) ?_
  rintro e - ⟨hattempt, hrun, -⟩ rfl
  have hu₁ := hattempt.updates.trans_lt hu
  obtain ⟨operands, exclusive, m₀, -, htask, ho, hc, -, rfl⟩ :=
    hattempt.completes hm (meets_replace hm hplain h)
  obtain rfl : [f] = operands := (Task.perform.inj htask).1
  have hs := hc.ready.toSound.equip (hc.live hm ho)
  have hretains := hc.retains.trans (retains_equip [f])
  have hkept : (m₀.equip [f]).Kept f := kept_equip (List.mem_singleton.mpr rfl)
  obtain ⟨hlive, hmeaning⟩ :=
    hretains.meaning hm.toSound hs hf (.inl (List.mem_singleton.mpr rfl))
  have hplain := hretains.carries.plain hplain
  have h := h.carries hm.toSound.aligned hs.aligned hretains.carries
    (Option.some_ne_none number).symm hretains.varNum hretains.literals
  obtain ⟨p, hp⟩ := exists_pairing h.known
  refine Avoids.depth (.renameBy hs hp hu₁ hkept fun last hlast => ?_) _ hrun
  -- A level that the tree decides is that of a variable which the operand depends on.
  have hvar : ∀ l ∈ ((m₀.equip [f]).diagram.tree f).levels,
      ∃ v, (m₀.equip [f]).order.levelOf[v]? = some l ∧ m.DependsOn f v := by
    intro l hl
    obtain ⟨v, -, -, hv, -⟩ := hs.order.getD_varAt (hs.lt_of_mem_levels hlive hl)
    refine ⟨v, hv, (hm.toSound.dependsOn_iff hf).mpr ?_⟩
    rw [← hmeaning]
    exact (hs.dependsOn_iff hlive).mp ((hs.dependsOn_iff_levels hlive).mpr ⟨l, hl, hv⟩)
  have hlevels : ∀ l ∈ ((m₀.equip [f]).diagram.tree f).levels, l ≤ last →
      ∃ j, ((m₀.equip [f]).diagram.tree (p.entry l)).level? = some j := by
    intro l hl _
    obtain ⟨v, hv, -⟩ := hvar l hl
    obtain ⟨j, -, hj⟩ := hs.level_positive (h.level_entry hs hp hv).2
    exact ⟨j, hj⟩
  have hrenamed : Set.InjOn
      (Tree.renamed (fun k => ((m₀.equip [f]).diagram.tree (p.entry k)).level?) last)
      {l | l ∈ ((m₀.equip [f]).diagram.tree f).levels} := by
    intro k hk l hl heq
    obtain ⟨v, hv, hdv⟩ := hvar k hk
    obtain ⟨w, hw, hdw⟩ := hvar l hl
    have hv' := h.level_renamed hs hplain hp hlast hv
    have hw' := h.level_renamed hs hplain hp hlast hw
    rw [heq] at hv'
    obtain rfl : v = w := hinj hdv hdw (Option.some.inj
      ((hs.order.varAt_levelOf hv').symm.trans (hs.order.varAt_levelOf hw')))
    exact Option.some.inj (hv.symm.trans hw)
  obtain ⟨t, ht, -⟩ := ((hs.operand hkept).proper hs).exists_rename hlevels hrenamed
  exact ⟨t, (hs.tells_rename (mem_tables hp) hlast).mpr fun _ => ht⟩

end Request

/-! ### Answers -/

namespace Manager

variable {m m' : Manager} {number : Nat} {π : Var → Var} {f res : NodeId} {answer : Answer}

/-- The assignment to `n` variables that gives to each of them the value of the variable which it stands
for. -/
def relabel (n : Nat) (π : Var → Var) (assignment : Array Bool) : Array Bool :=
  (Array.range n).map fun v => valuation assignment (π v)

theorem size_relabel (n : Nat) (π : Var → Var) (assignment : Array Bool) :
    (relabel n π assignment).size = n := by simp [relabel]

theorem valuation_relabel {n : Nat} {v : Var} (hv : v < n) (π : Var → Var) (assignment : Array Bool) :
    valuation (relabel n π assignment) v = valuation assignment (π v) := by
  refine valuation_eq ?_
  rw [relabel, Array.getElem?_map, Array.getElem?_range, if_pos hv, Option.map_some]

/-- What a call of `replace` answers, in terms of meanings. -/
theorem Renames.replaced (h : m.Renames number π) (hu : m.pairings.updates < 2 ^ 32)
    (hrun : (Command.replace f number).run m = (.ok answer, m')) :
    ∃ res, answer = .node res ∧ m.Completes [] m' ∧ m'.diagram.Live res ∧ m.diagram.Live f ∧
      ∀ a, m'.meaning res a = m.meaning f (a ∘ π) := by
  have hready := h.settled.ready
  obtain ⟨res, hanswer, hcompletes, haccounts, hlive, hf, hmeaning⟩ := Command.answered hready
    (c := .replace f number) rfl (fun h _ _ _ => h)
    (Request.meets_replace hready h.settled.plain h.renaming) hrun
  exact ⟨res, hanswer, hcompletes, hlive, hf, hmeaning (haccounts.updates.trans_lt hu)⟩

/-- The same for a call of `vecCompose`. -/
theorem Renames.composed (h : m.Renames number π) (hu : m.pairings.updates < 2 ^ 32)
    (hrun : (Command.vecCompose f number).run m = (.ok answer, m')) :
    ∃ res, answer = .node res ∧ m.Completes [] m' ∧ m'.diagram.Live res ∧ m.diagram.Live f ∧
      ∀ a, m'.meaning res a = m.meaning f (a ∘ π) := by
  have hready := h.settled.ready
  have hsound := hready.toSound
  obtain ⟨res, hanswer, hcompletes, haccounts, hlive, hf, -, hmeaning⟩ := Command.answered hready
    (c := .vecCompose f number) rfl (fun h _ _ _ => h)
    (Request.meets_vecCompose hready h.settled.plain) hrun
  refine ⟨res, hanswer, hcompletes, hlive, hf, fun a => ?_⟩
  rw [hmeaning (haccounts.updates.trans_lt hu)]
  refine hsound.meaning_congr hf fun v hv => ?_
  obtain ⟨g, hg, hpositive⟩ := h.renaming.entry v hv
  rw [substituted_eq hg, (hsound.meaning_positive hpositive a).2, Function.comp_apply]

/-- Renaming is right, by a pairing that was built from variables.  At each assignment the result has the
value that the operand has where each variable has the value of the one that it stands for, and this is
the result of substitution by such a pairing, whatever comes in between.  There is no conflict if the
variables that the operand depends on stand for different ones, wherever these are in the order. -/
theorem Renames.replacement (h : m.Renames number π) (hu : m.pairings.updates < 2 ^ 32) :
    (∀ f answer m', (Command.replace f number).run m = (.ok answer, m') →
      ∃ res, answer = .node res ∧ m'.store.isLive res = true ∧
        m.Composes f (relabel m.varNum π) res m' ∧
        ∀ n number' g res' n', n.Renames number' π → n.pairings.updates < 2 ^ 32 →
          m.Agrees f n g → (Command.vecCompose g number').run n = (.ok (.node res'), n') →
          m'.Agrees res n' res') ∧
    ∀ f, m.store.isLive f = true → Set.InjOn π {v | m.DependsOn f v} →
      ((Command.replace f number).run m).1 ≠ .error (.error .replaceConflict) := by
  have hready := h.settled.ready
  have hsound := hready.toSound
  refine ⟨fun f answer m' hrun => ?_, fun f hf hinj he => ?_⟩
  · obtain ⟨res, hanswer, hcompletes, hlive, hf, hmeaning⟩ := h.replaced hu hrun
    have hsound' := hcompletes.ready.toSound
    refine ⟨res, hanswer, hsound'.store.live_iff.mp hlive, .of_meaning hsound hsound' hf hlive
      (fun assignment _ => (size_relabel _ _ _).ge) fun assignment _ => ?_, ?_⟩
    · rw [hmeaning]
      exact hsound.meaning_congr hf fun v hv => (valuation_relabel hv π assignment).symm
    · intro n number' g res' n' hn hu' hagrees hrun'
      obtain ⟨_, hres, hcompletes', hlive', hg, hmeaning'⟩ := hn.composed hu' hrun'
      obtain rfl := Answer.node.inj hres
      refine (hsound'.agrees_iff hcompletes'.ready.toSound).mpr ⟨hlive, hlive', funext fun a => ?_⟩
      rw [hmeaning, hmeaning', ((hsound.agrees_iff hn.settled.ready.toSound).mp hagrees).2.2]
  · have havoids := Request.replace_avoids hready h.settled.plain h.renaming hu
      (hsound.store.live_iff.mpr hf) hinj
    refine Command.of_error (Q := fun _ _ => True) (E := fun e _ => e ≠ .replaceConflict) ?_ he rfl
    exact havoids.bind fun _ _ _ => trivial

/-- Two variables change places in an implication, while the order changes between the calls that say so. -/
theorem replacement_swap :
    ∃ m₀ m π, after (.small 8 64) [.setVarNum 2] = some m₀ ∧
      m₀.follow [.newPairing, .setPair 0 0 1, .swapVar 0 1, .setPair 0 1 0, .apply .imp 2 4] =
        some m ∧
      m.Renames 0 π ∧ [0, 1].map π = [1, 0] ∧ m.order.toList = [1, 0] ∧
      m.Composes 6 (relabel 2 π) 7 ((Command.replace 6 0).run m).2 ∧
      ((Command.replace 6 0).run m).2.Agrees 7 ((Command.vecCompose 6 0).run m).2 7 ∧
      ((Command.replace 6 0).run m).1 ≠ .error (.error .replaceConflict) := by
  have hrun : (after (.small 8 64) [.setVarNum 2]).any fun m₀ =>
        let m₁ := (Command.newPairing.run m₀).2
        let m₂ := ((Command.setPair 0 0 1).run m₁).2
        let m₃ := ((Command.swapVar 0 1).run m₂).2
        let m₄ := ((Command.setPair 0 1 0).run m₃).2
        let m := ((Command.apply .imp 2 4).run m₄).2
        m₀.pairings.tables.size == 0 && ((Command.setPair 0 0 1).run m₁).1.isOk &&
        ((Command.swapVar 0 1).run m₂).1.isOk && ((Command.setPair 0 1 0).run m₃).1.isOk &&
        ((Command.apply .imp 2 4).run m₄).1.isOk &&
        m.order.toList == [1, 0] && m.varNum == 2 && m.pairings.updates == 3 &&
        m.store.isLive 6 && (Command.replace 6 0).node? m == some 7 &&
        (Command.vecCompose 6 0).node? m == some 7 := by
    decide +kernel
  obtain ⟨m₀, hm₀, hfacts⟩ := (Option.any_eq_true _ _).mp hrun
  simp only [Bool.and_eq_true, beq_iff_eq] at hfacts
  obtain ⟨⟨⟨⟨⟨⟨⟨⟨⟨⟨hsize, h₁⟩, h₂⟩, h₃⟩, h₄⟩, horder⟩, hvar⟩, hu⟩, hlive⟩, hnode⟩, hnode'⟩ := hfacts
  have answered : ∀ {c : Command} {m : Manager}, (c.run m).1.isOk = true →
      ∃ answer, c.run m = (.ok answer, (c.run m).2) := by
    intro c m h
    rcases hx : (c.run m).1 with e | answer
    · rw [hx] at h
      cases h
    · exact ⟨answer, Prod.ext hx rfl⟩
  have hcreate : Command.newPairing.run m₀ = (.ok (.number 0), (Command.newPairing.run m₀).2) :=
    congrArg (fun n => (Except.ok (Answer.number n), (Command.newPairing.run m₀).2)) hsize
  -- From here on the managers are known by these calls only.
  generalize (Command.newPairing.run m₀).2 = m₁ at *
  obtain ⟨_, hset⟩ := answered h₁
  generalize ((Command.setPair 0 0 1).run m₁).2 = m₂ at *
  obtain ⟨_, hswap⟩ := answered h₂
  generalize ((Command.swapVar 0 1).run m₂).2 = m₃ at *
  obtain ⟨_, hset'⟩ := answered h₃
  generalize ((Command.setPair 0 1 0).run m₃).2 = m₄ at *
  obtain ⟨_, happly⟩ := answered h₄
  generalize ((Command.apply .imp 2 4).run m₄).2 = m at *
  have called : ∀ {m m' : Manager} {π answer} {c : Command}, m.Renames 0 π → c.edited? = none →
      c.isExtension = false → c.run m = (.ok answer, m') → m'.Renames 0 π := by
    intro m m' π answer c hm hedit hext h
    have hm' := hm.call c (fun heq => by rw [hedit] at heq; cases heq)
      (fun heq => by rw [h] at heq; cases heq) fun heq => by rw [hext] at heq; cases heq
    rwa [h] at hm'
  have hm := called ((called ((Renames.create (settled_after hm₀) hcreate).set hset) rfl rfl
    hswap).set hset') rfl rfl happly
  obtain ⟨hreplace, hconflict⟩ := hm.replacement (by omega)
  obtain ⟨res, hres, -, hcomposes, hagrees⟩ :=
    hreplace 6 _ _ (Prod.ext (Command.run_of_node? hnode) rfl)
  obtain rfl : 7 = res := Answer.node.inj hres
  have hsound := hm.settled.ready.toSound
  have hf := hsound.store.live_iff.mpr hlive
  refine ⟨m₀, m, _, hm₀, ?_, hm, rfl, horder, hvar ▸ hcomposes, ?_, ?_⟩
  · rw [follow_ok hcreate, follow_ok hset, follow_ok hswap, follow_ok hset', follow_ok happly,
      Manager.follow]
  · exact hagrees m 0 6 7 _ hm (by omega) (hsound.agrees_self hf)
      (Prod.ext (Command.run_of_node? hnode') rfl)
  · refine hconflict 6 hlive fun v _ w _ heq => ?_
    simp only [Function.update_apply, id] at heq
    split_ifs at heq <;> lia

end Manager

end DecisionDiagram
