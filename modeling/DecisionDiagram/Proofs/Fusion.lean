/-
A connective and a quantifier in one call have the result that they have in two.

The calls need not be made in the same manager: between them nodes are created and freed, the order
changes, and the operands may be other nodes, as long as they stand for the same functions.  Each
quantifier reads the variables of its cube by itself, though.  These are the same if the cube is positive
or constant, and else if no reordering comes in between.

* `Manager.Agrees` — nodes of two managers that stand for the same function;
* `Request.meets_apply`, `Request.meets_appQuantify` — the requests, in terms of meanings;
* `Manager.Settled.fusion` — the answers of every three calls.
-/
import DecisionDiagram.Proofs.Quantification

namespace DecisionDiagram

namespace Manager

variable {m m' n : Manager} {f g cube cube' : NodeId} {vars : List Var}

/-- Two nodes, each in its own manager, have the same value at each assignment. -/
def Agrees (m : Manager) (f : NodeId) (n : Manager) (g : NodeId) : Prop :=
  ∀ assignment : Array Bool, m.varNum ≤ assignment.size → n.varNum ≤ assignment.size →
    ∃ b, m.eval f assignment = .ok b ∧ n.eval g assignment = .ok b

theorem Sound.live_of_eval (hm : m.Sound) {assignment : Array Bool} {b : Bool}
    (h : m.eval f assignment = .ok b) : m.diagram.Live f := hm.store.live_iff.mpr (isLive_of_eval h)

theorem Sound.agrees_iff (hm : m.Sound) (hn : n.Sound) :
    m.Agrees f n g ↔ m.diagram.Live f ∧ n.diagram.Live g ∧ m.meaning f = n.meaning g := by
  constructor
  · intro h
    have sized : ∀ a : Var → Bool, ∃ assignment : Array Bool, m.varNum ≤ assignment.size ∧
        n.varNum ≤ assignment.size ∧
        ∀ v, v < max m.varNum n.varNum → valuation assignment v = a v := fun a => by
      obtain ⟨assignment, hsize, hvaluation⟩ := exists_valuation (max m.varNum n.varNum) a
      exact ⟨assignment, hsize ▸ Nat.le_max_left _ _, hsize ▸ Nat.le_max_right _ _, hvaluation⟩
    obtain ⟨assignment, ha, ha', -⟩ := sized fun _ => false
    obtain ⟨b, hf, hg⟩ := h assignment ha ha'
    have hf := hm.live_of_eval hf
    have hg := hn.live_of_eval hg
    refine ⟨hf, hg, funext fun a => ?_⟩
    obtain ⟨assignment, ha, ha', hvaluation⟩ := sized a
    obtain ⟨b, hb, hb'⟩ := h assignment ha ha'
    rw [hm.eval_eq hf ha] at hb
    rw [hn.eval_eq hg ha'] at hb'
    rw [← hm.meaning_congr hf fun v hv => hvaluation v (Nat.lt_of_lt_of_le hv (Nat.le_max_left _ _)),
      ← hn.meaning_congr hg fun v hv => hvaluation v (Nat.lt_of_lt_of_le hv (Nat.le_max_right _ _))]
    exact Except.ok.inj (hb.trans hb'.symm)
  · rintro ⟨hf, hg, h⟩ assignment ha ha'
    exact ⟨_, hm.eval_eq hf ha, h ▸ hn.eval_eq hg ha'⟩

theorem Sound.agrees_self (hm : m.Sound) (hf : m.diagram.Live f) : m.Agrees f m f :=
  (hm.agrees_iff hm).mpr ⟨hf, hf, rfl⟩

/-- A call does not change what the manager names. -/
theorem Settled.agrees_run (hm : m.Settled) (hf : m.Named f) {c : Command}
    (hc : (c.run m).1 ≠ .error .fault) : m.Agrees f (c.run m).2 f := by
  intro assignment _ ha
  obtain ⟨⟨b, hb⟩, heq⟩ :=
    ((c.run_spec hm.ready hc).1.eval_eq hm.ready.toSound hf).2 assignment ha
  exact ⟨b, hb, heq.trans hb⟩

/-- The variables of a constant, of which there are none. -/
theorem Sound.cubeVars_of_constant (hm : m.Sound) (hf : m.diagram.Live f) {b : Bool}
    (h : ∀ a, m.meaning f a = b) : m.cubeVars f = [] := by
  have hleaf : m.diagram.tree f = .leaf b := by
    refine Tree.eq_of_eval (hm.reduced.tree_proper hf.under) (.leaf 0 b) fun x => ?_
    rw [hm.eval_tree hf, h, Tree.eval_leaf]
  rw [(hm.cubeVars_eq hf).1, hleaf]
  rfl

theorem Sound.meaning_terminal (hm : m.Sound) (ht : f.isTerminal = true) (a : Var → Bool) :
    m.meaning f a = f.isTop := by rw [meaning, hm.reduced.tree_terminal ht, Tree.eval_leaf]

end Manager

/-! ### The requests -/

namespace Request

open Program Manager

variable {m : Manager} {q : Quantifier} {op : Connective} {l r cube : NodeId}

/-- The tree of a connective has the values of the connective. -/
theorem eval_apply_meaning {e : Manager} (he : e.Sound) (hl : e.Kept l) (hr : e.Kept r)
    {x : Level → Bool} {a : Var → Bool} (h : ∀ w k, e.order.levelOf[w]? = some k → x k = a w) :
    (Tree.apply op (e.diagram.tree l) (e.diagram.tree r)).eval x =
      op.eval (e.meaning l a) (e.meaning r a) := by
  rw [Tree.eval_apply, he.eval_eq_meaning (he.kept_live hl) h, he.eval_eq_meaning (he.kept_live hr) h]

/-- What the answer of a connective has to mean. -/
theorem meets_apply (hm : m.Ready) :
    (apply op l r).Meets (fun res m' => (m.diagram.Live l ∧ m.diagram.Live r) ∧
      m'.meaning res = fun a => op.eval (m.meaning l a) (m.meaning r a)) m := by
  refine meets_yields hm fun _ hlive e he _ hk hsame => ?_
  have hl := hk l (by simp)
  have hr := hk r (by simp)
  refine ⟨_, .depth he (.apply_depth he hl hr), fun res m' hev _ htree =>
    ⟨⟨hlive l (by simp), hlive r (by simp)⟩, funext fun a => ?_⟩⟩
  rw [meaning, htree, hev.order, eval_apply_meaning he hl hr (he.getD_agrees a), hsame l (by simp),
    hsame r (by simp)]

/-- What the answer has to mean when a connective is quantified.  The cube goes on to mean the same. -/
theorem meets_appQuantify (hm : m.Ready) :
    (appQuantify q op l r cube).Meets (fun res m' => m.diagram.Live cube ∧
      m'.diagram.Live cube ∧ m'.meaning cube = m.meaning cube ∧
      m'.meaning res = q.connective.across (fun a => op.eval (m.meaning l a) (m.meaning r a))
        (m'.cubeVars cube)) m := by
  unfold appQuantify
  split
  · rename_i ht
    refine meets_yields hm fun _ _ e he _ hk hsame => ?_
    have hl := hk l (by simp)
    have hr := hk r (by simp)
    refine ⟨_, .depth he (.apply_depth he hl hr), fun res m' hev hm' htree =>
      ⟨.inl ht, .inl ht, funext fun a => ?_, funext fun a => ?_⟩⟩
    · rw [hm'.meaning_terminal ht, hm.toSound.meaning_terminal ht]
    · have hvars : m'.cubeVars cube = [] := highVars_terminal ht m'.depth
      rw [meaning, htree, hev.order, eval_apply_meaning he hl hr (he.getD_agrees a),
        hsame l (by simp), hsame r (by simp), hvars]
      rfl
  · refine meets_yields hm fun _ hlive e he _ hk hsame => ?_
    have hl := hk l (by simp)
    have hr := hk r (by simp)
    have hcube := hk cube (by simp)
    refine ⟨_, .depth he (.applyQuantifyCube q op he hl hr hcube), fun res m' hev hm' htree => ?_⟩
    obtain ⟨hcube', hmeaning⟩ := hev.meaning he hm' hcube
    refine ⟨hlive cube (by simp), hcube', hmeaning.trans (hsame cube (by simp)), funext fun a => ?_⟩
    have hproper := Tree.Proper.apply op ((he.operand hl).proper he) ((he.operand hr).proper he)
    rw [meaning, htree, hproper.eval_quantifyCube ((he.operand hcube).proper he), hev.order,
      he.across_map _ (fun x a h => eval_apply_meaning he hl hr h)
        (he.cubeVars_eq (he.kept_live hcube)).2 (he.getD_agrees a), hsame l (by simp),
      hsame r (by simp), (hm'.cubeVars_eq hcube').1, he.tree hm' hev hcube, hev.order]

end Request

/-! ### Answers -/

namespace Manager

/-- Fusion is right.  If nodes that agree are the operands of a connective in one call, and of a
connective and a quantifier in two, then the results agree as well, and wherever both are live and have
kept their values they are the same node.  The cube is positive or constant, or the calls of the
quantifiers end with the same variables of the cube. -/
theorem Settled.fusion {m m' n n' s s' : Manager} (hm : m.Settled) (hn : n.Settled) (hs : s.Settled)
    {q : Quantifier} {op : Connective} {l r cube l' r' p p' cube' res res' : NodeId}
    (hfused : (Command.appQuantify q op l r cube).run m = (.ok (.node res), m'))
    (happly : (Command.apply op l' r').run n = (.ok (.node p), n'))
    (hquantify : (Command.quantify q p' cube').run s = (.ok (.node res'), s'))
    (hl : m.Agrees l n l') (hr : m.Agrees r n r') (hp : n'.Agrees p s p')
    (hcube : m.Agrees cube s cube')
    (hvars : cube.isTerminal = true ∨ (∃ vars, m.Conjoins cube vars) ∨
      (m'.cubeVars cube).Perm (s'.cubeVars cube')) :
    m'.Agrees res s' res' ∧ ∀ t : Manager, t.Settled → t.Agrees res m' res → t.Agrees res' s' res' →
      res = res' := by
  have hm := hm.ready
  have hn := hn.ready
  have hs := hs.ready
  obtain ⟨_, hres, hcompletes, -, hlive, hc, hc', hsame, hmeaning⟩ := Command.answered hm
    (c := .appQuantify q op l r cube) rfl
    (fun h _ _ _ => (cubeVars_unkept _ cube _ _ _).symm ▸ h) (Request.meets_appQuantify hm) hfused
  obtain rfl := Answer.node.inj hres
  obtain ⟨_, hres, hcompletes₁, -, hlive₁, -, hmeaning₁⟩ := Command.answered hn
    (c := .apply op l' r') rfl (fun h _ _ _ => h) (Request.meets_apply hn) happly
  obtain rfl := Answer.node.inj hres
  obtain ⟨_, hres, hcompletes₂, -, hlive₂, -, -, hc₂, hsame₂, hmeaning₂⟩ := Command.answered hs
    (c := .quantify q p' cube') rfl (fun h _ _ _ => (cubeVars_unkept _ cube' _ _ _).symm ▸ h)
    (Request.meets_quantify hs) hquantify
  obtain rfl := Answer.node.inj hres
  have hm' := hcompletes.ready.toSound
  have hs' := hcompletes₂.ready.toSound
  rw [hm.toSound.agrees_iff hn.toSound] at hl hr
  rw [hcompletes₁.ready.toSound.agrees_iff hs.toSound] at hp
  rw [hm.toSound.agrees_iff hs.toSound] at hcube
  have hcubes : s'.meaning cube' = m'.meaning cube := by rw [hsame₂, ← hcube.2.2, hsame]
  have hperm : (m'.cubeVars cube).Perm (s'.cubeVars cube') := by
    rcases hvars with ht | ⟨vars, hvars⟩ | hperm
    · have hconstant := hm'.meaning_terminal ht
      rw [hm'.cubeVars_of_constant hc' hconstant, hs'.cubeVars_of_constant hc₂ (hcubes ▸ hconstant)]
    · have hperm := hvars.cubeVars_perm hm.toSound hm' hc hc' hsame
      have hperm' := hvars.cubeVars_perm hm.toSound hs' hc hc₂ (hcubes.trans hsame)
      exact hperm.trans hperm'.symm
    · exact hperm
  have heq : m'.meaning res = s'.meaning res' := by
    rw [hmeaning, hmeaning₂, ← hp.2.2, hmeaning₁, hl.2.2, hr.2.2]
    exact funext fun a => Connective.across_perm hperm q _ a
  refine ⟨(hm'.agrees_iff hs').mpr ⟨hlive, hlive₂, heq⟩, fun t ht h h' => ?_⟩
  have ht := ht.ready.toSound
  rw [ht.agrees_iff hm'] at h
  rw [ht.agrees_iff hs'] at h'
  exact ht.reduced.tree_injective h.1 h'.1 (ht.tree_eq_of_meaning ht rfl h'.1 h.1
    (h.2.2.trans (heq.trans h'.2.2.symm)))

/-- Both ways lead to the same function, though not to the same number: what the connective created is
still there in one of them. -/
theorem fusion_forall :
    ∃ m n' s' m', after (.small 16 64) [.setVarNum 3, .apply .imp 4 2, .protect 8] = some m ∧
      (Command.apply .xor 8 6).run m = (.ok (.node 10), n') ∧
      (Command.quantify .forall 10 4).run n' = (.ok (.node 11), s') ∧
      (Command.appQuantify .forall .xor 8 6 4).run m = (.ok (.node 9), m') ∧
      m'.Agrees 9 s' 11 := by
  have hrun : (after (.small 16 64) [.setVarNum 3, .apply .imp 4 2, .protect 8]).any fun m =>
      m.store.isLive 8 && m.store.isLive 6 && m.literals[1]? == some (4, 5) &&
      (Command.apply .xor 8 6).node? m == some 10 &&
      ((Command.apply .xor 8 6).run m).2.store.isLive 10 &&
      (Command.quantify .forall 10 4).node? ((Command.apply .xor 8 6).run m).2 == some 11 &&
      (Command.appQuantify .forall .xor 8 6 4).node? m == some 9 &&
      ((Command.appQuantify .forall .xor 8 6 4).run m).2.cubeVars 4 ==
        ((Command.quantify .forall 10 4).run ((Command.apply .xor 8 6).run m).2).2.cubeVars 4 := by
    decide +kernel
  obtain ⟨m, hm, hfacts⟩ := (Option.any_eq_true _ _).mp hrun
  simp only [Bool.and_eq_true, beq_iff_eq] at hfacts
  obtain ⟨⟨⟨⟨⟨⟨⟨hl, hr⟩, hliteral⟩, hnode⟩, hp⟩, hnode'⟩, hfused⟩, hvars⟩ := hfacts
  have hsettled := settled_after hm
  have happly := Command.run_of_node? hnode
  have hsettled' : ((Command.apply .xor 8 6).run m).2.Settled :=
    hsettled.call _ (by rw [happly]; nofun) nofun
  -- the manager has changed between the reading of one cube and that of the other
  have hcube := hsettled.agrees_run (f := 4) (.inr (.inl ⟨_, Array.mem_of_getElem? hliteral, .inl rfl⟩))
    (c := .apply .xor 8 6) (by rw [happly]; nofun)
  have agrees_self : ∀ {n : Manager} {f : NodeId}, n.Settled → n.store.isLive f = true →
      n.Agrees f n f := fun hn hf =>
    have hn := hn.ready.toSound
    (hn.agrees_iff hn).mpr ⟨hn.store.live_iff.mpr hf, hn.store.live_iff.mpr hf, rfl⟩
  have happly : (Command.apply .xor 8 6).run m = (.ok (.node 10), _) := Prod.ext happly rfl
  have hquantify : (Command.quantify .forall 10 4).run ((Command.apply .xor 8 6).run m).2 =
      (.ok (.node 11), _) := Prod.ext (Command.run_of_node? hnode') rfl
  have hfused : (Command.appQuantify .forall .xor 8 6 4).run m = (.ok (.node 9), _) :=
    Prod.ext (Command.run_of_node? hfused) rfl
  obtain ⟨hagree, -⟩ := Settled.fusion hsettled hsettled hsettled' hfused happly hquantify
    (agrees_self hsettled hl) (agrees_self hsettled hr) (agrees_self hsettled' hp) hcube
    (.inr (.inr (.of_eq hvars)))
  exact ⟨m, _, _, _, hm, happly, hquantify, hfused, hagree⟩

/-- Three calls, one after the other.  The cube is not positive, and the connective does not find room
before it has reordered.  Then other variables are quantified. -/
theorem fusion_reread :
    ∃ m m' n s, after (.small 10 64) [.setVarNum 3, .apply .and 3 7, .protect 8, .apply .and 3 6,
        .protect 9, .setAutoReorder .win2 none] = some m ∧
      (Command.appQuantify .exist .xor 7 8 8).run m = (.ok (.node 7), m') ∧
      (Command.apply .xor 7 8).run m' = (.ok (.node 10), n) ∧
      (Command.quantify .exist 10 8).run n = (.ok (.node 2), s) ∧
      s.store.isLive 7 = true ∧ s.store.isLive 2 = true ∧ ¬ m'.Agrees 7 s 2 ∧
      m'.cubeVars 8 = [0] ∧ s.cubeVars 8 = [2] := by
  have hrun : (after (.small 10 64) [.setVarNum 3, .apply .and 3 7, .protect 8, .apply .and 3 6,
      .protect 9, .setAutoReorder .win2 none]).any fun m =>
        let m' := ((Command.appQuantify .exist .xor 7 8 8).run m).2
        let n := ((Command.apply .xor 7 8).run m').2
        let s := ((Command.quantify .exist 10 8).run n).2
        (Command.appQuantify .exist .xor 7 8 8).node? m == some 7 &&
        (Command.apply .xor 7 8).node? m' == some 10 &&
        (Command.quantify .exist 10 8).node? n == some 2 &&
        s.store.isLive 7 && s.store.isLive 2 && m'.cubeVars 8 == [0] && s.cubeVars 8 == [2] &&
        m'.varNum == 3 && s.varNum == 3 &&
        (m'.eval 7 #[false, false, false]).toOption == some true &&
        (s.eval 2 #[false, false, false]).toOption == some false := by
    decide +kernel
  obtain ⟨m, hm, hfacts⟩ := (Option.any_eq_true _ _).mp hrun
  simp only [Bool.and_eq_true, beq_iff_eq] at hfacts
  obtain ⟨⟨⟨⟨⟨⟨⟨⟨⟨⟨hfused, hnode⟩, hnode'⟩, hlive⟩, hlive'⟩, hvars⟩, hvars'⟩, hvar⟩, hvar'⟩, htrue⟩, hfalse⟩ :=
    hfacts
  refine ⟨m, _, _, _, hm, Prod.ext (Command.run_of_node? hfused) rfl,
    Prod.ext (Command.run_of_node? hnode) rfl, Prod.ext (Command.run_of_node? hnode') rfl, hlive, hlive',
    fun hagree => ?_, hvars, hvars'⟩
  obtain ⟨b, hb, hb'⟩ := hagree #[false, false, false] (Nat.le_of_eq hvar) (Nat.le_of_eq hvar')
  rw [hb] at htrue
  rw [hb'] at hfalse
  exact absurd ((Option.some.inj htrue).symm.trans (Option.some.inj hfalse)) (by decide)

end Manager

end DecisionDiagram
