/-
The support of a node is read off its records, and is what its function depends on.

The labels below a node are levels.  In a reduced diagram each of them belongs to a variable that
makes a difference, and a variable that makes a difference has its level there.  This holds in
whichever order the call ends its work.

* `Manager.Sound.dependsOn_congr` — a dependence belongs to the function, not to the order or the node;
* `Manager.Sound.forall_levels_iff` — what holds at all levels below a node, by variables;
* `Request.meets_support` — the request, in terms of meanings;
* `Manager.Settled.support_essential` — the answers of every call.
-/
import DecisionDiagram.Proofs.Dependence

namespace DecisionDiagram

namespace Manager

variable {m m' : Manager} {f g : NodeId} {v : Var} {vars : List Var}

/-- Nodes that mean the same depend on the same variables, whatever the orders are. -/
theorem Sound.dependsOn_congr (hm : m.Sound) (hm' : m'.Sound) (hf : m.diagram.Live f)
    (hg : m'.diagram.Live g) (h : m'.meaning g = m.meaning f) :
    m'.DependsOn g v ↔ m.DependsOn f v := by
  rw [hm'.dependsOn_iff hg, hm.dependsOn_iff hf, h]

/-- To say something of the levels that a tree decides is to say it of the variables that make a
difference. -/
theorem Sound.forall_levels_iff (hm : m.Sound) (hf : m.diagram.Live f) {P : Var → Prop} :
    (∀ l ∈ (m.diagram.tree f).levels, P (m.order.varAt.getD l 0)) ↔ ∀ v, m.DependsOn f v → P v := by
  constructor
  · intro h v hv
    obtain ⟨l, hl, hof⟩ := (hm.dependsOn_iff_levels hf).mp hv
    have hP := h l hl
    rwa [Array.getD_eq_getD_getElem?, hm.order.varAt_levelOf hof] at hP
  · intro h l hl
    obtain ⟨v, -, hget, hof, -⟩ := hm.order.getD_varAt (hm.lt_of_mem_levels hf hl)
    rw [hget]
    exact h v ((hm.dependsOn_iff_levels hf).mpr ⟨l, hl, hof⟩)

/-- There are finitely many variables that make a difference. -/
theorem Sound.exists_dependsOn_iff (hm : m.Sound) (hf : m.diagram.Live f) :
    ∃ vars : List Var, ∀ v, v ∈ vars ↔ m.DependsOn f v := by
  refine ⟨(m.diagram.tree f).levels.map (m.order.varAt.getD · 0), fun v => ?_⟩
  rw [List.mem_map, hm.dependsOn_iff_levels hf]
  refine exists_congr fun l => and_congr_right fun hl => ?_
  obtain ⟨w, hat, hget, hof, -⟩ := hm.order.getD_varAt (hm.lt_of_mem_levels hf hl)
  rw [hget]
  refine ⟨fun h => h ▸ hof, fun h => ?_⟩
  exact Option.some.inj (hat.symm.trans (hm.order.varAt_levelOf h))

end Manager

open Manager

/-- The answer of `support` is the conjunction of the variables that make a difference. -/
theorem Request.meets_support {m : Manager} {f : NodeId} (hm : m.Ready) :
    (support f).Meets (fun res m' => m.diagram.Live f ∧
      ∀ a, m'.meaning res a = true ↔ ∀ v, m.DependsOn f v → a v = true) m := by
  refine meets_meaning hm fun _ hlive e he hp _ hk hsame => ?_
  have hf := hlive f (by simp)
  have hf' := he.kept_live (hk f (by simp))
  refine (ensures_support he hp hf').mono fun res m' _ _ ⟨hres, heval⟩ =>
    ⟨hres, fun hev _ => ⟨hf, fun a => ?_⟩⟩
  -- The order may have changed before the work began, but not what the node depends on.
  rw [meaning, hev.order, heval, he.forall_levels_iff hf' (P := fun v => a v = true)]
  exact forall_congr' fun v => imp_congr_left
    (hm.toSound.dependsOn_congr he hf hf' (hsame f (by simp)))

namespace Manager

variable {m m' : Manager} {f : NodeId}

/-- The support of a node is the positive cube of the variables that its function depends on: for each
of them there is an assignment at which the value changes with the variable, and there is none for the
others.  It evaluates like the set of these variables, whenever that is built. -/
theorem Settled.support_essential (hm : m.Settled) {answer : Answer}
    (h : (Command.support f).run m = (.ok answer, m')) :
    ∃ res, answer = .node res ∧ m'.store.isLive res = true ∧
      (∀ v, v ∈ m'.cubeVars res ↔ m.DependsOn f v) ∧ m'.Conjoins res (m'.cubeVars res) ∧
      ∀ vars, (∀ v, v ∈ vars ↔ m.DependsOn f v) → ∀ m₁ set m₂, m₁.Settled →
        (Command.makeSet vars).run m₁ = (.ok (.node set), m₂) →
        ∀ assignment : Array Bool, m'.varNum ≤ assignment.size → m₂.varNum ≤ assignment.size →
          ∃ b, m'.eval res assignment = .ok b ∧ m₂.eval set assignment = .ok b := by
  have hready := hm.ready
  obtain ⟨res, hanswer, hcompletes, -, hlive, hf, hmeaning⟩ := Command.answered hready
    (c := .support f) rfl (fun h _ _ _ => h) (Request.meets_support hready) h
  have hsound := hready.toSound
  have hsound' := hcompletes.ready.toSound
  have conjoins : ∀ {vars : List Var}, (∀ v, v ∈ vars ↔ m.DependsOn f v) → m'.Conjoins res vars := by
    intro vars hvars
    refine .of_meaning hsound' hlive fun a => ?_
    rw [hmeaning]
    exact forall_congr' fun v => imp_congr_left (hvars v).symm
  -- What the cube mentions is known once it is the conjunction of some list of these variables.
  obtain ⟨essential, hessential⟩ := hsound.exists_dependsOn_iff hf
  have hcube : ∀ v, v ∈ m'.cubeVars res ↔ m.DependsOn f v := fun v =>
    (hsound'.mem_cubeVars_iff hlive ((conjoins hessential).meaning hsound' hlive)).trans (hessential v)
  refine ⟨res, hanswer, hsound'.store.live_iff.mp hlive, hcube, conjoins hcube, ?_⟩
  intro vars hvars m₁ set m₂ hm₁ hset assignment ha ha₂
  obtain ⟨_, hanswer₁, hcompletes₁, -, hlive₂, hmeaning₂⟩ := Command.answered hm₁.ready
    (c := .makeSet vars) rfl (fun h _ _ _ => h) (Request.meets_makeSet hm₁.ready) hset
  obtain rfl := Answer.node.inj hanswer₁
  exact ⟨_, (conjoins hvars).eval assignment ha,
    (Conjoins.of_meaning hcompletes₁.ready.toSound hlive₂ hmeaning₂).eval assignment ha₂⟩

/-- The support of `x1 ∨ x2` after a change of the order, and the set of the two variables. -/
theorem support_of_disjunction :
    ∃ m m' m₂, after (.small 16 64) [.setVarNum 3, .apply .imp 7 4, .protect 8, .swapVar 1 2] = some m ∧
      m.order.toList = [0, 2, 1] ∧ (Command.support 8).run m = (.ok (.node 9), m') ∧
      (∀ v, m.DependsOn 8 v ↔ v = 2 ∨ v = 1) ∧ m'.Conjoins 9 [2, 1] ∧
      (Command.makeSet [1, 2, 1]).run m' = (.ok (.node 9), m₂) ∧
      ∀ assignment : Array Bool, m'.varNum ≤ assignment.size → m₂.varNum ≤ assignment.size →
        ∃ b, m'.eval 9 assignment = .ok b ∧ m₂.eval 9 assignment = .ok b := by
  have hrun : (after (.small 16 64) [.setVarNum 3, .apply .imp 7 4, .protect 8, .swapVar 1 2]).any
      fun m =>
        let m' := ((Command.support 8).run m).2
        m.order.toList == [0, 2, 1] && (Command.support 8).node? m == some 9 &&
        m'.cubeVars 9 == [2, 1] && (Command.makeSet [1, 2, 1]).node? m' == some 9 := by
    decide +kernel
  obtain ⟨m, hm, hfacts⟩ := (Option.any_eq_true _ _).mp hrun
  simp only [Bool.and_eq_true, beq_iff_eq] at hfacts
  obtain ⟨⟨⟨horder, hnode⟩, hvars⟩, hset⟩ := hfacts
  have hsettled := settled_after hm
  obtain ⟨m', hrun'⟩ : ∃ m', (Command.support 8).run m = (.ok (.node 9), m') :=
    ⟨_, Prod.ext (Command.run_of_node? hnode) rfl⟩
  rw [hrun'] at hvars hset
  obtain ⟨m₂, hset'⟩ : ∃ m₂, (Command.makeSet [1, 2, 1]).run m' = (.ok (.node 9), m₂) :=
    ⟨_, Prod.ext (Command.run_of_node? hset) rfl⟩
  obtain ⟨res, hres, -, hcube, hconjoins, hsame⟩ := hsettled.support_essential hrun'
  obtain rfl : 9 = res := Answer.node.inj hres
  rw [hvars] at hcube hconjoins
  have hdepends : ∀ v, m.DependsOn 8 v ↔ v = 2 ∨ v = 1 := fun v => (hcube v).symm.trans (by simp)
  have hsettled' : m'.Settled := by
    have hcall := Settled.call (.support 8) hsettled (by rw [hrun']; nofun) nofun
    rwa [hrun'] at hcall
  refine ⟨m, m', m₂, hm, horder, hrun', hdepends, hconjoins, hset', ?_⟩
  refine hsame [1, 2, 1] (fun v => ?_) m' 9 m₂ hsettled' hset'
  rw [hdepends]
  simp only [List.mem_cons, List.not_mem_nil, or_false]
  lia

end Manager

end DecisionDiagram
