/-
The exact count is the number of satisfying assignments.

The recursion keeps the counts that it has found, and gives each edge the weight of the levels that it
skips.  What it finds is the weight of the tree of the node, which is counted level by level; the order
is a bijection between levels and variables.

* `Manager.Knows` — all counts that are kept are right;
* `Manager.Sound.exactCountFrom_eq` — the recursion answers the weight of the tree;
* `Manager.Sound.standing` — the order as a bijection;
* `Manager.Settled.exact_count` — the count of a live node.
-/
import Mathlib.Data.Set.Card
import DecisionDiagram.Proofs.Meaning
import DecisionDiagram.Proofs.Reading
import DecisionDiagram.Proofs.Tree.Count

namespace DecisionDiagram

/-- The tree of a node, with its bounds. -/
theorem Diagram.Reduced.tree_between {g : Diagram} {bound : Nat} (hg : g.Reduced id bound) {k : Level}
    {f : NodeId} (hf : g.Under id k f) (hk : k ≤ bound) : (g.tree f).Between bound k := by
  have h := hg.unfolds hf.live
  generalize g.tree f = t at h
  induction h generalizing k with
  | terminal => exact .leaf hk _
  | node hn hl hh ihl ihh =>
    have hlt := hg.label_lt hn
    refine .node (hf.le (hg.inner hn) hn) hlt (fun heq => ?_) (ihl (hg.below hn false) hlt)
      (ihh (hg.below hn true) hlt)
    subst heq
    exact hg.low_ne_high hn (hg.eq_of_unfolds hl hh)

namespace Manager

variable {m m' : Manager} {f : NodeId} {k l : Level} {n : Nat} {known : Std.HashMap NodeId Nat}

theorem Sound.tree_between (hm : m.Sound) (hf : m.diagram.Live f) :
    (m.diagram.tree f).Between m.varNum 0 :=
  hm.reduced.tree_between hf.under (Nat.zero_le _)

/-! ### The recursion -/

theorem gap_eq (h : k < l) : gap k l = .ok (l - k - 1) := if_pos h

/-- All counts that are kept are right. -/
def Knows (m : Manager) (known : Std.HashMap NodeId Nat) : Prop :=
  ∀ id count, known[id]? = some count → count = (m.diagram.tree id).weight m.varNum

theorem Knows.insert (h : m.Knows known) (f : NodeId) :
    m.Knows (known.insert f ((m.diagram.tree f).weight m.varNum)) := by
  intro id count hcount
  rw [Std.HashMap.getElem?_insert] at hcount
  split at hcount
  · rename_i heq
    obtain rfl := eq_of_beq heq
    exact (Option.some.inj hcount).symm
  · exact h id count hcount

/-- The gap to a child, as the recursion reads it off the two records. -/
theorem Sound.gap_child (hm : m.Sound) {r : Node} (hr : m.diagram f = some r) (b : Bool) :
    ∃ c, m.node (r.child b) = .ok c ∧
      gap r.level c.level = .ok ((m.diagram.tree (r.child b)).levelOr m.varNum - r.level - 1) := by
  have hbelow := hm.reduced.below hr b
  obtain ⟨c, hc, hreads⟩ := hm.exists_reads hbelow.live
  have hlt := hreads.le hbelow (hm.reduced.label_lt hr)
  exact ⟨c, hc, hreads.levelOr hm ▸ gap_eq hlt⟩

/-- The induction is on the bound, which is above the number of levels below the node. -/
theorem Sound.exactCountFrom_eq (hm : m.Sound) (hf : m.diagram.Under id k f) (hn : m.varNum < n + k)
    (hk : k ≤ m.varNum) (hknown : m.Knows known) :
    ∃ known', m.exactCountFrom n f known = .ok ((m.diagram.tree f).weight m.varNum, known') ∧
      m.Knows known' := by
  induction n generalizing k f known with
  | zero => lia
  | succ n ih =>
    rw [exactCountFrom]
    split
    · rename_i hbot
      rw [hm.tree_leaf_of_isBot hbot]
      exact ⟨known, rfl, hknown⟩
    · rename_i hbot
      split
      · rename_i htop
        rw [hm.tree_leaf_of_isTop htop]
        exact ⟨known, rfl, hknown⟩
      · rename_i htop
        split
        · rename_i count hcount
          exact ⟨known, by rw [← hknown f count hcount], hknown⟩
        · have ht := NodeId.inner_of_not hbot htop
          obtain ⟨r, hr⟩ := hf.live.eq_some ht
          have hlt := hm.reduced.label_lt hr
          have hle : k ≤ r.level := hf.le ht hr
          have child : ∀ b known, m.Knows known → ∃ known', m.exactCountFrom n (r.child b) known =
              .ok ((m.diagram.tree (r.child b)).weight m.varNum, known') ∧ m.Knows known' :=
            fun b known => ih (hm.reduced.below hr b) (by simp only [id]; lia) hlt
          -- What the low child adds to the table is there when the high one is counted.
          obtain ⟨known₁, hlow, h₁⟩ := child false known hknown
          obtain ⟨known₂, hhigh, h₂⟩ := child true known₁ h₁
          obtain ⟨cl, hcl, hgl⟩ := hm.gap_child hr false
          obtain ⟨ch, hch, hgh⟩ := hm.gap_child hr true
          have hweight : (m.diagram.tree f).weight m.varNum =
              (m.diagram.tree r.low).weight m.varNum <<<
                  ((m.diagram.tree r.low).levelOr m.varNum - r.level - 1) +
                (m.diagram.tree r.high).weight m.varNum <<<
                  ((m.diagram.tree r.high).levelOr m.varNum - r.level - 1) := by
            rw [hm.reduced.tree_node hr]
            rfl
          have h₃ := h₂.insert f
          rw [hweight] at h₃ ⊢
          refine ⟨_, ?_, h₃⟩
          simp only [Node.child, if_true, Bool.false_eq_true, if_false] at hlow hhigh hcl hch hgl hgh
          simp only [node_of_diagram hr, hlow, hhigh, hcl, hch, hgl, hgh, bind, Except.bind, pure,
            Except.pure]

/-- The count of a live node is the number of satisfying assignments to the levels. -/
theorem Sound.satCountExact_eq (hm : m.Sound) (hf : m.diagram.Live f) :
    m.satCountExact f = .ok ((m.diagram.tree f).models m.varNum).card := by
  obtain ⟨r, hr, hreads⟩ := hm.exists_reads hf
  have hdepth : m.varNum < m.depth + 0 := by
    rw [depth]
    omega
  have hempty : m.Knows ∅ := fun id count hcount => by simp at hcount
  obtain ⟨known, hcount, -⟩ := hm.exactCountFrom_eq hf.under hdepth (Nat.zero_le _) hempty
  have hroot : (m.diagram.tree f).weight m.varNum <<< r.level =
      ((m.diagram.tree f).models m.varNum).card := by
    rw [Nat.shiftLeft_eq, hreads.levelOr hm, (hm.tree_between hf).weight_eq_card]
  simp only [satCountExact, (checkNode_eq hm.store).mpr hf, hr, hcount, bind, Except.bind, pure,
    Except.pure, hroot]

theorem Sound.answered_satCountExact (hm : m.Sound) (f : NodeId) : Answered (m.satCountExact f) := by
  by_cases hf : m.diagram.Live f
  · exact .of_eq (hm.satCountExact_eq hf)
  · exact (answered_checkNode m f).bind fun _ h => absurd ((checkNode_eq hm.store).mp h) hf

/-! ### Assignments to the variables -/

/-- The order as a bijection from the levels to the variables. -/
def Sound.standing (hm : m.Sound) : Fin m.varNum ≃ Fin m.varNum where
  toFun l := ⟨m.order.varAt.getD l 0, by
    obtain ⟨v, -, hget, -, hlt⟩ := hm.order.getD_varAt l.isLt
    exact hget ▸ hlt⟩
  invFun v := ⟨m.order.levelOf.getD v 0, by
    obtain ⟨l, -, hget, -, hlt⟩ := hm.order.getD_levelOf v.isLt
    exact hget ▸ hlt⟩
  left_inv l := by
    obtain ⟨v, -, hget, hl, -⟩ := hm.order.getD_varAt l.isLt
    simp [hget, Array.getD_eq_getD_getElem?, hl]
  right_inv v := by
    obtain ⟨l, -, hget, hv, -⟩ := hm.order.getD_levelOf v.isLt
    simp [hget, Array.getD_eq_getD_getElem?, hv]

/-- An assignment satisfies a live node if its values at the levels satisfy the tree. -/
theorem Sound.eval_ofFn (hm : m.Sound) (hf : m.diagram.Live f) (a : Fin m.varNum → Bool) :
    m.eval f (Array.ofFn a) =
      .ok ((m.diagram.tree f).eval (Tree.values fun l => a (hm.standing l))) := by
  rw [hm.eval_eq hf (by simp), meaning]
  refine congrArg _ (hm.eval_congr_levels hf fun l hl => ?_)
  have hv : (hm.standing ⟨l, hl⟩).val < (Array.ofFn a).size := by
    rw [Array.size_ofFn]
    exact (hm.standing ⟨l, hl⟩).isLt
  rw [Tree.values, dif_pos hl]
  refine valuation_eq ((Array.getElem?_eq_getElem hv).trans ?_)
  rw [Array.getElem_ofFn]

theorem Sound.ncard_models (hm : m.Sound) (hf : m.diagram.Live f) :
    {a : Fin m.varNum → Bool | m.eval f (Array.ofFn a) = .ok true}.ncard =
      ((m.diagram.tree f).models m.varNum).card := by
  -- An assignment to the variables is one to the levels, along the order.
  rw [← Set.ncard_coe_finset]
  refine Set.ncard_congr (fun a _ l => a (hm.standing l)) (fun a ha => ?_) (fun a b _ _ hab => ?_)
    fun x hx => ?_
  · have ha : m.eval f (Array.ofFn a) = .ok true := ha
    rw [hm.eval_ofFn hf] at ha
    exact Finset.mem_coe.mpr (Tree.mem_models.mpr (Except.ok.inj ha))
  · funext v
    have := congrFun hab (hm.standing.symm v)
    rwa [hm.standing.apply_symm_apply] at this
  · refine ⟨fun v => x (hm.standing.symm v), ?_, ?_⟩
    · show m.eval f _ = _
      rw [hm.eval_ofFn hf]
      simp only [Equiv.symm_apply_apply]
      rw [Tree.mem_models.mp (Finset.mem_coe.mp hx)]
    · funext l
      show x (hm.standing.symm (hm.standing l)) = x l
      rw [hm.standing.symm_apply_apply]

/-- The exact count of a live node is the number of assignments to all variables under which it
evaluates to true.  On the way, every child stands below its parent, so that no gap is negative. -/
theorem Settled.exact_count (hm : m.Settled) (hf : m.store.isLive f = true) :
    m.satCountExact f =
        .ok {a : Fin m.varNum → Bool | m.eval f (Array.ofFn a) = .ok true}.ncard ∧
      (∀ a : Fin m.varNum → Bool, ∃ b, m.eval f (Array.ofFn a) = .ok b) ∧
      ∀ g ∈ m.store.liveIds, ∃ n, m.node g = .ok n ∧
        ∀ b, ∃ c, m.node (n.child b) = .ok c ∧ gap n.level c.level = .ok (c.level - n.level - 1) := by
  have hsound := hm.ready.toSound
  have hlive := hsound.store.live_iff.mpr hf
  refine ⟨?_, fun a => ⟨_, hsound.eval_ofFn hlive a⟩, fun g hg => ?_⟩
  · rw [hsound.satCountExact_eq hlive, hsound.ncard_models hlive]
  · obtain ⟨n, hn⟩ := hsound.diagram_of_mem_liveIds hg
    refine ⟨n, node_of_diagram hn, fun b => ?_⟩
    obtain ⟨c, hc, hlt⟩ := hsound.child_level hn b
    exact ⟨c, hc, gap_eq hlt⟩

/-- Levels are skipped above, between and below the nodes of a conjunction, in an order that was asked
for. -/
theorem exact_count_skipping :
    ∃ m, after (.small 16 0) [.setVarNum 4, .setVarOrder [2, 0, 3, 1], .apply .and 2 4] = some m ∧
      m.satCountExact 10 = .ok 4 ∧
      {a : Fin m.varNum → Bool | m.eval 10 (Array.ofFn a) = .ok true}.ncard = 4 := by
  have hrun : (after (.small 16 0) [.setVarNum 4, .setVarOrder [2, 0, 3, 1], .apply .and 2 4]).any
      fun m => m.store.isLive 10 && m.varNum == 4 && m.diagram 10 == some ⟨1, 0, 4⟩ &&
        m.diagram 4 == some ⟨3, 0, 1⟩ := by
    decide +kernel
  obtain ⟨m, hm, hrun⟩ := (Option.any_eq_true _ _).mp hrun
  simp only [Bool.and_eq_true, beq_iff_eq] at hrun
  obtain ⟨⟨⟨hlive, hvar⟩, h10⟩, h4⟩ := hrun
  have hsettled := settled_after hm
  have hsound := hsettled.ready.toSound
  have htree : m.diagram.tree 10 =
      .node 1 (.leaf false) (.node 3 (.leaf false) (.leaf true)) := by
    rw [hsound.reduced.tree_node h10, hsound.reduced.tree_node h4, hsound.reduced.tree_terminal rfl,
      hsound.reduced.tree_terminal rfl]
    rfl
  have hcount : m.satCountExact 10 = .ok 4 := by
    rw [hsound.satCountExact_eq (hsound.store.live_iff.mpr hlive), htree, hvar]
    refine congrArg _ ?_
    decide +kernel
  exact ⟨m, hm, hcount, (Except.ok.inj (hcount.symm.trans (hsettled.exact_count hlive).1)).symm⟩

end Manager

end DecisionDiagram
