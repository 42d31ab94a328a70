/-
A search that is asked for never makes the diagrams larger.

* `Manager.Settled.reorder_shrinks` — both sizes that a search reports are numbers of needed nodes, and
  the second one is not above the first one.
-/
import DecisionDiagram.Proofs.Counts
import DecisionDiagram.Proofs.Garbage
import DecisionDiagram.Proofs.Reorder.Improvement

namespace DecisionDiagram.Manager

variable {m m' : Manager}

theorem Idle.ncard_needed (h : m.Idle) : {id | m.Needed id}.ncard = {id | m.Kept id}.ncard := by
  congr 1
  ext id
  exact h.kept_iff_needed.symm

/-- If there is one variable at most, all inner nodes are literals. -/
theorem Sound.kept_of_live (h : m.Sound) (hvar : m.varNum < 2) {id : NodeId}
    (hid : m.diagram.Live id) : m.Kept id := by
  rcases hid with ht | hsome
  · exact kept_of_terminal ht
  · obtain ⟨n, hn⟩ := Option.isSome_iff_exists.mp hsome
    have hlt := h.reduced.label_lt hn
    have hlevel : n.level = 0 := by lia
    -- There is no level for a child to decide.
    have hterminal : ∀ b, (n.child b).isTerminal = true := by
      intro b
      rcases h.reduced.below hn b with ht | ⟨n', hn', hle⟩
      · exact ht
      · have hlt' := h.reduced.label_lt hn'
        have hle : n.level + 1 ≤ n'.level := hle
        lia
    have hpos : 0 < m.varNum := by lia
    obtain ⟨p, hp⟩ : ∃ p, m.literals[0]? = some p :=
      ⟨_, Array.getElem?_eq_getElem (h.literals_size ▸ hpos)⟩
    obtain ⟨l, hl, -, -, hlt'⟩ := h.order.getD_levelOf hpos
    obtain rfl : l = 0 := by
      have : l < m.varNum := hlt'
      lia
    obtain ⟨hpositive, hnegative⟩ := h.literals hp hl
    have hne := h.reduced.low_ne_high hn
    obtain ⟨hpos, hneg⟩ := named_literal hp
    obtain ⟨level, low, high⟩ := n
    obtain rfl : level = 0 := hlevel
    -- The record is that of one of the two literals, or redundant.
    rcases NodeId.eq_bot_or_eq_top (hterminal false) with hlow | hlow <;>
      rcases NodeId.eq_bot_or_eq_top (hterminal true) with hhigh | hhigh
    · exact absurd (hlow.trans hhigh.symm) hne
    · obtain rfl : low = NodeId.bot := hlow
      obtain rfl : high = NodeId.top := hhigh
      rw [h.reduced.unique hn hpositive]
      exact kept_of_rooted hpos.rooted
    · obtain rfl : low = NodeId.top := hlow
      obtain rfl : high = NodeId.bot := hhigh
      rw [h.reduced.unique hn hnegative]
      exact kept_of_rooted hneg.rooted
    · exact absurd (hlow.trans hhigh.symm) hne

/-- No method makes the diagrams larger, whatever blocks are configured, as long as no count is
saturated, except those of roots.  The sizes that are reported are the numbers of the needed nodes before
and after. -/
theorem Settled.reorder_shrinks (hm : m.Settled) {method : ReorderMethod} (hmethod : method ≠ .off)
    {stats : ReorderStats} (h : reorder method m = .ok stats m')
    (hu : ∀ s s', m.openSession = some s → Reordering.reorderAll method s = .ok () s' →
      s'.Unsaturated) :
    stats.finalSize ≤ stats.initialSize ∧
      stats.initialSize = {id | m.Needed id}.ncard ∧ stats.finalSize = {id | m'.Needed id}.ncard := by
  have hidle := hm.reachable.idle
  have hpending : { m with pending := [] } = m := by rw [← hidle.1]
  by_cases hvar : 1 < m.varNum
  · obtain ⟨s, s', hs, hsearch, hfinish⟩ := (reorder_ok hmethod hvar).mp h
    have hu := hu s s' hs hsearch
    have hsound := hm.begins .asked
    obtain ⟨hsound₁, hopens⟩ := hsound.start (fun _ => .rfl) hs
    have hforest : s.manager.forest.Nested := by
      rw [hopens.manager]
      exact hm.reachable.nested
    have hvar₁ : 1 < s.manager.varNum := by
      rw [hopens.manager]
      exact hvar
    have hshrinks := (Session.reorderAll_ok hsound₁ hforest hmethod hvar₁ hsearch).1
    have hsound₂ := (hshrinks.walk.advances hsound₁).sound
    obtain ⟨hm', hcloses⟩ := hsound₂.finish hfinish
    have hidle' : m'.Idle := by
      have hkeeps := (hshrinks.walk.advances hsound₁).keeps
      refine ⟨?_, ?_⟩
      · rw [hcloses.pending, hkeeps.pending, hopens.manager]
      · rw [hcloses.operands, hkeeps.operands, hopens.manager]
        exact hidle.2
    have hstart : s.initialSize = s.size := hopens.initialSize
    have hstays := hshrinks.walk.stays.initialSize
    obtain rfl := Session.finish_stats hfinish
    refine ⟨?_, ?_, ?_⟩
    · show m'.store.usedCount ≤ s'.initialSize
      rw [hcloses.usedCount_eq_size hsound₂ hu hm', hstays, hstart]
      exact hshrinks.size hu
    · show s'.initialSize = _
      rw [hstays, hopens.initialSize_eq hsound₁ hsound, hpending, hidle.ncard_needed]
    · show m'.store.usedCount = _
      rw [hcloses.usedCount_eq hm', hidle'.ncard_needed]
  · -- No session is opened; the sizes are the number of live nodes.
    have hsmall : m.varNum < 2 := by omega
    have hsound := hm.ready.toSound
    have hcount : m.store.usedCount = {id | m.Needed id}.ncard := by
      rw [hidle.ncard_needed, hsound.store.usedCount_eq_ncard]
      congr 1
      ext id
      exact ⟨fun hid => hsound.kept_of_live hsmall hid, fun hid => hsound.kept_live hid⟩
    have hreorder : reorder method m =
        .ok ⟨0, m.store.usedCount, m.store.usedCount⟩ { m with pending := [] } :=
      if_pos (Bool.or_eq_true_iff.mpr (.inr (decide_eq_true hsmall)))
    rw [hreorder, hpending] at h
    cases h
    exact ⟨Nat.le_refl _, hcount, hcount⟩

/-- The node that chooses between the first and the third variable by the second one needs fewer nodes
once the second one is on top. -/
theorem reorder_shrinks_choice :
    ∃ m m', after (.small 16 0) [.setVarNum 3, .makeNode 1 6 1, .makeNode 1 6 0, .makeNode 0 9 8,
        .protect 10] = some m ∧ reorder .win2 m = .ok ⟨2, 11, 9⟩ m' ∧
      {id | m.Needed id}.ncard = 11 ∧ {id | m'.Needed id}.ncard = 9 := by
  have hrun : (after (.small 16 0) [.setVarNum 3, .makeNode 1 6 1, .makeNode 1 6 0, .makeNode 0 9 8,
      .protect 10]).any fun m => 1 < m.varNum && m.openSession.any fun s =>
        (s.search .win2).any fun s' => s'.Unsaturated && s'.finish.any fun r => r.1 = ⟨2, 11, 9⟩ := by
    decide +kernel
  obtain ⟨m, hm, hrun⟩ := (Option.any_eq_true _ _).mp hrun
  rw [Bool.and_eq_true, decide_eq_true_eq] at hrun
  obtain ⟨hvar, hrun⟩ := hrun
  obtain ⟨s, hs, hrun⟩ := (Option.any_eq_true _ _).mp hrun
  obtain ⟨s', hs', hrun⟩ := (Option.any_eq_true _ _).mp hrun
  rw [Bool.and_eq_true, decide_eq_true_eq] at hrun
  obtain ⟨hu, hrun⟩ := hrun
  obtain ⟨⟨stats, m'⟩, hfinish, hstats⟩ := (Option.any_eq_true _ _).mp hrun
  obtain rfl : stats = ⟨2, 11, 9⟩ := of_decide_eq_true hstats
  have hsearch := Session.search_eq hs'
  have hreorder : reorder .win2 m = .ok ⟨2, 11, 9⟩ m' :=
    (reorder_ok (by decide) hvar).mpr ⟨s, s', hs, hsearch, hfinish⟩
  obtain ⟨-, hbefore, hafter⟩ := (settled_after hm).reorder_shrinks (by decide) hreorder
    fun t t' ht ht' => by
      obtain rfl := Option.some.inj (hs.symm.trans ht)
      rw [hsearch] at ht'
      cases ht'
      exact hu
  exact ⟨m, m', hm, hreorder, hbefore.symm, hafter.symm⟩

end DecisionDiagram.Manager
