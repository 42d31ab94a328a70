/-
A session can be opened in every sound manager.

* `Session.exists_trace`, `.exists_interact` — a trace ends, as the traversal with the same marks does;
* `Session.exists_census` — all live nodes have records, so the census gets through;
* `Manager.Sound.exists_start` — all steps of the start of a session have a result.
-/
import DecisionDiagram.Proofs.Reorder.Start

namespace DecisionDiagram

namespace Session

variable {s : Store} {rank : Nat → Nat} {bound : Nat} {marks marks' : BitSet}

/-- A trace marks what a traversal marks, and finds variables besides. -/
theorem exists_trace (hg : s.diagram.Reduced rank bound) {fuel : Nat} {id : NodeId}
    (hid : s.diagram.Live id) (h : reach s.nodes fuel id marks = some marks') (rows : Array BitSet)
    (vars : BitSet) : ∃ vars', trace s.nodes rows fuel id marks vars = some (marks', vars') := by
  -- The trace takes the steps of the search, and this did not run out of fuel.
  induction fuel generalizing id marks marks' vars with
  | zero => cases h
  | succ fuel ih =>
    rw [reach] at h
    rw [trace]
    by_cases ht : id.isTerminal = true
    · rw [ht, Bool.true_or, if_pos rfl] at h
      obtain rfl := Option.some.inj h
      exact ⟨vars, if_pos ht⟩
    · obtain ⟨n, hn⟩ := hid.eq_some (Bool.eq_false_iff.mpr ht)
      rw [if_neg ht]
      rw [Bool.eq_false_iff.mpr ht, Bool.false_or] at h
      rw [Store.nodes_of_diagram hn] at h ⊢
      dsimp only at h ⊢
      by_cases hm : marks.contains id = true
      · rw [if_pos hm] at h
        obtain rfl := Option.some.inj h
        exact ⟨_, if_pos hm⟩
      · rw [if_neg hm] at h ⊢
        rcases hlow : reach s.nodes fuel n.low (marks.insert id) with _ | marks₁
        · rw [hlow] at h
          cases h
        · rw [hlow] at h
          have hlive : s.diagram.Live n.low := (hg.below hn false).live
          have hlive' : s.diagram.Live n.high := (hg.below hn true).live
          obtain ⟨vars₁, h₁⟩ := ih hlive hlow (vars.insert n.level)
          obtain ⟨vars₂, h₂⟩ := ih hlive' h vars₁
          exact ⟨vars₂, by rw [h₁]; exact h₂⟩

theorem exists_interact (hg : s.diagram.Reduced rank bound) {fuel : Nat}
    {roots : List NodeId} (hroots : ∀ r ∈ roots, s.diagram.Live r)
    (h : reachAll s.nodes fuel roots marks = some marks') (varNum : Nat) (rows : Array BitSet) :
    ∃ rows', interact s.nodes fuel varNum roots marks rows = some (marks', rows') := by
  induction roots generalizing marks rows with
  | nil =>
    obtain rfl := Option.some.inj h
    exact ⟨rows, rfl⟩
  | cons root roots ih =>
    obtain ⟨hroot, hroots⟩ := List.forall_mem_cons.mp hroots
    rw [reachAll] at h
    rcases hreach : reach s.nodes fuel root marks with _ | marks₁
    · rw [hreach] at h
      cases h
    · rw [hreach] at h
      obtain ⟨vars, htrace⟩ := exists_trace hg hroot hreach rows (BitSet.ofCapacity varNum)
      obtain ⟨rows', hinteract⟩ := ih hroots h (joinRows rows vars)
      exact ⟨rows', by rw [interact, htrace]; exact hinteract⟩

theorem exists_census {ids : List NodeId} (nodup : ids.Nodup)
    (hids : ∀ id ∈ ids, (s.diagram id).isSome = true) (marks : BitSet) (refs counts : Array Nat) :
    ∃ s' refs' counts', census marks ids s refs counts = some (s', refs', counts') := by
  induction ids generalizing s refs counts with
  | nil => exact ⟨s, refs, counts, rfl⟩
  | cons id ids ih =>
    obtain ⟨hid, nodup⟩ := List.nodup_cons.mp nodup
    obtain ⟨hsome, hids⟩ := List.forall_mem_cons.mp hids
    obtain ⟨node, hnode⟩ := Option.isSome_iff_exists.mp hsome
    rw [census_cons (Store.node?_of_diagram hnode)]
    split
    · exact ih nodup hids _ _
    · refine ih nodup (fun j hj => ?_) _ _
      have hne : j ≠ id := fun heq => hid (heq ▸ hj)
      rw [Store.diagram_free_of_ne hne]
      exact hids j hj

end Session

namespace Manager

open Session

variable {m : Manager}

/-- A session can be opened, in whatever order the roots are listed. -/
theorem Sound.exists_start (hm : m.Sound) (roots : List NodeId)
    (hsame : ∀ r, r ∈ roots ↔ r ∈ m.rootNodes) : ∃ s, Session.start m roots = some s := by
  -- Each stage has an answer: relabelling, the search, the rows, the census and the table.
  obtain ⟨store₁, hrelabel, -⟩ :=
    hm.store.exists_relabel_all m.order.varAt fun hn => hm.reduced.label_lt hn
  obtain ⟨hs₁, hslots₁, hg₁, hred₁, -⟩ := hm.relabel hrelabel
  have hcap₁ : store₁.capacity = m.store.capacity := congrArg FreeSlots.capacity hslots₁
  have hroots : ∀ r ∈ roots, store₁.diagram.Live r := fun r hr => by
    rw [hg₁]
    exact Diagram.live_relabel.mpr (hm.rooted (mem_rootNodes.mp ((hsame r).mp hr)).2)
  have hextent : m.extent = store₁.nodes.size + 1 := by
    rw [extent, hs₁.arena, hcap₁, hm.store.arena]
  obtain ⟨marks, hreach, -⟩ := exists_reachAll hs₁ hred₁ hroots store₁.marks.clear
  rw [← hextent] at hreach
  obtain ⟨rows, hinteract⟩ := exists_interact hred₁ hroots hreach m.varNum
    (Array.replicate m.varNum (BitSet.ofCapacity m.varNum))
  have hids₁ : store₁.liveIds = m.store.liveIds := by
    rw [Store.liveIds, Store.liveIds, hs₁.arena, hcap₁, hm.store.arena]
    exact congrArg (fun slots : FreeSlots => List.filter slots.isUsed _) hslots₁
  obtain ⟨store₂, refs, counts, hcensus⟩ := exists_census store₁.liveIds_nodup
    (fun _ => hs₁.isSome_iff.mpr) marks (Array.replicate store₁.capacity 0)
    (Array.replicate m.varNum 0)
  obtain ⟨-, hiff⟩ := hm.marked hs₁ hslots₁ hred₁ hroots hinteract
  have hsurvey := surveyed hs₁ hred₁ hiff hcensus
  obtain ⟨table, hindex⟩ := exists_ofCounts hsurvey.valid (hsurvey.reduced hred₁)
    hsurvey.counts_size hsurvey.counts_lt
  rw [hids₁] at hcensus
  simp only [Session.start, hrelabel, hinteract, hcensus, hindex, Option.bind_eq_bind,
    Option.bind_some, Option.pure_def]
  exact ⟨_, rfl⟩

end Manager

end DecisionDiagram
