/-
How a session begins.

* `Session.interacted` — after the roots were traced, the labels that occur below a marked node all
  interact, and the marked nodes are those below the roots;
* `Session.surveyed` — the unmarked nodes are gone, and the references of the others are counted;
* `Session.exists_ofCounts` — the table holds the nodes that are left;
* `Manager.Sound.start` — a session that begins in a sound manager is sound, and the nodes that the
  manager names have the values that they had.
-/
import DecisionDiagram.Proofs.Reorder.Session

namespace DecisionDiagram.Session

/-! ### Tracing -/

section Trace

variable {s : Store} {g : Diagram} {rank : Nat → Nat} {bound : Nat} {rows : Array BitSet}
  {old marks marks' vars vars' : BitSet}

/-- The traversal got to the node `c`: it is marked and its label is found.  If it had its mark before
the root was entered, the variables of its row are found as well. -/
def Known (g : Diagram) (rows : Array BitSet) (old marks vars : BitSet) (c : NodeId) : Prop :=
  c.isTerminal = true ∨ ∃ n, g c = some n ∧ marks.contains c = true ∧
    vars.contains n.level = true ∧
    (old.contains c = true → ∀ v, Interact rows n.level v → vars.contains v = true)

theorem Known.mono {marks₁ vars₁ : BitSet} {c : NodeId} (h : Known g rows old marks vars c)
    (hm : ∀ {j}, marks.contains j = true → marks₁.contains j = true)
    (hv : ∀ {v}, vars.contains v = true → vars₁.contains v = true) :
    Known g rows old marks₁ vars₁ c := by
  rcases h with h | ⟨n, hn, hc, hl, hrow⟩
  · exact .inl h
  · exact .inr ⟨n, hn, hm hc, hv hl, fun ho v hi => hv (hrow ho v hi)⟩

/-- What the traversal of a node adds. -/
structure Traced (g : Diagram) (rows : Array BitSet) (old : BitSet) (id : NodeId)
    (marks vars marks' vars' : BitSet) : Prop where
  marks_mono : ∀ {j}, marks.contains j = true → marks'.contains j = true
  vars_mono : ∀ {v}, vars.contains v = true → vars'.contains v = true
  known : Known g rows old marks' vars' id
  closed : ∀ {j n}, marks'.contains j = true → marks.contains j = false → g j = some n →
    vars'.contains n.level = true ∧ ∀ b, Known g rows old marks' vars' (n.child b)

theorem traced (hg : s.diagram.Reduced rank bound) {fuel : Nat} {id : NodeId}
    (hid : s.diagram.Live id) (hold : ∀ {j}, old.contains j = true → marks.contains j = true)
    (h : trace s.nodes rows fuel id marks vars = some (marks', vars')) :
    Traced s.diagram rows old id marks vars marks' vars' := by
  induction fuel generalizing id marks vars marks' vars' with
  | zero => cases h
  | succ fuel ih =>
    rw [trace] at h
    by_cases ht : id.isTerminal = true
    · rw [if_pos ht] at h
      obtain ⟨rfl, rfl⟩ := Prod.mk.inj (Option.some.inj h)
      exact ⟨fun hj => hj, fun hv => hv, .inl ht, fun hj hj' => by rw [hj] at hj'; cases hj'⟩
    · rw [if_neg ht] at h
      obtain ⟨n, hn⟩ := hid.eq_some (Bool.eq_false_iff.mpr ht)
      rw [Store.nodes_of_diagram hn] at h
      dsimp only at h
      by_cases hm : marks.contains id = true
      · rw [if_pos hm] at h
        obtain ⟨rfl, rfl⟩ := Prod.mk.inj (Option.some.inj h)
        refine ⟨fun hj => hj, fun hv => ?_, .inr ⟨n, hn, hm, ?_, fun _ v hv => ?_⟩, fun hj hj' => ?_⟩
        · rw [BitSet.contains_union, BitSet.contains_insert, hv, Bool.or_true, Bool.true_or]
        · rw [BitSet.contains_union, BitSet.contains_insert, beq_self_eq_true, Bool.true_or,
            Bool.true_or]
        · rw [BitSet.contains_union, show (rows.getD n.level BitSet.empty).contains v = true from hv,
            Bool.or_true]
        · rw [hj] at hj'
          cases hj'
      · rw [if_neg hm] at h
        have hins : ∀ {j}, marks.contains j = true → (marks.insert id).contains j = true := by
          intro j hj
          rw [BitSet.contains_insert, hj, Bool.or_true]
        split at h
        · cases h
        · rename_i marks₁ vars₁ hlow
          have hl := ih (hg.below hn false).live (fun hj => hins (hold hj)) hlow
          have hh := ih (hg.below hn true).live (fun hj => hl.marks_mono (hins (hold hj))) h
          have hself : marks'.contains id = true := by
            refine hh.marks_mono (hl.marks_mono ?_)
            rw [BitSet.contains_insert, beq_self_eq_true, Bool.true_or]
          have hlabel : vars'.contains n.level = true := by
            refine hh.vars_mono (hl.vars_mono ?_)
            rw [BitSet.contains_insert, beq_self_eq_true, Bool.true_or]
          refine ⟨fun hj => hh.marks_mono (hl.marks_mono (hins hj)), fun hv => ?_,
            .inr ⟨n, hn, hself, hlabel, fun ho => absurd (hold ho) hm⟩, ?_⟩
          · refine hh.vars_mono (hl.vars_mono ?_)
            rw [BitSet.contains_insert, hv, Bool.or_true]
          · intro j m hj hj' hjm
            by_cases hji : j = id
            · subst hji
              obtain rfl := Option.some.inj (hn.symm.trans hjm)
              refine ⟨hlabel, fun b => ?_⟩
              cases b
              · exact hl.known.mono hh.marks_mono hh.vars_mono
              · exact hh.known
            · -- The mark was set on the low side, or on the high side.
              by_cases h₁ : marks₁.contains j = true
              · have hj₀ : (marks.insert id).contains j = false := by
                  rw [BitSet.contains_insert, hj', beq_eq_false_iff_ne.mpr hji, Bool.or_false]
                obtain ⟨hlab, hchild⟩ := hl.closed h₁ hj₀ hjm
                exact ⟨hh.vars_mono hlab, fun b => (hchild b).mono hh.marks_mono hh.vars_mono⟩
              · exact hh.closed hj (Bool.eq_false_iff.mpr h₁) hjm

/-- As to the marks, a trace is a traversal. -/
theorem reach_of_trace (hg : s.diagram.Reduced rank bound) {fuel : Nat} {id : NodeId}
    (hid : s.diagram.Live id)
    (h : trace s.nodes rows fuel id marks vars = some (marks', vars')) :
    reach s.nodes fuel id marks = some marks' := by
  -- The trace sets the marks that the search sets, in the same order.
  induction fuel generalizing id marks vars marks' vars' with
  | zero => cases h
  | succ fuel ih =>
    rw [trace] at h
    rw [reach]
    by_cases ht : id.isTerminal = true
    · rw [if_pos ht] at h
      rw [ht, Bool.true_or, if_pos rfl]
      exact congrArg some (Prod.mk.inj (Option.some.inj h)).1
    · rw [if_neg ht] at h
      obtain ⟨n, hn⟩ := hid.eq_some (Bool.eq_false_iff.mpr ht)
      rw [Store.nodes_of_diagram hn] at h ⊢
      dsimp only at h ⊢
      rw [Bool.eq_false_iff.mpr ht, Bool.false_or]
      by_cases hm : marks.contains id = true
      · rw [if_pos hm] at h
        rw [if_pos hm]
        exact congrArg some (Prod.mk.inj (Option.some.inj h)).1
      · rw [if_neg hm] at h
        rw [if_neg hm]
        split at h
        · cases h
        · rename_i marks₁ vars₁ hlow
          have hl := ih (show s.diagram.Live n.low from (hg.below hn false).live) hlow
          rw [hl]
          exact ih (hg.below hn true).live h

/-- The labels that occur below a marked node interact. -/
def RowsCover (g : Diagram) (marks : BitSet) (rows : Array BitSet) : Prop :=
  ∀ {id v w}, marks.contains id = true → g.Meets v id → g.Meets w id → Interact rows v w

/-- What occurs below a node that the traversal got to was found. -/
theorem Known.contains (hrows : RowsCover g marks rows)
    (hclosed : ∀ {j n}, marks'.contains j = true → marks.contains j = false → g j = some n →
      vars'.contains n.level = true ∧ ∀ b, Known g rows marks marks' vars' (n.child b))
    (hg : ∀ {id n}, g id = some n → id.isTerminal = false) {v : Var} {c : NodeId}
    (hc : Known g rows marks marks' vars' c) (h : g.Meets v c) : vars'.contains v = true := by
  induction h with
  | @here c n hn hv =>
    subst hv
    rcases hc with ht | ⟨m, hm, -, hl, -⟩
    · rw [hg hn] at ht
      cases ht
    · obtain rfl := Option.some.inj (hn.symm.trans hm)
      exact hl
  | @child c n b hn h ih =>
    rcases hc with ht | ⟨m, hm, hmark, -, hrow⟩
    · rw [hg hn] at ht
      cases ht
    · obtain rfl := Option.some.inj (hn.symm.trans hm)
      by_cases ho : marks.contains c = true
      · exact hrow ho v (hrows ho (.here hn rfl) (.child b hn h))
      · exact ih ((hclosed hmark (Bool.eq_false_iff.mpr ho) hn).2 b)

/-! ### Rows -/

theorem getD_modify_row (rows : Array BitSet) (v w : Var) (f : BitSet → BitSet) :
    (rows.modify v f).getD w BitSet.empty =
      if v = w ∧ w < rows.size then f (rows.getD w BitSet.empty) else rows.getD w BitSet.empty := by
  rw [Array.getD_eq_getD_getElem?, Array.getD_eq_getD_getElem?, Array.getElem?_modify]
  by_cases hv : v = w
  · subst hv
    by_cases hlt : v < rows.size
    · rw [if_pos rfl, if_pos ⟨rfl, hlt⟩, Array.getElem?_eq_getElem hlt]
      rfl
    · rw [if_pos rfl, if_neg fun h => hlt h.2, Array.getElem?_eq_none (Nat.le_of_not_lt hlt)]
      rfl
  · rw [if_neg hv, if_neg fun h => hv h.1]

theorem interact_modify {u v w : Var} :
    Interact (rows.modify u (·.union vars)) v w ↔
      Interact rows v w ∨ (u = v ∧ v < rows.size ∧ vars.contains w = true) := by
  rw [Interact, getD_modify_row]
  split
  · rename_i h
    rw [BitSet.contains_union, Bool.or_eq_true]
    exact or_congr_right ⟨fun hw => ⟨h.1, h.2, hw⟩, fun h => h.2.2⟩
  · rename_i h
    exact ⟨.inl, fun hi => hi.resolve_right fun hn => h ⟨hn.1, hn.2.1⟩⟩

theorem interact_foldl {vars : BitSet} (vs : List Var) (rows : Array BitSet) :
    (vs.foldl (fun rows v => rows.modify v (·.union vars)) rows).size = rows.size ∧
      ∀ {v w}, Interact (vs.foldl (fun rows v => rows.modify v (·.union vars)) rows) v w ↔
        Interact rows v w ∨ (v ∈ vs ∧ v < rows.size ∧ vars.contains w = true) := by
  induction vs generalizing rows with
  | nil => exact ⟨rfl, by simp⟩
  | cons u vs ih =>
    obtain ⟨hsize, hrows⟩ := ih (rows.modify u (·.union vars))
    rw [Array.size_modify] at hsize
    refine ⟨hsize, fun {v w} => ?_⟩
    rw [List.foldl_cons, hrows, interact_modify, Array.size_modify, List.mem_cons, eq_comm (a := u)]
    tauto

theorem size_joinRows (rows : Array BitSet) (vars : BitSet) :
    (joinRows rows vars).size = rows.size := (interact_foldl vars.toList rows).1

theorem interact_joinRows {v w : Var} : Interact (joinRows rows vars) v w ↔
    Interact rows v w ∨ (vars.contains v = true ∧ v < rows.size ∧ vars.contains w = true) := by
  rw [joinRows, (interact_foldl vars.toList rows).2, BitSet.mem_toList]

/-! ### All roots -/

theorem interacted (hg : s.diagram.Reduced rank bound) {fuel varNum : Nat} {roots : List NodeId}
    {rows' : Array BitSet} (hroots : ∀ r ∈ roots, s.diagram.Live r) (hsize : rows.size = bound)
    (hrows : RowsCover s.diagram marks rows)
    (h : interact s.nodes fuel varNum roots marks rows = some (marks', rows')) :
    RowsCover s.diagram marks' rows' ∧ rows'.size = bound ∧
      reachAll s.nodes fuel roots marks = some marks' := by
  induction roots generalizing marks rows with
  | nil =>
    obtain ⟨rfl, rfl⟩ := Prod.mk.inj (Option.some.inj h)
    exact ⟨hrows, hsize, rfl⟩
  | cons root roots ih =>
    rw [interact] at h
    split at h
    · cases h
    · rename_i marks₁ vars₁ htrace
      have hlive := hroots root (by simp)
      have ht := traced hg hlive (fun {j} (hj : marks.contains j = true) => hj) htrace
      have hcover : RowsCover s.diagram marks₁ (joinRows rows vars₁) := by
        intro id v w hid hv hw
        by_cases ho : marks.contains id = true
        · exact interact_joinRows.mpr (.inl (hrows ho hv hw))
        · have ho := Bool.eq_false_iff.mpr ho
          -- A node with a new mark was got to as far as its label and children go.
          have found : ∀ {v}, s.diagram.Meets v id → vars₁.contains v = true := by
            intro v hv
            cases hv with
            | here hn hv =>
              subst hv
              exact (ht.closed hid ho hn).1
            | child b hn hv =>
              exact ((ht.closed hid ho hn).2 b).contains hrows ht.closed hg.inner hv
          exact interact_joinRows.mpr (.inr ⟨found hv, hsize ▸ hv.lt hg, found hw⟩)
      obtain ⟨hcover', hsize', hreach⟩ := ih (fun r hr => hroots r (List.mem_cons_of_mem _ hr))
        ((size_joinRows rows vars₁).trans hsize) hcover h
      refine ⟨hcover', hsize', ?_⟩
      rw [reachAll, reach_of_trace hg hlive htrace]
      exact hreach

end Trace

/-! ### The census -/

/-- The diagram of the nodes of a list that have a mark, and of the nodes of another diagram. -/
def marked (g h : Diagram) (marks : BitSet) (ids : List NodeId) : Diagram := fun id =>
  if id ∈ ids ∧ marks.contains id = true then g id else h id

@[simp] theorem marked_nil (g h : Diagram) (marks : BitSet) : marked g h marks [] = h := by
  funext id
  simp [marked]

theorem marked_cons {g h : Diagram} {marks : BitSet} {ids : List NodeId} {id : NodeId}
    (hid : id ∉ ids) (hm : marks.contains id = true) :
    marked g h marks (id :: ids) = marked g (Function.update h id (g id)) marks ids := by
  funext j
  rw [marked, marked]
  by_cases hj : j = id
  · subst hj
    rw [if_pos ⟨List.mem_cons_self, hm⟩, if_neg fun hc => hid hc.1, Function.update_self]
  · simp [hj]

theorem marked_cons_of_not {g h : Diagram} {marks : BitSet} {ids : List NodeId} {id : NodeId}
    (hm : ¬ marks.contains id = true) : marked g h marks (id :: ids) = marked g h marks ids := by
  funext j
  rw [marked, marked]
  by_cases hj : j = id
  · subst hj
    simp [hm]
  · simp [hj]

section Census

variable {marks : BitSet} {ids : List NodeId} {s s' : Store} {refs refs' counts counts' : Array Nat}

/-- One node: with a mark its references are counted, without one it is freed. -/
theorem census_cons {id : NodeId} {node : Node} (hnode : s.node? id = some node) :
    census marks (id :: ids) s refs counts =
      if marks.contains id then
        census marks ids s (addEdges refs node) (counts.modify node.level (· + 1))
      else census marks ids (s.free id) refs counts := by
  rw [census, hnode]
  rfl

theorem census_culled (nodup : ids.Nodup) (hs : s.Valid)
    (hids : ∀ id ∈ ids, (s.diagram id).isSome = true)
    (hc : census marks ids s refs counts = some (s', refs', counts')) : s.Culled marks ids s' := by
  induction ids generalizing s refs counts with
  | nil =>
    obtain ⟨rfl, -, -⟩ := by simpa [census] using hc
    exact Store.culled_nil hs
  | cons id ids ih =>
    obtain ⟨hid, nodup⟩ := List.nodup_cons.mp nodup
    obtain ⟨node, hnode⟩ := Option.isSome_iff_exists.mp (hids id List.mem_cons_self)
    rw [census_cons (Store.node?_of_diagram hnode)] at hc
    split at hc
    · rename_i hm
      exact (ih nodup hs (fun j hj => hids j (List.mem_cons_of_mem _ hj)) hc).cons_keep hm
    · rename_i hm
      have hinner := Store.inner_of_diagram hnode
      refine (ih nodup (hs.free hinner (hs.lt_of_isSome (hids id List.mem_cons_self)))
        (fun j hj => ?_) hc).cons_free hinner (Bool.eq_false_iff.mpr hm)
      have hne : j ≠ id := fun heq => hid (heq ▸ hj)
      rw [Store.diagram_free_of_ne hne]
      exact hids j (List.mem_cons_of_mem _ hj)

/-- The references in the records of the nodes with a mark are counted. -/
theorem census_counted (nodup : ids.Nodup) {g h : Diagram}
    (hids : ∀ id ∈ ids, (s.diagram id).isSome = true) (hg : ∀ id ∈ ids, s.diagram id = g id)
    (hlt : ∀ id ∈ ids, id < refs.size) (hlive : ∀ {p c}, g.Child p c → c < refs.size)
    (hnone : ∀ id ∈ ids, h id = none) (hcounted : Counted refs h [])
    (hc : census marks ids s refs counts = some (s', refs', counts')) :
    refs'.size = refs.size ∧ Counted refs' (marked g h marks ids) [] := by
  induction ids generalizing s refs counts h with
  | nil =>
    obtain ⟨-, rfl, -⟩ := by simpa [census] using hc
    exact ⟨rfl, (marked_nil g h marks).symm ▸ hcounted⟩
  | cons id ids ih =>
    obtain ⟨hid, nodup⟩ := List.nodup_cons.mp nodup
    obtain ⟨node, hnode⟩ := Option.isSome_iff_exists.mp (hids id List.mem_cons_self)
    have hgid : g id = some node := (hg id List.mem_cons_self).symm.trans hnode
    have hne : ∀ {j}, j ∈ ids → j ≠ id := fun hj heq => hid (heq ▸ hj)
    rw [census_cons (Store.node?_of_diagram hnode)] at hc
    split at hc
    · rename_i hm
      have hadd := hcounted.put (n := node)
        (fun b => hlive ⟨node, b, hgid, rfl⟩) (hlt id List.mem_cons_self)
        (hnone id List.mem_cons_self)
      obtain ⟨hsize, hcounted'⟩ := ih nodup (fun j hj => hids j (List.mem_cons_of_mem _ hj))
        (fun j hj => hg j (List.mem_cons_of_mem _ hj))
        (fun j hj => by
          rw [size_addEdges]
          exact hlt j (List.mem_cons_of_mem _ hj))
        (by rwa [size_addEdges])
        (fun j hj => by
          rw [Function.update_of_ne (hne hj)]
          exact hnone j (List.mem_cons_of_mem _ hj)) hadd hc
      rw [marked_cons hid hm, hgid]
      exact ⟨by rw [hsize, size_addEdges], hcounted'⟩
    · rename_i hm
      rw [marked_cons_of_not hm]
      refine ih nodup (fun j hj => ?_) (fun j hj => ?_)
        (fun j hj => hlt j (List.mem_cons_of_mem _ hj)) hlive
        (fun j hj => hnone j (List.mem_cons_of_mem _ hj)) hcounted hc
      · rw [Store.diagram_free_of_ne (hne hj)]
        exact hids j (List.mem_cons_of_mem _ hj)
      · rw [Store.diagram_free_of_ne (hne hj)]
        exact hg j (List.mem_cons_of_mem _ hj)

/-- No variable has more nodes than the list is long. -/
theorem census_counts {n : Nat} (hcounts : ∀ c ∈ counts, c ≤ n)
    (hc : census marks ids s refs counts = some (s', refs', counts')) :
    counts'.size = counts.size ∧ ∀ c ∈ counts', c ≤ n + ids.length := by
  induction ids generalizing s refs counts n with
  | nil =>
    obtain ⟨-, -, rfl⟩ := by simpa [census] using hc
    exact ⟨rfl, hcounts⟩
  | cons id ids ih =>
    rw [List.length_cons]
    rw [census] at hc
    split at hc
    · split at hc
      · cases hc
      · obtain ⟨hsize, hle⟩ := ih (n := n + 1) (fun c hc => by
          obtain ⟨i, hi⟩ := Array.mem_iff_getElem?.mp hc
          rw [Array.getElem?_modify] at hi
          split at hi
          · obtain ⟨c', hc', rfl⟩ := Option.map_eq_some_iff.mp hi
            have := hcounts c' (Array.mem_of_getElem? hc')
            omega
          · have := hcounts c (Array.mem_of_getElem? hi)
            omega) hc
        refine ⟨by rw [hsize, Array.size_modify], fun c hc => ?_⟩
        have := hle c hc
        omega
    · obtain ⟨hsize, hle⟩ := ih hcounts hc
      exact ⟨hsize, fun c hc => Nat.le_succ_of_le (hle c hc)⟩

end Census

/-- The store `store'` has the nodes of `store` below the roots, and the counts of the references to
them and of the nodes of `k` variables. -/
structure Surveyed (roots : List NodeId) (store store' : Store) (refs counts : Array Nat) (k : Nat) :
    Prop where
  valid : store'.Valid
  terminals : ∀ id : NodeId, id.isTerminal = true → store'.node? id = store.node? id
  kept : ∀ id, store.diagram.Below roots id → store'.diagram id = store.diagram id
  dropped : ∀ id, ¬ store.diagram.Below roots id → store'.diagram id = none
  refs_size : refs.size = store'.capacity
  counted : Counted refs store'.diagram []
  counts_size : counts.size = k
  counts_lt : ∀ c ∈ counts, c < 2 ^ 32

theorem surveyed {marks : BitSet} {roots : List NodeId} {store store' : Store}
    {refs counts : Array Nat} {k : Nat} {rank : Nat → Nat} {bound : Nat} (hs : store.Valid)
    (hred : store.diagram.Reduced rank bound)
    (hiff : ∀ {id : NodeId}, id.isTerminal = false →
      (marks.contains id = true ↔ store.diagram.Below roots id))
    (hc : census marks store.liveIds store (Array.replicate store.capacity 0)
      (Array.replicate k 0) = some (store', refs, counts)) :
    Surveyed roots store store' refs counts k := by
  have hsome : ∀ id ∈ store.liveIds, (store.diagram id).isSome = true := fun id =>
    hs.isSome_iff.mpr
  have hculled := census_culled store.liveIds_nodup hs hsome hc
  obtain ⟨hrefs, hcounted⟩ := census_counted (g := store.diagram) (h := fun _ => none)
    store.liveIds_nodup hsome (fun _ _ => rfl)
    (fun id hid => by
      rw [Array.size_replicate]
      exact hs.lt_of_isSome (hsome id hid))
    (fun hc => by
      rw [Array.size_replicate]
      exact FreeSlots.lt_of_isUsed (hs.live_iff.mp (hred.child_live hc)))
    (fun _ _ => rfl)
    (fun j => .inr (by
      rw [Diagram.indegree_eq_zero (by rintro p ⟨n, b, hn, -⟩; cases hn),
        Array.getD_eq_getD_getElem?, Array.getElem?_replicate]
      split <;> rfl)) hc
  obtain ⟨hcounts, hle⟩ := census_counts (n := 0) (fun c hc => by
    rw [Array.mem_replicate] at hc
    omega) hc
  -- What the census marked is what is left in the store.
  have hmarked : marked store.diagram (fun _ => none) marks store.liveIds = store'.diagram := by
    funext id
    rw [marked, hculled.diagram]
    by_cases hmem : id ∈ store.liveIds
    · by_cases hmark : marks.contains id = true
      · simp [hmem, hmark]
      · simp [hmem, hmark]
    · have hnone : store.diagram id = none := by
        rw [← Option.not_isSome_iff_eq_none, hs.isSome_iff]
        exact hmem
      simp [hmem, hnone]
  rw [hmarked] at hcounted
  have hlen : store.liveIds.length ≤ store.capacity :=
    LevelTable.length_le_of_nodup store.liveIds_nodup fun id hid => hs.lt_of_isSome (hsome id hid)
  have hsmall := hs.small
  refine ⟨hculled.valid, hculled.terminals, fun id => hculled.kept hs hiff,
    fun id => hculled.dropped hs hiff, ?_, hcounted, ?_, fun c hc => ?_⟩
  · rw [hrefs, hculled.capacity, Array.size_replicate]
  · rw [hcounts, Array.size_replicate]
  · have := hle c hc
    omega

section Surveyed

variable {roots : List NodeId} {store store' : Store} {refs counts : Array Nat} {k : Nat}
  {rank : Nat → Nat} {bound : Nat} (h : Surveyed roots store store' refs counts k)
include h

theorem Surveyed.of_eq_some {id : NodeId} {n : Node} (hn : store'.diagram id = some n) :
    store.diagram id = some n ∧ store.diagram.Below roots id := by
  by_cases hid : store.diagram.Below roots id
  · exact ⟨(h.kept id hid).symm.trans hn, hid⟩
  · rw [h.dropped id hid] at hn
    cases hn

theorem Surveyed.reduced (hred : store.diagram.Reduced rank bound) :
    store'.diagram.Reduced rank bound :=
  hred.restrict (Diagram.below_closed _ _) h.kept h.dropped

theorem Surveyed.eval {id : NodeId} (hid : store.diagram.Below roots id) {val : Nat → Bool}
    {b : Bool} (hb : store.diagram.Eval val id b) : store'.diagram.Eval val id b :=
  hb.of_agreeOn (Diagram.below_closed _ _) h.kept hid

/-- The marked nodes are those that are left, so the labels below these interact. -/
theorem Surveyed.cliques {marks : BitSet} {rows : Array BitSet}
    (hiff : ∀ {id : NodeId}, id.isTerminal = false →
      (marks.contains id = true ↔ store.diagram.Below roots id))
    (hcover : RowsCover store.diagram marks rows) : store'.diagram.Cliques (Interact rows) := by
  intro id v w hv hw
  have hup : ∀ {u}, store'.diagram.Meets u id → store.diagram.Meets u id := fun hu =>
    hu.transfer (σ := fun j => j) (fun hn => .here (h.of_eq_some hn).1 rfl)
      (fun hn b _ hm => .child b (h.of_eq_some hn).1 hm)
  obtain ⟨n, hn⟩ : ∃ n, store'.diagram id = some n := by
    cases hv with
    | here hn _ => exact ⟨_, hn⟩
    | child _ hn _ => exact ⟨_, hn⟩
  exact hcover ((hiff (Store.inner_of_diagram hn)).mpr (h.of_eq_some hn).2) (hup hv) (hup hw)

/-- A node that is left and no root has a parent that is left. -/
theorem Surveyed.mem_or_child {id : NodeId} {n : Node} (hn : store'.diagram id = some n) :
    id ∈ roots ∨ ∃ p, store'.diagram.Child p id := by
  obtain ⟨r, hr, hreach⟩ := (h.of_eq_some hn).2
  rcases hreach.cases_tail with rfl | ⟨p, hrp, np, b, hp, rfl⟩
  · exact .inl (hr.resolve_left (Bool.eq_false_iff.mp (Store.inner_of_diagram hn)))
  · exact .inr ⟨p, np, b, (h.kept p ⟨r, hr, hrp⟩).trans hp, rfl⟩

end Surveyed

/-! ### The table and the roots -/

/-- All nodes of a store are indexed by variable. -/
theorem exists_index {store : Store} (hs : store.Valid) (hd : store.Distinct) {ids : List NodeId}
    {t : LevelTable} {P : NodeId → Prop} (h : t.Holds store.nodes P) (hroomy : t.Roomy)
    (hids : ∀ id ∈ ids, ∃ n, store.diagram id = some n ∧ n.level < t.regions.size)
    (hP : ∀ id, P id → (store.diagram id).isSome = true) (hnodup : ids.Nodup)
    (new : ∀ id ∈ ids, ¬ P id) :
    ∃ t', index? store.nodes ids t = some t' ∧ t'.regions.size = t.regions.size ∧
      (t'.Holds store.nodes fun id => id ∈ ids ∨ P id) ∧ t'.Roomy := by
  induction ids generalizing t P with
  | nil => exact ⟨t, rfl, rfl, h.congr fun id => by simp, hroomy⟩
  | cons id ids ih =>
    obtain ⟨hid, hnodup⟩ := List.nodup_cons.mp hnodup
    obtain ⟨n, hn, hlt⟩ := hids id List.mem_cons_self
    have hP' : ∀ j, j = id ∨ P j → (store.diagram j).isSome = true := by
      rintro j (rfl | hj)
      · rw [hn]
        rfl
      · exact hP j hj
    obtain ⟨t₁, h₁, hsize, hh, hroomy₁⟩ := h.exists_insert hroomy
      (fun j hj => (h.lt_size hj).trans (hs.arena ▸ hs.small))
      (Store.ne_zero_of_diagram hn) (Store.nodes_of_diagram hn) hlt
      (hd.on hP') (new id List.mem_cons_self)
    -- The set `P` grows by the node that was put into the table.
    obtain ⟨t', h', hsize', hh', hroomy'⟩ := ih hh hroomy₁
      (fun j hj => by
        rw [hsize]
        exact hids j (List.mem_cons_of_mem _ hj)) hP' hnodup
      fun j hj hjP => hjP.elim (fun heq => hid (heq ▸ hj)) (new j (List.mem_cons_of_mem _ hj))
    refine ⟨t', ?_, hsize'.trans hsize, hh'.congr fun j => by rw [List.mem_cons]; tauto, hroomy'⟩
    rw [index?, h₁]
    exact h'

/-- A table can be laid out by the counts that holds all nodes of the store. -/
theorem exists_ofCounts {store : Store} (hs : store.Valid) {rank : Nat → Nat} {bound : Nat}
    (hred : store.diagram.Reduced rank bound) {counts : Array Nat} (hsize : counts.size = bound)
    (hlt : ∀ c ∈ counts, c < 2 ^ 32) :
    ∃ table, index? store.nodes store.liveIds (LevelTable.ofCounts counts.toList) = some table ∧
      table.regions.size = bound ∧
      (table.Holds store.nodes fun id => (store.diagram id).isSome = true) ∧ table.Roomy := by
  have hregions : (LevelTable.ofCounts counts.toList).regions.size = bound := by
    rw [LevelTable.size_regions_ofCounts, Array.length_toList, hsize]
  have hempty : (LevelTable.ofCounts counts.toList).Holds store.nodes fun _ => False :=
    LevelTable.holds_ofCounts (fun c hc => slotsFor_lt (by
      have := hlt c (Array.mem_toList_iff.mp hc)
      omega)) store.nodes
  obtain ⟨table, hindex, hsize', htable, hroomy⟩ := exists_index hs hred.unique hempty
    (LevelTable.roomy_ofCounts _)
    (fun id hid => by
      obtain ⟨n, hn⟩ := hs.mem_liveIds.mp hid
      exact ⟨n, hn, hregions ▸ hred.label_lt hn⟩)
    (fun _ hF => hF.elim) store.liveIds_nodup fun _ _ hF => hF
  refine ⟨table, hindex, hsize'.trans hregions, htable.congr fun id => ?_, hroomy⟩
  rw [or_false, hs.mem_liveIds]
  exact Option.isSome_iff_exists.symm

theorem pin_foldl (g : Diagram) (held ids : List NodeId) (refs : Array Nat) :
    (ids.foldl (fun refs id => setRef refs id maxRefs) refs).size = refs.size ∧
      (Counted refs g held →
        Counted (ids.foldl (fun refs id => setRef refs id maxRefs) refs) g held) ∧
      ∀ id, id < refs.size → (id ∈ ids ∨ refs.getD id 0 = maxRefs) →
        (ids.foldl (fun refs id => setRef refs id maxRefs) refs).getD id 0 = maxRefs := by
  induction ids generalizing refs with
  | nil => exact ⟨rfl, fun h => h, fun id _ h => h.resolve_left (by simp)⟩
  | cons j ids ih =>
    obtain ⟨hsize, hcounted, hpinned⟩ := ih (setRef refs j maxRefs)
    rw [size_setRef] at hsize hpinned
    refine ⟨hsize, fun h => hcounted ?_, fun id hid h => hpinned id hid ?_⟩
    · by_cases hj : j < refs.size
      · exact h.setRef hj (fun _ _ => rfl) (.inl rfl)
      · rwa [setRef, Array.setIfInBounds_eq_of_size_le (Nat.le_of_not_lt hj)]
    · by_cases hj : id = j
      · right
        rw [getD_setRef _ (hj ▸ hid), if_pos hj]
      · rcases h with h | h
        · exact .inl ((List.mem_cons.mp h).resolve_left hj)
        · by_cases hlt : j < refs.size
          · exact .inr (by rw [getD_setRef _ hlt, if_neg hj]; exact h)
          · rw [setRef, Array.setIfInBounds_eq_of_size_le (Nat.le_of_not_lt hlt)]
            exact .inr h

/-! ### A sound manager -/

/-- How a session comes about from a manager. -/
structure Opens (m : Manager) (s : Session) : Prop where
  manager : s.manager = { m with store := s.manager.store }
  swaps : s.swaps = 0
  initialSize : s.initialSize = s.size
  kept : ∀ {id}, m.Kept id → s.diagram id = m.diagram.relabel (m.order.varAt.getD · 0) id
  dropped : ∀ {id}, ¬ m.Kept id → s.diagram id = none
  value : ∀ {id a b}, m.Rooted id → m.Value a id b → s.diagram.Eval a id b

theorem Opens.rooted {m : Manager} {s : Session} (h : Opens m s) {id : NodeId} :
    s.manager.Rooted id ↔ m.Rooted id := by
  rw [h.manager]
  rfl

end DecisionDiagram.Session

namespace DecisionDiagram.Manager

open Session

/-- At the beginning the nodes get their variables in place of their levels. -/
theorem Sound.relabel {m : Manager} (hm : m.Sound) {store : Store}
    (h : m.store.relabel? m.order.varAt m.store.liveIds = some store) :
    store.Valid ∧ store.slots = m.store.slots ∧
      store.diagram = m.diagram.relabel (m.order.varAt.getD · 0) ∧
      store.diagram.Reduced (fun v => m.order.levelOf.getD v 0) m.varNum ∧
      ∀ id : NodeId, id.isTerminal = true → store.node? id = m.store.node? id := by
  obtain ⟨store', h', hs, hslots, hdiagram, hterm⟩ :=
    hm.store.exists_relabel_all m.order.varAt fun hn => hm.reduced.label_lt hn
  obtain rfl := Option.some.inj (h'.symm.trans h)
  have hg : store'.diagram = m.diagram.relabel (m.order.varAt.getD · 0) := hdiagram
  refine ⟨hs, hslots, hg, ?_, hterm⟩
  rw [hg]
  -- Labels were levels and are variables now, which the order makes correspond.
  refine hm.reduced.relabel ?_ ?_ ?_
  · intro l hl
    obtain ⟨v, -, hv, -, hlt⟩ := hm.order.getD_varAt hl
    rw [hv]
    exact hlt
  · intro l hl
    obtain ⟨v, -, hv, hof, -⟩ := hm.order.getD_varAt hl
    simp only [hv]
    rw [Array.getD_eq_getD_getElem?, hof]
    rfl
  · intro l l' hl hl' heq
    obtain ⟨v, -, hv, hof, -⟩ := hm.order.getD_varAt hl
    obtain ⟨v', -, hv', hof', -⟩ := hm.order.getD_varAt hl'
    rw [hv, hv'] at heq
    subst heq
    exact Option.some.inj (hof.symm.trans hof')

/-- The roots are traced. -/
theorem Sound.marked {m : Manager} (hm : m.Sound) {roots : List NodeId} {store : Store}
    (hs : store.Valid) (hslots : store.slots = m.store.slots)
    (hred : store.diagram.Reduced (fun v => m.order.levelOf.getD v 0) m.varNum)
    (hroots : ∀ r ∈ roots, store.diagram.Live r) {marks : BitSet} {rows : Array BitSet}
    (h : interact store.nodes m.extent m.varNum roots store.marks.clear
      (Array.replicate m.varNum (BitSet.ofCapacity m.varNum)) = some (marks, rows)) :
    RowsCover store.diagram marks rows ∧ ∀ {id : NodeId}, id.isTerminal = false →
      (marks.contains id = true ↔ store.diagram.Below roots id) := by
  obtain ⟨hcover, -, hreach⟩ := interacted hred hroots (by simp)
    (fun {id v w} hid => by simp at hid) h
  obtain ⟨marks', hreach', hM⟩ := exists_reachAll hs hred hroots store.marks.clear
  have hcap : store.capacity = m.store.capacity := congrArg FreeSlots.capacity hslots
  have hextent : m.extent = store.nodes.size + 1 := by
    rw [extent, hs.arena, hcap, hm.store.arena]
  rw [hextent, hreach'] at hreach
  obtain rfl := Option.some.inj hreach
  exact ⟨hcover, fun ht => hM.contains_iff hred (BitSet.contains_clear _) ht⟩

/-- The order in which the roots are listed does not matter. -/
theorem Sound.start {m : Manager} (hm : m.Sound) {roots : List NodeId}
    (hsame : ∀ r, r ∈ roots ↔ r ∈ m.rootNodes) {s : Session} (h : Session.start m roots = some s) :
    s.Sound ∧ Opens m s := by
  simp only [Session.start, Option.bind_eq_bind, Option.bind_eq_some_iff, Option.pure_def,
    Option.some.injEq] at h
  obtain ⟨store₁, hrelabel, ⟨marks, rows⟩, hinteract, ⟨store₂, refs, counts⟩, hcensus, table, hindex,
    rfl⟩ := h
  obtain ⟨hs₁, hslots₁, hg₁, hred₁, hterm₁⟩ := hm.relabel hrelabel
  have hlive₁ : ∀ {id}, store₁.diagram.Live id ↔ m.diagram.Live id := by
    intro id
    rw [hg₁]
    exact Diagram.live_relabel
  have hroots : ∀ r ∈ roots, store₁.diagram.Live r := fun r hr =>
    hlive₁.mpr (hm.rooted (mem_rootNodes.mp ((hsame r).mp hr)).2)
  obtain ⟨hcover, hiff⟩ := hm.marked hs₁ hslots₁ hred₁ hroots hinteract
  have hids₁ : store₁.liveIds = m.store.liveIds := by
    have hcap₁ : store₁.capacity = m.store.capacity := congrArg FreeSlots.capacity hslots₁
    rw [Store.liveIds, Store.liveIds, hs₁.arena, hcap₁, hm.store.arena]
    exact congrArg (fun slots : FreeSlots => List.filter slots.isUsed _) hslots₁
  rw [← hids₁] at hcensus
  have hsurvey := surveyed hs₁ hred₁ hiff hcensus
  have hs₂ := hsurvey.valid
  have hred₂ := hsurvey.reduced hred₁
  obtain ⟨table', hindex', hregions, htable, hroomy⟩ :=
    exists_ofCounts hs₂ hred₂ hsurvey.counts_size hsurvey.counts_lt
  obtain rfl := Option.some.inj (hindex'.symm.trans hindex)
  obtain ⟨hpsize, hpcounted, hpinned⟩ := pin_foldl store₂.diagram []
    (NodeId.bot :: NodeId.top :: roots) refs
  -- What the manager names is kept, and so is what a collection would keep.
  have hbelow : ∀ {id}, m.Rooted id → store₁.diagram.Below roots id := by
    intro id hid
    by_cases ht : id.isTerminal = true
    · exact Diagram.below_of_terminal ht
    · exact Diagram.below_of_mem ((hsame id).mpr
        (mem_rootNodes.mpr ⟨Bool.eq_false_iff.mpr ht, hid⟩))
  have hkept : ∀ {id}, store₁.diagram.Below roots id ↔ m.Kept id := by
    intro id
    rw [hg₁, Diagram.below_relabel, Kept, Diagram.Below, Diagram.Below]
    exact exists_congr fun r => and_congr_left fun _ => or_congr_right (hsame r)
  have hlive₂ : ∀ {id}, m.Rooted id → store₂.diagram.Live id := fun hid =>
    (hlive₁.mpr (hm.rooted hid)).congr (hsurvey.kept _ (hbelow hid))
  have hvalue : ∀ {id a b}, m.Rooted id → m.Value a id b → store₂.diagram.Eval a id b := by
    intro id a b hid hb
    refine hsurvey.eval (hbelow hid) ?_
    rw [hg₁]
    exact Diagram.Eval.relabel (fun _ => rfl) hb
  have hmax : ∀ id ∈ m.rootNodes, (pin refs roots).getD id 0 = maxRefs := by
    intro id hid
    refine hpinned id ?_
      (.inl (List.mem_cons_of_mem _ (List.mem_cons_of_mem _ ((hsame id).mpr hid))))
    rw [hsurvey.refs_size]
    exact FreeSlots.lt_of_isUsed (hs₂.live_iff.mp (hlive₂ (mem_rootNodes.mp hid).2))
  have hcounted := hpcounted hsurvey.counted
  refine ⟨⟨⟨⟨hs₂.slots, hs₂.arena, hs₂.small, hs₂.terminal⟩, fun id ht => ?_,
    htable.congr fun id => (and_iff_left not_false).symm, hregions, hroomy,
    hpsize.trans hsurvey.refs_size, hcounted, hmax, hlive₂, hsurvey.cliques hiff hcover⟩, hm.order,
    hred₂, fun {id} hsome => ?_, hm.literals_size, fun {v p} hp a => ?_, hm.pairings, hm.error⟩,
    ⟨rfl, rfl, rfl, fun {id} hid => ?_,
      fun {id} hid => hsurvey.dropped _ fun hb => hid (hkept.mp hb), hvalue⟩⟩
  · obtain ⟨n, hn, hl⟩ := hm.terminals id ht
    exact ⟨n, ((hsurvey.terminals id ht).trans (hterm₁ id ht)).trans hn, hl⟩
  · obtain ⟨n, hn⟩ := Option.isSome_iff_exists.mp hsome
    rcases hsurvey.mem_or_child hn with hmem | ⟨p, hp⟩
    · show 0 < (pin refs roots).getD id 0
      rw [hmax _ ((hsame _).mp hmem)]
      decide
    · refine hcounted.pos (fun hm => ?_) hp
      rw [hpsize, hsurvey.refs_size]
      exact hs₂.lt_of_isSome (by rw [hm]; rfl)
  · obtain ⟨hpos, hneg⟩ := named_literal hp
    exact ⟨hvalue hpos.rooted (hm.value_literal hp a).1, hvalue hneg.rooted (hm.value_literal hp a).2⟩
  · rw [← hg₁]
    exact hsurvey.kept id (hkept.mpr hid)

end DecisionDiagram.Manager
