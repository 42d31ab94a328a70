/-
A search respects the configured blocks.

The blocks that a search starts with are read off the levels of the configured ones.  If each
configured block stands at consecutive levels, then it becomes one block of the layout, with the blocks
within it and the variables between them as members, and a search that ends properly leaves it so.

* `VarOrder.Gathered` — the variables of a range stand side by side;
* `VarForest.Respects` — another order keeps each block together, and in order where the block says so;
* `Block.within_layout` — every configured block is laid out as one block, in its place;
* `Manager.Settled.reorder_respects` — the order that a search ends with respects the configured blocks.
-/
import DecisionDiagram.Proofs.Frames
import DecisionDiagram.Proofs.Sessions
import DecisionDiagram.Proofs.Reorder.Improvement

namespace DecisionDiagram

/-- A variable of the range of a block. -/
def VarBlock.Contains (b : VarBlock) (v : Var) : Prop := b.first ≤ v ∧ v ≤ b.last

/-- A block of a forest: one of the largest, or one within another block of the forest. -/
inductive VarForest.Holds (forest : VarForest) : VarBlock → Prop
  | top {b : VarBlock} (hb : b ∈ forest) : forest.Holds b
  | within {b c : VarBlock} (hb : forest.Holds b) (hc : c ∈ b.children) : forest.Holds c

theorem VarForest.Nested.holds {forest : VarForest} (h : forest.Nested) {b : VarBlock}
    (hb : forest.Holds b) : b.Nested := by
  induction hb with
  | top hb => exact h.block _ hb
  | within _ hc ih => exact ih.child hc

/-- Two variables of a part of a list without repetitions are in the same order in the part. -/
theorem pair_sublist_infix {α : Type} {l xs : List α} (hl : l.Nodup) (hside : xs <:+: l) {v w : α}
    (hv : v ∈ xs) (hw : w ∈ xs) : [v, w].Sublist l ↔ [v, w].Sublist xs := by
  refine ⟨fun h => ?_, fun h => h.trans hside.sublist⟩
  obtain ⟨A, B, rfl⟩ := hside
  obtain ⟨hleft, -, hright⟩ := List.nodup_append'.mp hl
  obtain ⟨-, -, hbefore⟩ := List.nodup_append'.mp hleft
  have hB : w ∉ B := fun h => hright (List.mem_append_right _ hw) h
  have hA : v ∉ A := fun h => hbefore h hv
  rcases pair_sublist_append.mp h with h | ⟨-, h⟩ | h
  · rcases pair_sublist_append.mp h with h | ⟨h, -⟩ | h
    · exact absurd (h.subset List.mem_cons_self) hA
    · exact absurd h hA
    · exact h
  · exact absurd h hB
  · exact absurd (h.subset (List.mem_cons_of_mem _ List.mem_cons_self)) hB

/-! ### Ranges that stand together -/

namespace VarOrder

variable {o : VarOrder} {first last : Var} {l : Level} {v w : Var}

/-- The variables from `first` to `last` stand side by side, in whatever order. -/
def Gathered (o : VarOrder) (first last : Var) : Prop :=
  ∃ vars : List Var, vars.Perm (List.range' first (last + 1 - first)) ∧ vars <:+: o.toList

/-- The variable `v` stands above `w`. -/
def Above (o : VarOrder) (v w : Var) : Prop := [v, w].Sublist o.toList

theorem Valid.not_above_self (h : o.Valid) : ¬ o.Above v v := fun ha =>
  absurd (h.nodup_toList.sublist ha) (by simp)

theorem mem_range_iff : v ∈ List.range' first (last + 1 - first) ↔ first ≤ v ∧ v ≤ last := by
  rw [List.mem_range'_1]
  lia

/-- The levels of a range are those at which one of its variables stands. -/
theorem Gathered.mem_levels_iff (h : o.Gathered first last) (ho : o.Valid) :
    l ∈ o.levels first last ↔ ∃ v, first ≤ v ∧ v ≤ last ∧ o.varAt[l]? = some v := by
  rw [mem_levels]
  refine exists_congr fun v => and_congr_right fun hfirst => and_congr_right fun hlast => ?_
  obtain ⟨vars, hperm, hside⟩ := h
  obtain ⟨l', hl'⟩ :=
    mem_toList_iff.mp (hside.subset (hperm.mem_iff.mpr (mem_range_iff.mpr ⟨hfirst, hlast⟩)))
  have hlevel : o.levelOf.getD v 0 = l' := by
    rw [Array.getD_eq_getD_getElem?, ho.levelOf_varAt hl']
    rfl
  rw [hlevel]
  constructor
  · rintro rfl
    exact hl'
  · intro hl
    exact Option.some.inj ((ho.levelOf_varAt hl').symm.trans (ho.levelOf_varAt hl))

/-- The extent of a range that stands together is exactly its own levels. -/
theorem Gathered.extent_spec (h : o.Gathered first last) (ho : o.Valid) (hle : first ≤ last) :
    (o.slice (o.extent first last).1 (o.extent first last).2).Perm
        (List.range' first (last + 1 - first)) ∧
      ∀ l, (o.extent first last).1 ≤ l → l ≤ (o.extent first last).2 → l ∈ o.levels first last := by
  have hlevels := fun l => h.mem_levels_iff (l := l) ho
  obtain ⟨vars, hperm, A, B, hlist⟩ := h
  have hlength : vars.length = last + 1 - first := by
    rw [hperm.length_eq, List.length_range']
  have hat : ∀ {i v}, vars[i]? = some v → o.varAt[A.length + i]? = some v := by
    intro i v hv
    have hi := (List.getElem?_eq_some_iff.mp hv).1
    rw [← getElem?_toList, ← hlist, List.append_assoc, List.getElem?_append_right (Nat.le_add_right _ _),
      Nat.add_sub_cancel_left, List.getElem?_append_left hi]
    exact hv
  -- A level is one of the range if it is between the top one and the one of the last entry.
  have hmem : ∀ l, l ∈ o.levels first last ↔ A.length ≤ l ∧ l < A.length + vars.length := by
    intro l
    rw [hlevels]
    constructor
    · rintro ⟨v, hfirst, hlast, hv⟩
      obtain ⟨i, hi⟩ :=
        List.mem_iff_getElem?.mp (hperm.mem_iff.mpr (mem_range_iff.mpr ⟨hfirst, hlast⟩))
      have := Option.some.inj ((ho.levelOf_varAt hv).symm.trans (ho.levelOf_varAt (hat hi)))
      have := (List.getElem?_eq_some_iff.mp hi).1
      lia
    · rintro ⟨hge, hlt⟩
      obtain ⟨i, rfl⟩ := Nat.exists_eq_add_of_le hge
      obtain ⟨v, hi⟩ : ∃ v, vars[i]? = some v :=
        ⟨_, List.getElem?_eq_getElem (Nat.add_lt_add_iff_left.mp hlt)⟩
      obtain ⟨hfirst, hlast⟩ :=
        mem_range_iff.mp (hperm.mem_iff.mp (List.mem_of_getElem? hi))
      exact ⟨_, hfirst, hlast, hat hi⟩
  obtain ⟨htop, hbottom⟩ := extent_mem (o := o) hle
  have htop' := mem_extent ((hmem A.length).mpr ⟨Nat.le_refl _, by lia⟩)
  have hbottom' := mem_extent ((hmem (A.length + (last - first))).mpr ⟨Nat.le_add_right _ _, by lia⟩)
  rw [hmem] at htop hbottom
  refine ⟨?_, fun l hl hl' => (hmem l).mpr ⟨by lia, by lia⟩⟩
  have hfirst : (o.extent first last).1 = A.length := by lia
  have hcount : (o.extent first last).2 + 1 - (o.extent first last).1 = vars.length := by lia
  rw [slice_eq, hcount, hfirst, ← hlist, List.append_assoc, List.drop_left, List.take_left]
  exact hperm

/-- Ranges without a common variable that stand together have no level in common. -/
theorem Gathered.disjoint {first' last' : Var} (h : o.Gathered first last)
    (h' : o.Gathered first' last') (ho : o.Valid) (hle : first ≤ last) (hle' : first' ≤ last')
    (hapart : last < first' ∨ last' < first) :
    (o.extent first last).2 < (o.extent first' last').1 ∨
      (o.extent first' last').2 < (o.extent first last).1 := by
  have hcommon : ∀ l, l ∈ o.levels first last → l ∉ o.levels first' last' := by
    intro l hl hl'
    obtain ⟨v, hfirst, hlast, hv⟩ := (h.mem_levels_iff ho).mp hl
    obtain ⟨w, hfirst', hlast', hw⟩ := (h'.mem_levels_iff ho).mp hl'
    obtain rfl := Option.some.inj (hv.symm.trans hw)
    lia
  by_contra hnot
  obtain ⟨hge, hge'⟩ := not_or.mp hnot
  have htop := (extent_mem (o := o) hle).1
  have htop' := (extent_mem (o := o) hle').1
  rcases Nat.le_total (o.extent first last).1 (o.extent first' last').1 with hfirst | hfirst
  · exact hcommon _ ((h.extent_spec ho hle).2 _ hfirst (by lia)) htop'
  · exact hcommon _ htop ((h'.extent_spec ho hle').2 _ hfirst (by lia))

end VarOrder

/-! ### Configured blocks along the order -/

namespace Block

variable {order : VarOrder} {forest : VarForest} {b c : VarBlock} {d : Block}

/-- A block that fills levels is that of a span, or a variable on its own. -/
theorem of_mem_fill {levels : List Level} {resume : Level} {spans : List Span}
    (h : d ∈ fill order levels resume spans) :
    (∃ s ∈ spans, d = s.block) ∨ ∃ v, d = single v := by
  induction levels generalizing resume spans with
  | nil => cases h
  | cons level rest ih =>
    unfold fill at h
    split at h
    · exact ih h
    · split at h
      · rcases List.mem_cons.mp h with rfl | h
        · exact .inr ⟨_, rfl⟩
        · exact ih h
      · rename_i span others
        split at h
        · rcases List.mem_cons.mp h with rfl | h
          · exact .inl ⟨span, List.mem_cons_self, rfl⟩
          · exact (ih h).imp_left fun ⟨s, hs, heq⟩ => ⟨s, List.mem_cons_of_mem _ hs, heq⟩
        · rcases List.mem_cons.mp h with rfl | h
          · exact .inr ⟨_, rfl⟩
          · exact ih h

/-- Spans that follow each other without overlap are all taken. -/
theorem mem_fill (n : Nat) {level resume : Level} {spans : List Span}
    (hspans : ∀ s ∈ spans, level ≤ s.top ∧ resume ≤ s.top ∧ s.top ≤ s.bottom ∧ s.top < level + n)
    (hpairwise : spans.Pairwise fun s t => s.bottom < t.top) {s : Span} (hs : s ∈ spans) :
    s.block ∈ fill order (List.range' level n) resume spans := by
  -- The induction is on the levels that are left; no span that is left starts above them.
  induction n generalizing level resume spans with
  | zero =>
    obtain ⟨hlevel, -, -, hlt⟩ := hspans s hs
    lia
  | succ n ih =>
    rw [List.range'_succ]
    unfold fill
    by_cases hskip : level < resume
    · rw [if_pos hskip]
      refine ih (fun t ht => ?_) hpairwise hs
      have := hspans t ht
      lia
    · rw [if_neg hskip]
      rcases spans with _ | ⟨span, others⟩
      · cases hs
      · obtain ⟨hspan, hothers⟩ := List.forall_mem_cons.mp hspans
        obtain ⟨hbefore, hrest⟩ := List.pairwise_cons.mp hpairwise
        dsimp only
        by_cases htop : span.top = level
        · rw [if_pos htop]
          rcases List.mem_cons.mp hs with rfl | hs
          · exact List.mem_cons_self
          · refine List.mem_cons_of_mem _ (ih (fun t ht => ?_) hrest hs)
            have := hbefore t ht
            have := hothers t ht
            lia
        · rw [if_neg htop]
          refine List.mem_cons_of_mem _ (ih (fun t ht => ?_) hpairwise hs)
          rcases List.mem_cons.mp ht with rfl | ht'
          · lia
          · have := hbefore t ht'
            have := hothers t ht'
            lia

theorem ofVarBlocks_eq_map (bs : List VarBlock) :
    ofVarBlocks order bs = bs.map (ofVarBlock order) := by
  induction bs with
  | nil => rfl
  | cons b rest ih => rw [ofVarBlocks, ih, List.map_cons]

theorem top_ofVarBlock (b : VarBlock) :
    (ofVarBlock order b).top = (order.extent b.first b.last).1 := by
  cases b
  rfl

theorem bottom_ofVarBlock (b : VarBlock) :
    (ofVarBlock order b).bottom = (order.extent b.first b.last).2 := by
  cases b
  rfl

theorem vars_ofVarBlock (b : VarBlock) : (ofVarBlock order b).block.vars =
    order.slice (order.extent b.first b.last).1 (order.extent b.first b.last).2 := by
  cases b
  rfl

theorem fixed_ofVarBlock (b : VarBlock) : (ofVarBlock order b).block.fixed = b.fixed := by
  cases b
  rfl

theorem children_ofVarBlock (b : VarBlock) : (ofVarBlock order b).block.children =
    if b.children = [] then []
    else arrange order (order.extent b.first b.last).1 (order.extent b.first b.last).2
      (b.children.map (ofVarBlock order)) := by
  obtain ⟨first, last, fixed, children⟩ := b
  rw [ofVarBlock, ofVarBlocks_eq_map]
  simp only [List.isEmpty_iff, List.map_eq_nil_iff]

/-- The members of a block of the layout are the blocks within the configured one and single
variables. -/
theorem of_mem_children (hd : d ∈ (ofVarBlock order b).block.children) :
    (∃ c ∈ b.children, d = (ofVarBlock order c).block) ∨ ∃ v, d = single v := by
  rw [children_ofVarBlock] at hd
  split at hd
  · cases hd
  · refine (of_mem_fill hd).imp_left ?_
    rintro ⟨s, hs, rfl⟩
    obtain ⟨c, hc, rfl⟩ := List.mem_map.mp (List.mem_mergeSort.mp hs)
    exact ⟨c, hc, rfl⟩

theorem of_mem_layout (hd : d ∈ (layout forest order).children) :
    (∃ b ∈ forest, d = (ofVarBlock order b).block) ∨ ∃ v, d = single v := by
  refine (of_mem_fill hd).imp_left ?_
  rintro ⟨s, hs, rfl⟩
  rw [ofVarBlocks_eq_map] at hs
  obtain ⟨b, hb, rfl⟩ := List.mem_map.mp (List.mem_mergeSort.mp hs)
  exact ⟨b, hb, rfl⟩

/-- Siblings that are apart and stand together each fill their own levels. -/
theorem mem_fill_ofVarBlocks (ho : order.Valid) {bs : List VarBlock} {top : Level} {n : Nat}
    (hranges : ∀ b ∈ bs, b.first ≤ b.last) (hgathered : ∀ b ∈ bs, order.Gathered b.first b.last)
    (hapart : bs.Pairwise VarBlock.Apart)
    (hwithin : ∀ b ∈ bs, ∀ l ∈ order.levels b.first b.last, top ≤ l ∧ l < top + n) (hb : b ∈ bs) :
    (ofVarBlock order b).block ∈ fill order (List.range' top n) top
      ((bs.map (ofVarBlock order)).mergeSort fun s t => s.top ≤ t.top) := by
  have hextent : ∀ b ∈ bs, (ofVarBlock order b).top ∈ order.levels b.first b.last ∧
      (ofVarBlock order b).bottom ∈ order.levels b.first b.last ∧
      (ofVarBlock order b).top ≤ (ofVarBlock order b).bottom := by
    intro b hb
    rw [top_ofVarBlock, bottom_ofVarBlock]
    obtain ⟨hmem, hmem'⟩ := VarOrder.extent_mem (o := order) (hranges b hb)
    exact ⟨hmem, hmem', (VarOrder.mem_extent hmem').1⟩
  have hsorted : ((bs.map (ofVarBlock order)).mergeSort fun s t => s.top ≤ t.top).Pairwise
      fun s t => decide (s.top ≤ t.top) := by
    refine List.pairwise_mergeSort (fun a b c hab hbc => ?_) (fun a b => ?_) _
    · exact decide_eq_true (Nat.le_trans (of_decide_eq_true hab) (of_decide_eq_true hbc))
    · simpa using Nat.le_total a.top b.top
  -- Two spans have no level in common, so the one with the higher top ends above the other one.
  have hdisjoint : (bs.map (ofVarBlock order)).Pairwise
      fun s t => s.bottom < t.top ∨ t.bottom < s.top := by
    rw [List.pairwise_map]
    refine hapart.imp_of_mem fun {b c} hb hc hbc => ?_
    rw [top_ofVarBlock, bottom_ofVarBlock, top_ofVarBlock, bottom_ofVarBlock]
    exact (hgathered b hb).disjoint (hgathered c hc) ho (hranges b hb) (hranges c hc) hbc
  have hdisjoint := ((List.mergeSort_perm _ fun s t : Span => s.top ≤ t.top).pairwise_iff
    fun h => Or.symm h).mpr hdisjoint
  have hspan : ∀ s ∈ (bs.map (ofVarBlock order)).mergeSort fun s t => s.top ≤ t.top,
      top ≤ s.top ∧ s.top ≤ s.bottom ∧ s.top < top + n := by
    intro s hs
    obtain ⟨c, hc, rfl⟩ := List.mem_map.mp (List.mem_mergeSort.mp hs)
    obtain ⟨htop, -, hle⟩ := hextent c hc
    exact ⟨(hwithin c hc _ htop).1, hle, (hwithin c hc _ htop).2⟩
  refine mem_fill n (fun s hs => ?_) ((hsorted.and hdisjoint).imp_of_mem fun {s t} hs ht h => ?_)
    (List.mem_mergeSort.mpr (List.mem_map_of_mem hb))
  · obtain ⟨hge, hle, hlt⟩ := hspan s hs
    exact ⟨hge, hge, hle, hlt⟩
  · have hle := of_decide_eq_true h.1
    have := (hspan t ht).2.1
    exact h.2.resolve_right (by lia)

/-- The largest configured blocks are members of the layout. -/
theorem mem_children_layout (hf : forest.Nested) (ho : order.Valid)
    (hblocks : ∀ b, forest.Holds b → order.Gathered b.first b.last) (hb : b ∈ forest) :
    (ofVarBlock order b).block ∈ (layout forest order).children := by
  show _ ∈ fill order (List.range order.size) 0 _
  rw [ofVarBlocks_eq_map, List.range_eq_range']
  refine mem_fill_ofVarBlocks ho (fun c hc => (hf.block c hc).range) (fun c hc => hblocks c (.top hc))
    hf.apart (fun c hc l hl => ?_) hb
  obtain ⟨v, -, -, hv⟩ := ((hblocks c (.top hc)).mem_levels_iff ho).mp hl
  rw [Nat.zero_add]
  exact ⟨Nat.zero_le _, (Array.getElem?_eq_some_iff.mp hv).1⟩

/-- The blocks within a configured one are members of its block. -/
theorem mem_children_ofVarBlock (hf : forest.Nested) (ho : order.Valid)
    (hblocks : ∀ b, forest.Holds b → order.Gathered b.first b.last) (hb : forest.Holds b)
    (hc : c ∈ b.children) : (ofVarBlock order c).block ∈ (ofVarBlock order b).block.children := by
  have hnested := hf.holds hb
  rw [children_ofVarBlock, if_neg (List.ne_nil_of_mem hc)]
  refine mem_fill_ofVarBlocks ho (fun c hc => (hnested.child hc).range)
    (fun c hc => hblocks c (.within hb hc)) hnested.apart (fun c hc l hl => ?_) hc
  -- The levels of a block within are levels of the block.
  obtain ⟨hfirst, hlast⟩ := VarBlock.covers_iff.mp (hnested.covers hc)
  obtain ⟨v, hv, hv', hl⟩ := VarOrder.mem_levels.mp hl
  have := VarOrder.mem_extent (VarOrder.mem_levels.mpr
    ⟨v, Nat.le_trans hfirst hv, Nat.le_trans hv' hlast, hl⟩)
  lia

/-- Every configured block is laid out as a block, in its place. -/
theorem within_layout (hf : forest.Nested) (ho : order.Valid)
    (hblocks : ∀ b, forest.Holds b → order.Gathered b.first b.last) (hb : forest.Holds b) :
    (layout forest order).Within (ofVarBlock order b).block := by
  induction hb with
  | top hb => exact .child .refl (mem_children_layout hf ho hblocks hb)
  | within hb hc ih => exact .child ih (mem_children_ofVarBlock hf ho hblocks hb hc)

/-- The variables of a block that is laid out are those of the configured one. -/
theorem perm_ofVarBlock (hf : forest.Nested) (ho : order.Valid)
    (hblocks : ∀ b, forest.Holds b → order.Gathered b.first b.last) (hb : forest.Holds b) :
    (ofVarBlock order b).block.vars.Perm (List.range' b.first (b.last + 1 - b.first)) := by
  rw [vars_ofVarBlock]
  exact ((hblocks b hb).extent_spec ho (hf.holds hb).range).1

end Block

/-! ### Orders that respect the blocks -/

/-- Another order of the same variables has each block of a forest at consecutive levels.  A block that
is fixed keeps the order of the blocks within it and of the variables between these, a block without
blocks in it that of its variables. -/
structure VarForest.Respects (forest : VarForest) (o o' : VarOrder) : Prop where
  perm : o'.toList.Perm o.toList
  gathered : ∀ {b}, forest.Holds b → o'.Gathered b.first b.last
  above : ∀ {b}, forest.Holds b → b.fixed = true ∨ b.children = [] → ∀ {v w}, b.Contains v →
    b.Contains w → (∀ c ∈ b.children, ¬ (c.Contains v ∧ c.Contains w)) →
      (o'.Above v w ↔ o.Above v w)

section Respects

variable {o o' : VarOrder} {forest : VarForest}

theorem VarForest.Respects.refl (hblocks : ∀ b, forest.Holds b → o.Gathered b.first b.last) :
    forest.Respects o o :=
  ⟨.refl _, fun hb => hblocks _ hb, fun _ _ _ _ _ _ _ => .rfl⟩

/-- The blocks of the layout that were rearranged as such are the configured ones. -/
theorem Block.Rearranged.respects {b' : Block} (hf : forest.Nested) (ho : o.Valid) (hpos : 0 < o.size)
    (hblocks : ∀ b, forest.Holds b → o.Gathered b.first b.last)
    (h : (Block.layout forest o).Rearranged b') (heq : o'.toList = b'.vars) : forest.Respects o o' := by
  have hneat := Block.neat_layout hf ho hpos
  have hperm : o'.toList.Perm o.toList := heq ▸ h.perm hneat
  have hvars : ∀ {b}, forest.Holds b →
      (ofVarBlock o b).block.vars.Perm (List.range' b.first (b.last + 1 - b.first)) := fun hb =>
    perm_ofVarBlock hf ho hblocks hb
  have hmem : ∀ {b v}, forest.Holds b → (v ∈ (ofVarBlock o b).block.vars ↔ b.Contains v) :=
    fun hb => (hvars hb).mem_iff.trans VarOrder.mem_range_iff
  refine ⟨hperm, fun {b} hb => ?_, fun {b} hb hkeep {v w} hv hw hpart => ?_⟩
  · have hwithin := Block.within_layout hf ho hblocks hb
    obtain ⟨d', hd', hside⟩ := h.within hwithin
    exact ⟨d'.vars, (hd'.perm (hneat.within hwithin)).trans (hvars hb), heq ▸ hside⟩
  · have hwithin := Block.within_layout hf ho hblocks hb
    have hneat' := hneat.within hwithin
    obtain ⟨d', hd', hside⟩ := h.within hwithin
    have hnodup := ho.nodup_toList
    by_cases hvw : v = w
    · subst hvw
      exact iff_of_false (fun h => absurd ((hperm.symm.nodup hnodup).sublist h) (by simp))
        ho.not_above_self
    · -- Both orders have the block in one piece, so only the order within it matters.
      have hv' := (hmem hb).mpr hv
      have hw' := (hmem hb).mpr hw
      have hbefore : (ofVarBlock o b).block.vars <:+: o.toList := by
        rw [vars_ofVarBlock, VarOrder.slice_eq]
        exact (List.take_prefix _ _).isInfix.trans (List.drop_suffix _ _).isInfix
      have hafter : d'.vars <:+: o'.toList := heq ▸ hside
      rw [VarOrder.Above, VarOrder.Above, pair_sublist_infix hnodup hbefore hv' hw',
        pair_sublist_infix (hperm.symm.nodup hnodup) hafter ((hd'.perm hneat').mem_iff.mpr hv')
          ((hd'.perm hneat').mem_iff.mpr hw')]
      refine hd'.above_iff hneat' ?_ fun c hc hboth => ?_
      · rw [fixed_ofVarBlock, children_ofVarBlock]
        exact hkeep.imp_right fun hnil => if_pos hnil
      · rcases of_mem_children hc with ⟨c₁, hc₁, rfl⟩ | ⟨u, rfl⟩
        · rw [hmem (hb.within hc₁), hmem (hb.within hc₁)] at hboth
          exact hpart c₁ hc₁ hboth
        · obtain rfl := List.mem_singleton.mp hboth.1
          exact hvw (List.mem_singleton.mp hboth.2).symm

end Respects

namespace Manager

variable {m m' : Manager}

/-- Whatever the method and the configured blocks are, if each block stands at consecutive levels then a
search that ends properly leaves it so.  The blocks stay as they are, and the new order is again one of
all variables, in which each block without blocks in it has kept the order of its variables, and each
fixed one that of its members. -/
theorem Settled.reorder_respects (hm : m.Settled)
    (hblocks : ∀ b, m.forest.Holds b → m.order.Gathered b.first b.last) {method : ReorderMethod}
    {stats : ReorderStats} (h : reorder method m = .ok stats m') :
    m'.forest = m.forest ∧ m'.order.toList.Perm (List.range m.varNum) ∧
      m.forest.Respects m.order m'.order := by
  have horder := hm.ready.toSound.order
  by_cases hsearch : method ≠ .off ∧ 1 < m.varNum
  · obtain ⟨hmethod, hvar⟩ := hsearch
    obtain ⟨s, s', hs, hsearch, hfinish⟩ := (reorder_ok hmethod hvar).mp h
    obtain ⟨hsound, hopens⟩ := (hm.begins .asked).start (fun _ => .rfl) hs
    have hforest : s.manager.forest = m.forest := by rw [hopens.manager]
    have hstart : s.manager.order = m.order := by rw [hopens.manager]
    have hvar₁ : 1 < s.manager.varNum := by
      rw [hopens.manager]
      exact hvar
    obtain ⟨hshrinks, b', hr, heq⟩ :=
      Session.reorderAll_ok hsound (hforest ▸ hm.reachable.nested) hmethod hvar₁ hsearch
    have hadvances := hshrinks.walk.advances hsound
    obtain ⟨-, hcloses⟩ := hadvances.sound.finish hfinish
    rw [hforest, hstart] at hr
    rw [← hcloses.order] at heq
    have hrespects := hr.respects hm.reachable.nested horder (Nat.zero_lt_of_lt hvar) hblocks heq
    refine ⟨?_, hrespects.perm.trans horder.toList_perm, hrespects⟩
    rw [hcloses.forest, hadvances.keeps.forest, hforest]
  · -- There is no search at all.
    have hidle : (decide (method = .off) || decide (m.varNum < 2)) = true := by
      rw [Bool.or_eq_true, decide_eq_true_eq, decide_eq_true_eq]
      by_cases hoff : method = .off
      · exact .inl hoff
      · exact .inr (Nat.lt_of_not_le fun hvar => hsearch ⟨hoff, hvar⟩)
    have hreorder : reorder method m =
        .ok ⟨0, m.store.usedCount, m.store.usedCount⟩ { m with pending := [] } := if_pos hidle
    rw [hreorder] at h
    cases h
    exact ⟨rfl, horder.toList_perm, .refl hblocks⟩

/-- The fourth variable moves up past the others, of which the first two are a block within a fixed
block. -/
theorem reorder_respects_nested :
    ∃ m m' stats, after (.small 16 0) [.setVarNum 4, .ite 8 2 6, .protect 10, .addVarBlock 0 2 true,
        .addVarBlock 0 1 false] = some m ∧
      m.forest = [⟨0, 2, true, [⟨0, 1, false, []⟩]⟩] ∧ reorder .win2 m = .ok stats m' ∧
      m'.order.toList = [3, 0, 1, 2] ∧ m'.order.Gathered 0 1 ∧ m'.order.Above 1 2 := by
  have hrun : (after (.small 16 0) [.setVarNum 4, .ite 8 2 6, .protect 10, .addVarBlock 0 2 true,
      .addVarBlock 0 1 false]).any fun m =>
        match m.forest, reorder .win2 m with
        | [⟨first, last, fixed, [⟨first', last', fixed', []⟩]⟩], .ok _ m' =>
          (first, last, fixed, first', last', fixed') == (0, 2, true, 0, 1, false) &&
            m.order.toList == [0, 1, 2, 3] && m'.order.toList == [3, 0, 1, 2]
        | _, _ => false := by
    decide +kernel
  obtain ⟨m, hm, hrun⟩ := (Option.any_eq_true _ _).mp hrun
  split at hrun
  · rename_i _ _ _ _ _ _ stats m' hforest hreorder
    simp only [Bool.and_eq_true, beq_iff_eq, Prod.mk.injEq] at hrun
    obtain ⟨⟨⟨rfl, rfl, rfl, rfl, rfl, rfl⟩, hbefore⟩, hafter⟩ := hrun
    have hblocks : ∀ b, m.forest.Holds b → m.order.Gathered b.first b.last ∧
        (b = ⟨0, 2, true, [⟨0, 1, false, []⟩]⟩ ∨ b = ⟨0, 1, false, []⟩) := by
      intro b hb
      have hone : m.order.Gathered 0 2 := ⟨[0, 1, 2], .refl _, [], [3], hbefore.symm⟩
      have htwo : m.order.Gathered 0 1 := ⟨[0, 1], .refl _, [], [2, 3], hbefore.symm⟩
      induction hb with
      | top hb =>
        rw [hforest] at hb
        obtain rfl := List.mem_singleton.mp hb
        exact ⟨hone, .inl rfl⟩
      | within _ hc ih =>
        rcases ih.2 with rfl | rfl
        · obtain rfl := List.mem_singleton.mp hc
          exact ⟨htwo, .inr rfl⟩
        · cases hc
    obtain ⟨-, -, hrespects⟩ :=
      (settled_after hm).reorder_respects (fun b hb => (hblocks b hb).1) hreorder
    have hone : m.forest.Holds ⟨0, 2, true, [⟨0, 1, false, []⟩]⟩ := .top (by rw [hforest]; simp)
    refine ⟨m, m', stats, hm, hforest, hreorder, hafter,
      hrespects.gathered (hone.within List.mem_cons_self), ?_⟩
    refine (hrespects.above hone (.inl rfl) ⟨by decide, by decide⟩ ⟨by decide, by decide⟩ ?_).mpr ?_
    · intro c hc hboth
      obtain rfl := List.mem_singleton.mp hc
      exact absurd hboth.2.2 (by decide)
    · rw [VarOrder.Above, hbefore]
      decide
  · cases hrun

end Manager

end DecisionDiagram
