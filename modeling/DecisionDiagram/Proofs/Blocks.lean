/-
The configured blocks are nested, and so is the row of blocks that a search starts with.

A block need not stand at consecutive levels any more when a search begins: one that ran out of room
has stopped with the variables of two blocks mixed.  Still, blocks are laid out so that each holds all
the variables of its levels, and those of the blocks within it are the same in the same order.

* `VarBlock.Nested` — the ranges of the blocks within a block lie within its own and are apart;
* `VarForest.Nested.add` — a new block keeps it so;
* `Block.Neat` — the variables of a block are those of the blocks within it;
* `Block.neat_layout` — the blocks that a search starts with are neat.
-/
import DecisionDiagram.Layout
import DecisionDiagram.Proofs.Order

namespace DecisionDiagram

namespace VarBlock

/-- No variable is in both ranges. -/
def Apart (b c : VarBlock) : Prop := b.last < c.first ∨ c.last < b.first

/-- The range of a block is not empty, and the ranges of the blocks within it are parts of it that have
no variable in common, at every depth. -/
inductive Nested : VarBlock → Prop
  | mk {b : VarBlock} (range : b.first ≤ b.last) (covers : ∀ c ∈ b.children, b.covers c = true)
    (apart : b.children.Pairwise Apart) (children : ∀ c ∈ b.children, Nested c) : Nested b

variable {b c new : VarBlock} {siblings : List VarBlock}

theorem Apart.symm (h : b.Apart c) : c.Apart b := Or.symm h

theorem Nested.range (h : b.Nested) : b.first ≤ b.last := by
  cases h
  assumption

theorem Nested.covers (h : b.Nested) (hc : c ∈ b.children) : b.covers c = true := by
  cases h with
  | mk _ covers _ _ => exact covers c hc

theorem Nested.apart (h : b.Nested) : b.children.Pairwise Apart := by
  cases h
  assumption

theorem Nested.child (h : b.Nested) (hc : c ∈ b.children) : c.Nested := by
  cases h with
  | mk _ _ _ children => exact children c hc

theorem covers_iff : b.covers c = true ↔ b.first ≤ c.first ∧ c.last ≤ b.last := by
  rw [VarBlock.covers, Bool.and_eq_true, decide_eq_true_eq, decide_eq_true_eq]

theorem apart_of_not_overlaps (h : b.overlaps c = false) : b.Apart c := by
  rw [overlaps, Bool.and_eq_false_iff, decide_eq_false_iff_not, decide_eq_false_iff_not] at h
  exact h.symm.imp Nat.lt_of_not_le Nat.lt_of_not_le

/-! ### New blocks -/

/-- The blocks of a list are nested and apart, and each has the range of a block of another list. -/
structure Settles (before after : List VarBlock) : Prop where
  nested : ∀ c ∈ after, c.Nested
  ranges : ∀ c ∈ after, ∃ d ∈ before, c.first = d.first ∧ c.last = d.last
  apart : after.Pairwise Apart

/-- A block covers what has the range of blocks that it covers. -/
theorem Settles.covers {before after : List VarBlock} (h : Settles before after)
    (hb : ∀ d ∈ before, b.covers d = true) (hc : c ∈ after) : b.covers c = true := by
  obtain ⟨d, hd, hfirst, hlast⟩ := h.ranges c hc
  rw [covers_iff, hfirst, hlast]
  exact covers_iff.mp (hb d hd)

theorem settles_adopt (hnew : new.first ≤ new.last) (hs : ∀ c ∈ siblings, c.Nested)
    (hapart : siblings.Pairwise Apart) {result : List VarBlock}
    (h : new.adopt siblings = .ok result) : Settles (new :: siblings) result := by
  unfold adopt at h
  simp only [List.partition_eq_filter_filter] at h
  split at h
  · cases h
  · rename_i hpart
    obtain rfl := Except.ok.inj h
    -- A sibling that is not covered as a whole has no variable in common with the new block.
    have hcovered : ∀ c ∈ siblings, c.overlaps new = true → new.covers c = true := by
      intro c hc hoverlaps
      cases hcovers : new.covers c
      · exact absurd (List.any_eq_true.mpr ⟨c, hc, by rw [hoverlaps, hcovers]; rfl⟩) hpart
      · rfl
    refine ⟨fun c hc => ?_, fun c hc => ?_, ?_⟩
    · simp only [List.mem_mergeSort, List.mem_append, List.mem_filter, List.mem_singleton] at hc
      rcases hc with ⟨hc, -⟩ | rfl
      · exact hs c hc
      · refine ⟨hnew, fun c hc => ?_, hapart.filter _, fun c hc => hs c (List.mem_filter.mp hc).1⟩
        obtain ⟨hc, hoverlaps⟩ := List.mem_filter.mp hc
        exact hcovered c hc hoverlaps
    · simp only [List.mem_mergeSort, List.mem_append, List.mem_filter, List.mem_singleton] at hc
      rcases hc with ⟨hc, -⟩ | rfl
      · exact ⟨c, List.mem_cons_of_mem _ hc, rfl, rfl⟩
      · exact ⟨new, List.mem_cons_self, rfl, rfl⟩
    · rw [(List.mergeSort_perm _ _).pairwise_iff Apart.symm, List.pairwise_append]
      refine ⟨hapart.filter _, List.pairwise_singleton _ _, fun c hc d hd => ?_⟩
      obtain rfl := List.mem_singleton.mp hd
      have hnot := (List.mem_filter.mp hc).2
      rw [Function.comp_apply, Bool.not_eq_true'] at hnot
      exact apart_of_not_overlaps hnot

theorem settles_place (hnew : new.first ≤ new.last) (hs : ∀ c ∈ siblings, c.Nested)
    (hapart : siblings.Pairwise Apart) {descended : Option (Except Error (List VarBlock))}
    (hd : ∀ result, descended = some (.ok result) → Settles siblings result)
    {result : List VarBlock} (h : new.place siblings descended = .ok result) :
    Settles (new :: siblings) result := by
  have widen : ∀ {result}, Settles siblings result → Settles (new :: siblings) result :=
    fun hr => ⟨hr.nested, fun c hc => by
      obtain ⟨d, hd, hrange⟩ := hr.ranges c hc
      exact ⟨d, List.mem_cons_of_mem _ hd, hrange⟩, hr.apart⟩
  unfold place at h
  split at h
  · obtain rfl := Except.ok.inj h
    exact widen ⟨hs, fun c hc => ⟨c, hc, rfl, rfl⟩, hapart⟩
  · split at h
    · rw [h] at hd
      exact widen (hd result rfl)
    · exact settles_adopt hnew hs hapart h

mutual

theorem nested_insertBelow (hnew : new.first ≤ new.last) :
    ∀ {b b' : VarBlock}, b.Nested → b.covers new = true → insertBelow new b = .ok b' →
      b'.Nested ∧ b'.first = b.first ∧ b'.last = b.last
  | ⟨first, last, fixed, children⟩, b', hb, hcovers, h => by
    rw [insertBelow] at h
    rcases hp : place new children (descend new children) with e | result
    · rw [hp] at h
      cases h
    · rw [hp] at h
      obtain rfl := Except.ok.inj h
      have hsettles := settles_place hnew (fun c hc => hb.child hc) hb.apart
        (fun _ hr => settles_descend hnew (fun c hc => hb.child hc) hb.apart hr) hp
      refine ⟨⟨hb.range, fun c hc => ?_, hsettles.apart, hsettles.nested⟩, rfl, rfl⟩
      refine hsettles.covers (fun d hd => ?_) hc
      rcases List.mem_cons.mp hd with rfl | hd
      · exact hcovers
      · exact hb.covers hd

theorem settles_descend (hnew : new.first ≤ new.last) :
    ∀ {bs result : List VarBlock}, (∀ b ∈ bs, b.Nested) → bs.Pairwise Apart →
      descend new bs = some (.ok result) → Settles bs result
  | [], result, _, _, h => by
    rw [descend] at h
    cases h
  | b :: rest, result, hbs, hapart, h => by
    obtain ⟨hb, hrest⟩ := List.forall_mem_cons.mp hbs
    obtain ⟨hbrest, hapart⟩ := List.pairwise_cons.mp hapart
    rw [descend] at h
    split at h
    · -- The new block goes below `b`, whose range stays, so that the ranges are as far apart.
      rename_i hcovers
      rcases hi : insertBelow new b with e | b'
      · rw [hi] at h
        cases Option.some.inj h
      · rw [hi] at h
        obtain rfl := Except.ok.inj (Option.some.inj h)
        obtain ⟨hb', hfirst, hlast⟩ := nested_insertBelow hnew hb hcovers hi
        refine ⟨List.forall_mem_cons.mpr ⟨hb', hrest⟩, List.forall_mem_cons.mpr
          ⟨⟨b, List.mem_cons_self, hfirst, hlast⟩, fun c hc => ⟨c, List.mem_cons_of_mem _ hc, rfl, rfl⟩⟩,
          List.pairwise_cons.mpr ⟨fun c hc => ?_, hapart⟩⟩
        rw [Apart, hfirst, hlast]
        exact hbrest c hc
    · -- The new block goes below a later one, whose range stays.
      rcases hd : descend new rest with _ | e | bs'
      · rw [hd] at h
        cases h
      · rw [hd] at h
        cases Option.some.inj h
      · rw [hd] at h
        obtain rfl := Except.ok.inj (Option.some.inj h)
        have hsettles := settles_descend hnew hrest hapart hd
        refine ⟨List.forall_mem_cons.mpr ⟨hb, hsettles.nested⟩, List.forall_mem_cons.mpr
          ⟨⟨b, List.mem_cons_self, rfl, rfl⟩, fun c hc => ?_⟩,
          List.pairwise_cons.mpr ⟨fun c hc => ?_, hsettles.apart⟩⟩
        · obtain ⟨d, hd, hrange⟩ := hsettles.ranges c hc
          exact ⟨d, List.mem_cons_of_mem _ hd, hrange⟩
        · obtain ⟨d, hd, hfirst, hlast⟩ := hsettles.ranges c hc
          rw [Apart, hfirst, hlast]
          exact hbrest d hd

end

end VarBlock

namespace VarForest

/-- The blocks of a forest are nested, and the largest ones are apart. -/
structure Nested (forest : VarForest) : Prop where
  block : ∀ b ∈ forest, b.Nested
  apart : forest.Pairwise VarBlock.Apart

theorem nested_nil : Nested [] := ⟨fun _ hb => (List.not_mem_nil hb).elim, List.Pairwise.nil⟩

/-- A new block settles among the largest ones. -/
theorem Nested.settles_add {forest forest' : VarForest} (h : forest.Nested) {first last : Var}
    {fixed : Bool} (hadd : forest.add first last fixed = .ok forest') :
    VarBlock.Settles (⟨first, last, fixed, []⟩ :: forest) forest' := by
  unfold VarForest.add at hadd
  dsimp only at hadd
  split at hadd
  · cases hadd
  · rename_i hlt
    have hnew : first ≤ last := Nat.le_of_not_lt hlt
    exact VarBlock.settles_place hnew h.block h.apart
      (fun _ hr => VarBlock.settles_descend hnew h.block h.apart hr) hadd

theorem Nested.add {forest forest' : VarForest} (h : forest.Nested) {first last : Var} {fixed : Bool}
    (hadd : forest.add first last fixed = .ok forest') : forest'.Nested :=
  ⟨(h.settles_add hadd).nested, (h.settles_add hadd).apart⟩

/-- No block reaches further than the largest ones. -/
theorem Nested.last_add {forest forest' : VarForest} (h : forest.Nested) {first last : Var}
    {fixed : Bool} {n : Nat} (hforest : ∀ b ∈ forest, b.last < n) (hlast : last < n)
    (hadd : forest.add first last fixed = .ok forest') : ∀ b ∈ forest', b.last < n := by
  intro b hb
  obtain ⟨d, hd, -, hrange⟩ := (h.settles_add hadd).ranges b hb
  rw [hrange]
  rcases List.mem_cons.mp hd with rfl | hd
  · exact hlast
  · exact hforest d hd

end VarForest

/-! ### Levels of a range -/

namespace VarOrder

variable {o : VarOrder}

theorem mem_levels {first last : Var} {l : Level} :
    l ∈ o.levels first last ↔ ∃ v, first ≤ v ∧ v ≤ last ∧ o.levelOf.getD v 0 = l := by
  simp only [levels, List.mem_map, List.mem_range'_1]
  refine exists_congr fun v => ⟨?_, ?_⟩
  · rintro ⟨hv, hl⟩
    exact ⟨hv.1, by lia, hl⟩
  · rintro ⟨hfirst, hlast, hl⟩
    exact ⟨⟨hfirst, by lia⟩, hl⟩

/-- Both ends of the extent of a range are levels of its variables. -/
theorem extent_mem {first last : Var} (h : first ≤ last) :
    (o.extent first last).1 ∈ o.levels first last ∧ (o.extent first last).2 ∈ o.levels first last := by
  have hne : o.levels first last ≠ [] :=
    List.ne_nil_of_mem (mem_levels.mpr ⟨first, Nat.le_refl _, h, rfl⟩)
  rcases hmin : (o.levels first last).min? with _ | top
  · exact absurd (List.min?_eq_none_iff.mp hmin) hne
  · rcases hmax : (o.levels first last).max? with _ | bottom
    · exact absurd (List.max?_eq_none_iff.mp hmax) hne
    · rw [extent, hmin, hmax]
      exact ⟨(List.min?_eq_some_iff.mp hmin).1, (List.max?_eq_some_iff.mp hmax).1⟩

theorem mem_extent {first last : Var} {l : Level} (hl : l ∈ o.levels first last) :
    (o.extent first last).1 ≤ l ∧ l ≤ (o.extent first last).2 :=
  ⟨List.min?_getD_le_of_mem hl, List.le_max?_getD_of_mem hl⟩

theorem Valid.getD_lt (h : o.Valid) (hpos : 0 < o.size) (v : Var) : o.levelOf.getD v 0 < o.size := by
  by_cases hv : v < o.size
  · obtain ⟨l, -, hl, -, hlt⟩ := h.getD_levelOf hv
    rw [hl]
    exact hlt
  · rw [Array.getD_eq_getD_getElem?, Array.getElem?_eq_none (by rw [h.size]; exact Nat.not_lt.mp hv)]
    exact hpos

end VarOrder

/-! ### Blocks along the order -/

namespace VarOrder

variable {o : VarOrder} {top mid bottom : Level}

theorem slice_eq (top bottom : Level) :
    o.slice top bottom = (o.toList.drop top).take (bottom + 1 - top) := by
  rw [slice, Array.toList_extract, List.extract_eq_take_drop]
  rfl

theorem slice_below (bottom : Level) : o.slice (bottom + 1) bottom = [] := by
  rw [slice_eq, Nat.sub_self, List.take_zero]

theorem slice_append (htop : top ≤ mid) (hmid : mid ≤ bottom) :
    o.slice top mid ++ o.slice (mid + 1) bottom = o.slice top bottom := by
  have hsplit : bottom + 1 - top = (mid + 1 - top) + (bottom + 1 - (mid + 1)) := by lia
  rw [slice_eq, slice_eq, slice_eq, hsplit, List.take_add, List.drop_drop]
  congr 3
  lia

theorem slice_self (h : top < o.size) : o.slice top top = [o.varAt.getD top 0] := by
  have hlt : top < o.toList.length := h
  rw [slice_eq, Nat.add_sub_cancel_left, List.drop_eq_getElem_cons hlt, List.take_succ_cons,
    List.take_zero, Array.getD_eq_getD_getElem?, Array.getElem?_eq_getElem h]
  rfl

theorem slice_ne_nil (htop : top ≤ bottom) (h : top < o.size) : o.slice top bottom ≠ [] := by
  rw [← slice_append (Nat.le_refl top) htop, slice_self h]
  exact List.cons_ne_nil _ _

theorem slice_all (h : 0 < o.size) : o.slice 0 (o.size - 1) = o.toList := by
  have hlength : o.toList.length ≤ o.size - 1 + 1 - 0 := by
    show o.size ≤ _
    omega
  rw [slice_eq, List.drop_zero, List.take_of_length_le hlength]

end VarOrder

namespace Block

theorem height_eq (b : Block) : b.height = heights b.children + 1 := by
  obtain ⟨vars, fixed, children⟩ := b
  rw [height]

theorem height_le_heights {c : Block} {blocks : List Block} (hc : c ∈ blocks) :
    c.height ≤ heights blocks := by
  induction blocks with
  | nil => cases hc
  | cons b blocks ih =>
    rw [heights]
    rcases List.mem_cons.mp hc with rfl | hc
    · exact Nat.le_max_left _ _
    · exact Nat.le_trans (ih hc) (Nat.le_max_right _ _)

/-- The block has variables, which are those of the blocks within it, if there are any, at every
depth. -/
inductive Neat : Block → Prop
  | mk {b : Block} (nonempty : b.vars ≠ [])
    (vars : b.children ≠ [] → b.children.flatMap (·.vars) = b.vars)
    (children : ∀ c ∈ b.children, Neat c) : Neat b

variable {order : VarOrder} {bottom : Level}

theorem Neat.nonempty {b : Block} (h : b.Neat) : b.vars ≠ [] := by
  cases h with
  | mk nonempty _ _ => exact nonempty

theorem Neat.vars {b : Block} (h : b.Neat) (hne : b.children ≠ []) :
    b.children.flatMap (·.vars) = b.vars := by
  cases h with
  | mk _ vars _ => exact vars hne

theorem Neat.child {b c : Block} (h : b.Neat) (hc : c ∈ b.children) : c.Neat := by
  cases h with
  | mk _ _ children => exact children c hc

theorem neat_single (v : Var) : (single v).Neat :=
  ⟨List.cons_ne_nil _ _, fun h => absurd rfl h, fun _ hc => by cases hc⟩

/-- A span ends at `bottom` or above, and its block holds all variables of its levels. -/
structure Span.Fits (order : VarOrder) (bottom : Level) (s : Span) : Prop where
  top : s.top ≤ s.bottom
  bottom : s.bottom ≤ bottom
  vars : s.block.vars = order.slice s.top s.bottom
  neat : s.block.Neat

/-- The levels from `level` to `bottom` are filled without gaps, from `resume` on.  Two spans may have
levels in common: the later one is left out then. -/
theorem neat_fill (hsize : bottom < order.size) (n : Nat) (level resume : Level) (spans : List Span)
    (hlevel : level + n = bottom + 1) (hresume : resume ≤ bottom + 1)
    (hspans : ∀ s ∈ spans, s.Fits order bottom) :
    (fill order (List.range' level n) resume spans).flatMap (·.vars) =
        order.slice (max level resume) bottom ∧
      ∀ c ∈ fill order (List.range' level n) resume spans, c.Neat := by
  induction n generalizing level resume spans with
  | zero =>
    obtain rfl : level = bottom + 1 := hlevel
    rw [Nat.max_eq_left hresume, VarOrder.slice_below]
    exact ⟨rfl, fun _ hc => by cases hc⟩
  | succ n ih =>
    rw [List.range'_succ]
    unfold fill
    by_cases hskip : level < resume
    · rw [if_pos hskip, Nat.max_eq_right (Nat.le_of_lt hskip)]
      have h := ih (level + 1) resume spans (by lia) hresume hspans
      rwa [Nat.max_eq_right (Nat.succ_le_of_lt hskip)] at h
    · rw [if_neg hskip, Nat.max_eq_left (Nat.not_lt.mp hskip)]
      -- A level where no span starts becomes a block of its own.
      have alone : ∀ {spans : List Span}, (∀ s ∈ spans, s.Fits order bottom) →
          (single (order.varAt.getD level 0) ::
              fill order (List.range' (level + 1) n) resume spans).flatMap (·.vars) =
            order.slice level bottom ∧
          ∀ c ∈ single (order.varAt.getD level 0) ::
            fill order (List.range' (level + 1) n) resume spans, c.Neat := by
        intro spans hspans
        obtain ⟨hvars, hneat⟩ := ih (level + 1) resume spans (by lia) hresume hspans
        rw [Nat.max_eq_left (by lia)] at hvars
        refine ⟨?_, List.forall_mem_cons.mpr ⟨neat_single _, hneat⟩⟩
        rw [List.flatMap_cons, hvars, ← VarOrder.slice_append (Nat.le_refl level) (by lia),
          VarOrder.slice_self (by lia)]
        rfl
      rcases spans with _ | ⟨span, others⟩
      · exact alone hspans
      · obtain ⟨hspan, hothers⟩ := List.forall_mem_cons.mp hspans
        dsimp only
        by_cases htop : span.top = level
        · -- A span becomes one block, and the levels down to its bottom are passed over.
          rw [if_pos htop]
          subst htop
          have hbottom := hspan.bottom
          have hle := hspan.top
          obtain ⟨hvars, hneat⟩ :=
            ih (span.top + 1) (span.bottom + 1) others (by lia) (by lia) hothers
          rw [Nat.max_eq_right (by lia)] at hvars
          refine ⟨?_, List.forall_mem_cons.mpr ⟨hspan.neat, hneat⟩⟩
          rw [List.flatMap_cons, hvars, hspan.vars, VarOrder.slice_append hle hbottom]
        · rw [if_neg htop]
          exact alone hspans

theorem neat_arrange {top : Level} (htop : top ≤ bottom) (hsize : bottom < order.size)
    {spans : List Span} (hspans : ∀ s ∈ spans, s.Fits order bottom) :
    (arrange order top bottom spans).flatMap (·.vars) = order.slice top bottom ∧
      ∀ c ∈ arrange order top bottom spans, c.Neat := by
  have h := neat_fill hsize (bottom + 1 - top) top top (spans.mergeSort fun s t => s.top ≤ t.top)
    (by lia) (by lia) fun s hs => hspans s (List.mem_mergeSort.mp hs)
  rwa [Nat.max_self] at h

mutual

theorem fits_ofVarBlock (ho : order.Valid) (hpos : 0 < order.size) :
    ∀ {b : VarBlock}, b.Nested →
      Span.Fits order (order.extent b.first b.last).2 (ofVarBlock order b)
  | ⟨first, last, fixed, children⟩, hb => by
    obtain ⟨htop, hbottom⟩ := VarOrder.extent_mem (o := order) hb.range
    have hle := (VarOrder.mem_extent hbottom).1
    have hlt : (order.extent first last).2 < order.size := by
      obtain ⟨v, -, -, hv⟩ := VarOrder.mem_levels.mp hbottom
      rw [← hv]
      exact ho.getD_lt hpos v
    have hspans := fits_ofVarBlocks ho hpos (order.extent first last).2
      (fun c hc => hb.child hc) fun c hc => by
        -- The range within a block ends at a level of that block.
        obtain ⟨hfirst, hlast⟩ := VarBlock.covers_iff.mp (hb.covers hc)
        obtain ⟨v, hv, hv', hl⟩ := VarOrder.mem_levels.mp (VarOrder.extent_mem (hb.child hc).range).2
        exact (VarOrder.mem_extent
          (VarOrder.mem_levels.mpr ⟨v, Nat.le_trans hfirst hv, Nat.le_trans hv' hlast, hl⟩)).2
    rw [ofVarBlock]
    have hne : order.slice (order.extent first last).1 (order.extent first last).2 ≠ [] :=
      VarOrder.slice_ne_nil hle (Nat.lt_of_le_of_lt hle hlt)
    refine ⟨hle, Nat.le_refl _, rfl, hne, fun hne => ?_, fun c hc => ?_⟩
    · dsimp only at hne ⊢
      split at hne
      · exact absurd rfl hne
      · rename_i h
        rw [if_neg h]
        exact (neat_arrange hle hlt hspans).1
    · dsimp only at hc
      split at hc
      · cases hc
      · exact (neat_arrange hle hlt hspans).2 c hc

theorem fits_ofVarBlocks (ho : order.Valid) (hpos : 0 < order.size) :
    ∀ {bs : List VarBlock} (bottom : Level), (∀ b ∈ bs, b.Nested) →
      (∀ b ∈ bs, (order.extent b.first b.last).2 ≤ bottom) →
      ∀ s ∈ ofVarBlocks order bs, s.Fits order bottom
  | [], _, _, _ => fun _ hs => by
    rw [ofVarBlocks] at hs
    cases hs
  | b :: rest, bottom, hbs, hle => by
    obtain ⟨hb, hrest⟩ := List.forall_mem_cons.mp hbs
    obtain ⟨hb', hrest'⟩ := List.forall_mem_cons.mp hle
    have hfits := fits_ofVarBlock ho hpos hb
    rw [ofVarBlocks]
    exact List.forall_mem_cons.mpr ⟨⟨hfits.top, Nat.le_trans hfits.bottom hb', hfits.vars, hfits.neat⟩,
      fits_ofVarBlocks ho hpos bottom hrest hrest'⟩

end

/-- The members of the layout hold all variables, in the current order. -/
theorem neat_members_layout {forest : VarForest} (hf : forest.Nested) (ho : order.Valid)
    (hpos : 0 < order.size) : (layout forest order).children.flatMap (·.vars) = order.toList ∧
      ∀ c ∈ (layout forest order).children, c.Neat := by
  have hspans := fits_ofVarBlocks ho hpos (order.size - 1) hf.block fun b hb => by
    obtain ⟨v, -, -, hv⟩ :=
      VarOrder.mem_levels.mp (VarOrder.extent_mem (o := order) (hf.block b hb).range).2
    have := ho.getD_lt hpos v
    lia
  have h := neat_fill (Nat.sub_lt hpos Nat.one_pos) order.size 0 0
    ((ofVarBlocks order forest).mergeSort fun s t => s.top ≤ t.top) (by lia) (Nat.zero_le _)
    fun s hs => hspans s (List.mem_mergeSort.mp hs)
  rwa [Nat.max_self, VarOrder.slice_all hpos, ← List.range_eq_range'] at h

/-- The blocks that a search starts with hold all variables, in the current order. -/
theorem neat_layout {forest : VarForest} (hf : forest.Nested) (ho : order.Valid)
    (hpos : 0 < order.size) : (layout forest order).Neat := by
  obtain ⟨hvars, hneat⟩ := neat_members_layout hf ho hpos
  exact ⟨List.ne_nil_of_length_pos hpos, fun _ => hvars, hneat⟩

end Block

end DecisionDiagram
