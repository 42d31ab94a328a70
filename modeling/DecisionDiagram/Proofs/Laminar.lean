/-
The forest of configured blocks is laminar.

Blocks that stand beside each other are apart and in increasing order, and a block within another one
is a proper part of it.  Adding a block keeps it so, however deep the block belongs: it finds its place
by a descent through the siblings that cover it, and takes those that it covers as its children.

* `VarBlock.entries` — the ranges of a block with their flags, at every depth;
* `VarForest.Laminar.uncrossed` — no two of them overlap in part;
* `VarBlock.placed_adopt`, `VarBlock.Placed.below` — what becomes of a row of siblings when a block is put
  among them, and when it is put below one of them;
* `VarForest.Laminar.placed` — what becomes of a forest, from the two by induction on its depth;
* `VarForest.laminar_after` — any sequence of additions, of any ranges, leaves a laminar forest, and
  just the ranges that overlap a block in part are refused.
-/
import Mathlib.Data.List.Pairwise
import DecisionDiagram.Proofs.Blocks

namespace DecisionDiagram

/-- A range of variables with the flag of its block. -/
structure BlockRange where
  first : Var
  last : Var
  fixed : Bool
deriving DecidableEq, Repr

namespace BlockRange

/-- Two ranges overlap in part: they have a variable in common, and neither lies within the other. -/
def Crosses (r : BlockRange) (first last : Var) : Prop :=
  (r.first ≤ last ∧ first ≤ r.last) ∧ ¬ (r.first ≤ first ∧ last ≤ r.last) ∧
    ¬ (first ≤ r.first ∧ r.last ≤ last)

/-- The range from `first` to `last`. -/
def Spans (r : BlockRange) (first last : Var) : Prop := r.first = first ∧ r.last = last

/-- The range is part of that from `first` to `last`, and not empty. -/
def Within (r : BlockRange) (first last : Var) : Prop :=
  first ≤ r.first ∧ r.first ≤ r.last ∧ r.last ≤ last

variable {r r' : BlockRange} {first last : Var}

theorem Crosses.symm (h : r.Crosses r'.first r'.last) : r'.Crosses r.first r.last :=
  ⟨⟨h.1.2, h.1.1⟩, h.2.2, h.2.1⟩

end BlockRange

namespace VarBlock

/-- The range of a block. -/
def range (b : VarBlock) : BlockRange := ⟨b.first, b.last, b.fixed⟩

mutual

/-- The ranges of a block and of the blocks within it. -/
def entries : VarBlock → List BlockRange
  | ⟨first, last, fixed, children⟩ => ⟨first, last, fixed⟩ :: entriesAll children

/-- The ranges of a row of blocks and of the blocks within them. -/
def entriesAll : List VarBlock → List BlockRange
  | [] => []
  | b :: rest => entries b ++ entriesAll rest

end

theorem entries_eq (b : VarBlock) : b.entries = b.range :: entriesAll b.children := by
  cases b
  rw [entries]
  rfl

theorem range_mem_entries (b : VarBlock) : b.range ∈ b.entries := by
  rw [entries_eq]
  exact List.mem_cons_self

theorem entriesAll_eq (bs : List VarBlock) : entriesAll bs = bs.flatMap entries := by
  induction bs with
  | nil => rfl
  | cons b bs ih => rw [entriesAll, List.flatMap_cons, ih]

theorem mem_entriesAll {bs : List VarBlock} {r : BlockRange} :
    r ∈ entriesAll bs ↔ ∃ b ∈ bs, r ∈ b.entries := by
  rw [entriesAll_eq, List.mem_flatMap]

/-- The range of `c` is a proper part of the range of `b`. -/
def Encloses (b c : VarBlock) : Prop :=
  (b.first ≤ c.first ∧ c.last ≤ b.last) ∧ ¬ (c.first = b.first ∧ c.last = b.last)

/-- A row of blocks in increasing order, without a common variable. -/
def Sorted (bs : List VarBlock) : Prop := bs.Pairwise fun b c => b.last < c.first

/-- The blocks within a block are proper parts of it and a sorted row, at every depth. -/
inductive Laminar : VarBlock → Prop
  | mk {b : VarBlock} (range : b.first ≤ b.last) (sorted : Sorted b.children)
    (encloses : ∀ c ∈ b.children, b.Encloses c) (children : ∀ c ∈ b.children, Laminar c) : Laminar b

end VarBlock

/-- The largest blocks are a sorted row, and so are those within a block, as proper parts of it. -/
structure VarForest.Laminar (forest : VarForest) : Prop where
  sorted : VarBlock.Sorted forest
  block : ∀ b ∈ forest, b.Laminar

namespace VarBlock

variable {b c new : VarBlock} {bs bs' : List VarBlock} {r r' : BlockRange}

theorem Laminar.range (h : b.Laminar) : b.first ≤ b.last := by
  cases h
  assumption

theorem Laminar.encloses (h : b.Laminar) (hc : c ∈ b.children) : b.Encloses c := by
  cases h with
  | mk _ _ encloses _ => exact encloses c hc

theorem Laminar.children (h : b.Laminar) : VarForest.Laminar b.children := by
  cases h with
  | mk _ sorted _ children => exact ⟨sorted, children⟩

/-! ### Ranges in a laminar forest -/

/-- All ranges in a block are part of its own. -/
theorem Laminar.within (h : b.Laminar) (hr : r ∈ b.entries) : r.Within b.first b.last := by
  induction h generalizing r with
  | @mk b range _ encloses _ ih =>
    rw [entries_eq] at hr
    rcases List.mem_cons.mp hr with rfl | hr
    · exact ⟨Nat.le_refl _, range, Nat.le_refl _⟩
    · obtain ⟨c, hc, hr⟩ := mem_entriesAll.mp hr
      obtain ⟨⟨hfirst, hlast⟩, -⟩ := encloses c hc
      obtain ⟨hge, hle, hle'⟩ := ih c hc hr
      exact ⟨Nat.le_trans hfirst hge, hle, Nat.le_trans hle' hlast⟩

/-- No range in one block overlaps in part with one in the other. -/
def Uncrossed (b c : VarBlock) : Prop :=
  ∀ r ∈ b.entries, ∀ r' ∈ c.entries, ¬ r.Crosses r'.first r'.last

instance : Std.Symm Uncrossed := ⟨fun _ _ h r hr r' hr' hcross => h r' hr' r hr hcross.symm⟩

theorem Laminar.nested (h : b.Laminar) : b.Nested := by
  induction h with
  | @mk b range sorted encloses _ ih =>
    exact ⟨range, fun c hc => covers_iff.mpr (encloses c hc).1, sorted.imp .inl, ih⟩

end VarBlock

namespace VarForest.Laminar

open VarBlock

variable {forest : VarForest} {r r' : BlockRange}

theorem nil : VarForest.Laminar [] := ⟨List.Pairwise.nil, List.forall_mem_nil _⟩

theorem nested (h : forest.Laminar) : forest.Nested :=
  ⟨fun b hb => (h.block b hb).nested, h.sorted.imp .inl⟩

/-- If no ranges in the same block overlap in part, then no ranges of a laminar row do. -/
theorem uncrossed_of (h : forest.Laminar) (hblock : ∀ b ∈ forest, b.Uncrossed b)
    (hr : r ∈ entriesAll forest) (hr' : r' ∈ entriesAll forest) : ¬ r.Crosses r'.first r'.last := by
  obtain ⟨b, hb, hr⟩ := mem_entriesAll.mp hr
  obtain ⟨c, hc, hr'⟩ := mem_entriesAll.mp hr'
  have hpairs : forest.Pairwise Uncrossed := by
    refine h.sorted.imp_of_mem fun {b c} hb hc hbc r hr r' hr' hcross => ?_
    have hlast := ((h.block b hb).within hr).2.2
    have hfirst := ((h.block c hc).within hr').1
    exact absurd hcross.1.2 (Nat.not_le.mpr
      (Nat.lt_of_le_of_lt hlast (Nat.lt_of_lt_of_le hbc hfirst)))
  exact hpairs.forall_of_forall hblock hb hc r hr r' hr'

end VarForest.Laminar

namespace VarBlock

variable {b : VarBlock}

theorem Laminar.uncrossed (h : b.Laminar) : b.Uncrossed b := by
  induction h with
  | @mk b range sorted encloses children ih =>
    have hb : b.Laminar := ⟨range, sorted, encloses, children⟩
    -- What is within the block does not overlap with the block itself in part.
    have hself : ∀ r ∈ b.entries, ¬ r.Crosses b.range.first b.range.last :=
      fun r hr hcross => hcross.2.2 ⟨(hb.within hr).1, (hb.within hr).2.2⟩
    intro r hr r' hr'
    have hr₀ := hr
    rw [entries_eq] at hr hr'
    rcases List.mem_cons.mp hr' with rfl | hr'
    · exact hself r hr₀
    · rcases List.mem_cons.mp hr with rfl | hr
      · refine fun hcross => hself r' ?_ hcross.symm
        rw [entries_eq]
        exact List.mem_cons_of_mem _ hr'
      · exact hb.children.uncrossed_of ih hr hr'

end VarBlock

theorem VarForest.Laminar.uncrossed {forest : VarForest} (h : forest.Laminar) {r r' : BlockRange}
    (hr : r ∈ VarBlock.entriesAll forest) (hr' : r' ∈ VarBlock.entriesAll forest) :
    ¬ r.Crosses r'.first r'.last :=
  h.uncrossed_of (fun b hb => (h.block b hb).uncrossed) hr hr'

namespace VarBlock

variable {b c new : VarBlock} {bs before after : List VarBlock} {r : BlockRange}

/-! ### Additions -/

/-- What becomes of a row of siblings when a block is put among them or below one of them: it is refused
because of a range that it overlaps in part, it is there already, or it is a new one of a laminar row. -/
inductive Placed (new : VarBlock) (bs : List VarBlock) : Except Error (List VarBlock) → Prop
  | refused {r : BlockRange} (hr : r ∈ entriesAll bs) (crosses : r.Crosses new.first new.last) :
    Placed new bs (.error (.illegalVarBlock new.first new.last))
  | present {r : BlockRange} (hr : r ∈ entriesAll bs) (spans : r.Spans new.first new.last) :
    Placed new bs (.ok bs)
  | entered {bs' : List VarBlock}
    (fresh : ∀ r ∈ entriesAll bs, ¬ r.Spans new.first new.last ∧ ¬ r.Crosses new.first new.last)
    (laminar : VarForest.Laminar bs') (perm : (entriesAll bs').Perm (new.range :: entriesAll bs)) :
    Placed new bs (.ok bs')

theorem sameRange_iff : b.sameRange c = true ↔ c.range.Spans b.first b.last := by
  rw [sameRange, Bool.and_eq_true, beq_iff_eq, beq_iff_eq]
  exact and_congr eq_comm eq_comm

theorem overlaps_iff : b.overlaps c = true ↔ b.first ≤ c.last ∧ c.first ≤ b.last := by
  rw [overlaps, Bool.and_eq_true, decide_eq_true_eq, decide_eq_true_eq]

/-- A block that covers another one and is not the same range encloses it. -/
theorem encloses_of_covers (h : b.covers c = true) (hspans : ¬ b.range.Spans c.first c.last) :
    b.Encloses c :=
  ⟨covers_iff.mp h, fun hsame => hspans ⟨hsame.1.symm, hsame.2.symm⟩⟩

/-- A range within a block that has no variable of the new one is neither the same nor overlapped. -/
theorem Laminar.fresh_of_apart (hb : b.Laminar) (hnew : new.first ≤ new.last) (hapart : b.Apart new)
    (hr : r ∈ b.entries) : ¬ r.Spans new.first new.last ∧ ¬ r.Crosses new.first new.last := by
  obtain ⟨hfirst, hle, hlast⟩ := hb.within hr
  refine ⟨fun hspans => ?_, fun hcross => ?_⟩
  · obtain ⟨hrfirst, hrlast⟩ := hspans
    rcases hapart with h | h <;> lia
  · obtain ⟨hrlast, hrfirst⟩ := hcross.1
    rcases hapart with h | h <;> lia

/-- Nor is one within a block that the new one covers, unless both are the same. -/
theorem Laminar.fresh_of_covers (hb : b.Laminar) (hcovers : new.covers b = true)
    (hnot : ¬ b.covers new = true) (hr : r ∈ b.entries) :
    ¬ r.Spans new.first new.last ∧ ¬ r.Crosses new.first new.last := by
  obtain ⟨hfirst, -, hlast⟩ := hb.within hr
  obtain ⟨hge, hle⟩ := covers_iff.mp hcovers
  refine ⟨fun hspans => hnot (covers_iff.mpr ?_), fun hcross => hcross.2.2 ?_⟩
  · rw [← hspans.1, ← hspans.2]
    exact ⟨hfirst, hlast⟩
  · exact ⟨Nat.le_trans hge hfirst, Nat.le_trans hlast hle⟩

theorem entriesAll_append (bs bs' : List VarBlock) :
    entriesAll (bs ++ bs') = entriesAll bs ++ entriesAll bs' := by
  rw [entriesAll_eq, entriesAll_eq, entriesAll_eq, List.flatMap_append]

theorem entriesAll_perm {bs bs' : List VarBlock} (h : bs.Perm bs') :
    (entriesAll bs).Perm (entriesAll bs') := by
  rw [entriesAll_eq, entriesAll_eq]
  exact h.flatMap_right _

/-- Blocks that are apart and in the order of their first variables are sorted. -/
theorem sorted_of_apart (hbs : ∀ b ∈ bs, b.first ≤ b.last) (hapart : bs.Pairwise Apart)
    (hle : bs.Pairwise fun b c => b.first ≤ c.first) : Sorted bs := by
  refine (hapart.and hle).imp_of_mem fun {b c} _ hc h => ?_
  obtain ⟨hbc | hcb, hle⟩ := h
  · exact hbc
  · have := hbs c hc
    lia

/-- The new block with the siblings that it overlaps within it, behind the other ones. -/
def adopted (new : VarBlock) (siblings : List VarBlock) : List VarBlock :=
  siblings.filter (fun b => !b.overlaps new) ++
    [{ new with children := siblings.filter fun b => b.overlaps new }]

/-- A sibling is in the way, or the new block and its siblings are sorted. -/
theorem adopt_cases (new : VarBlock) (siblings : List VarBlock) :
    (∃ b ∈ siblings, b.overlaps new = true ∧ ¬ new.covers b = true ∧
      new.adopt siblings = .error (.illegalVarBlock new.first new.last)) ∨
    (∀ b ∈ siblings, b.overlaps new = true → new.covers b = true) ∧
      new.adopt siblings = .ok ((adopted new siblings).mergeSort fun b c => b.first ≤ c.first) := by
  cases hpart : siblings.any fun b => b.overlaps new && !new.covers b with
  | true =>
    obtain ⟨b, hb, hb'⟩ := List.any_eq_true.mp hpart
    rw [Bool.and_eq_true, Bool.not_eq_true', ← Bool.not_eq_true] at hb'
    refine .inl ⟨b, hb, hb'.1, hb'.2, ?_⟩
    rw [adopt, if_pos hpart]
  | false =>
    refine .inr ⟨fun b hb hoverlaps => ?_, ?_⟩
    · have := List.any_eq_false.mp hpart b hb
      simpa [hoverlaps] using this
    · rw [adopt, if_neg (by rw [hpart]; exact Bool.false_ne_true), List.partition_eq_filter_filter]
      rfl

theorem entriesAll_adopted (new : VarBlock) (siblings : List VarBlock) :
    (entriesAll (adopted new siblings)).Perm (new.range :: entriesAll siblings) := by
  refine (entriesAll_perm (List.perm_append_singleton _ _)).trans ?_
  rw [entriesAll, entries_eq, List.cons_append, ← entriesAll_append]
  exact (entriesAll_perm (List.filter_append_perm _ _)).cons _

/-- The new block and the other siblings are laminar, if it covers all of those that it overlaps. -/
theorem laminar_adopted (hnew : new.first ≤ new.last) (hbs : VarForest.Laminar bs)
    (hspans : ∀ b ∈ bs, ¬ b.range.Spans new.first new.last)
    (hcovered : ∀ b ∈ bs, b.overlaps new = true → new.covers b = true) (hc : c ∈ adopted new bs) :
    c.Laminar := by
  rcases List.mem_append.mp hc with hc | hc
  · exact hbs.block c (List.mem_filter.mp hc).1
  · obtain rfl := List.mem_singleton.mp hc
    refine ⟨hnew, hbs.sorted.filter _, fun c hc => ?_, fun c hc => ?_⟩
    · obtain ⟨hc, hoverlaps⟩ := List.mem_filter.mp hc
      exact encloses_of_covers (hcovered c hc hoverlaps) fun h => hspans c hc ⟨h.1.symm, h.2.symm⟩
    · exact hbs.block c (List.mem_filter.mp hc).1

/-- The siblings that the new block overlaps become its children, if it covers each of them. -/
theorem placed_adopt (hnew : new.first ≤ new.last) (hbs : VarForest.Laminar bs)
    (hspans : ∀ b ∈ bs, ¬ b.range.Spans new.first new.last)
    (hcovers : ∀ b ∈ bs, ¬ b.covers new = true) : Placed new bs (new.adopt bs) := by
  rcases adopt_cases new bs with ⟨b, hb, hoverlaps, hout, h⟩ | ⟨hcovered, h⟩
  · rw [h]
    exact .refused (mem_entriesAll.mpr ⟨b, hb, range_mem_entries b⟩) ⟨overlaps_iff.mp hoverlaps,
      fun h => hcovers b hb (covers_iff.mpr h), fun h => hout (covers_iff.mpr h)⟩
  · have hsettles := settles_adopt hnew hbs.nested.block hbs.nested.apart h
    rw [h]
    refine .entered (fun r hr => ?_) ⟨?_, fun c hc => ?_⟩
      ((entriesAll_perm (List.mergeSort_perm _ _)).trans (entriesAll_adopted new bs))
    · -- A sibling has no variable of the new block, or it is covered as a whole.
      obtain ⟨b, hb, hr⟩ := mem_entriesAll.mp hr
      cases hoverlaps : b.overlaps new with
      | false => exact (hbs.block b hb).fresh_of_apart hnew (apart_of_not_overlaps hoverlaps) hr
      | true => exact (hbs.block b hb).fresh_of_covers (hcovered b hb hoverlaps) (hcovers b hb) hr
    · refine sorted_of_apart (fun c hc => (hsettles.nested c hc).range) hsettles.apart ?_
      exact (List.pairwise_mergeSort (by simp; lia) (by simp; lia) _).imp of_decide_eq_true
    · exact laminar_adopted hnew hbs hspans hcovered (List.mem_mergeSort.mp hc)

/-- All blocks within a block are proper parts of it. -/
theorem Laminar.encloses_of_mem (h : b.Laminar) (hc : c.range ∈ entriesAll b.children) :
    b.Encloses c := by
  obtain ⟨d, hd, hc⟩ := mem_entriesAll.mp hc
  obtain ⟨⟨hfirst, hlast⟩, hne⟩ := h.encloses hd
  obtain ⟨hge, -, hle⟩ : d.first ≤ c.first ∧ c.first ≤ c.last ∧ c.last ≤ d.last :=
    (h.children.block d hd).within hc
  refine ⟨⟨Nat.le_trans hfirst hge, Nat.le_trans hle hlast⟩, fun hsame => hne ⟨?_, ?_⟩⟩
  · exact Nat.le_antisymm (hsame.1 ▸ hge) hfirst
  · exact Nat.le_antisymm hlast (hsame.2 ▸ hle)

/-- A laminar block stays so with a row of new blocks in it, if all of them have a place there. -/
theorem Laminar.with_children (h : b.Laminar) (hnew : b.Encloses new) {children : List VarBlock}
    (hchildren : VarForest.Laminar children)
    (hperm : (entriesAll children).Perm (new.range :: entriesAll b.children)) :
    VarBlock.Laminar { b with children } := by
  refine ⟨h.range, hchildren.sorted, fun c hc => ?_, hchildren.block⟩
  have hmem := hperm.mem_iff.mp (mem_entriesAll.mpr ⟨c, hc, range_mem_entries c⟩)
  rcases List.mem_cons.mp hmem with heq | hmem
  · injection heq with hfirst hlast
    show b.Encloses c
    rw [Encloses, hfirst, hlast]
    exact hnew
  · exact h.encloses_of_mem hmem

theorem mem_entriesAll_middle : r ∈ entriesAll (before ++ b :: after) ↔
    r = b.range ∨ r ∈ entriesAll b.children ∨ ∃ c ∈ before ++ after, r ∈ c.entries := by
  rw [← mem_entriesAll, entriesAll_append, entriesAll_append, entriesAll, entries_eq]
  simp only [List.mem_append, List.mem_cons]
  rw [or_assoc]
  exact or_left_comm.trans (or_congr_right or_left_comm)

/-- A new range of a block in a row is new in the row. -/
theorem entriesAll_middle {b' : VarBlock} (hrange : b'.range = b.range)
    (hperm : (entriesAll b'.children).Perm (r :: entriesAll b.children)) :
    (entriesAll (before ++ b' :: after)).Perm (r :: entriesAll (before ++ b :: after)) := by
  rw [entriesAll_append, entriesAll_append, entriesAll, entriesAll, entries_eq, entries_eq, hrange]
  calc entriesAll before ++ (b.range :: entriesAll b'.children ++ entriesAll after)
      |>.Perm (entriesAll before ++ (b.range :: (r :: entriesAll b.children) ++ entriesAll after)) :=
        ((hperm.cons _).append_right _).append_left _
    List.Perm _ (entriesAll before ++ (r :: (b.range :: entriesAll b.children) ++ entriesAll after)) :=
        ((List.Perm.swap _ _ _).append_right _).append_left _
    List.Perm _ (r :: (entriesAll before ++ (b.range :: entriesAll b.children ++ entriesAll after))) :=
        List.perm_middle

/-- The other blocks of a row are apart from what one of them covers. -/
theorem apart_middle (h : Sorted (before ++ b :: after)) (hb : b.covers new = true)
    (hc : c ∈ before ++ after) : c.Apart new := by
  obtain ⟨-, hafter, hacross⟩ := List.pairwise_append.mp h
  obtain ⟨hfirst, hlast⟩ := covers_iff.mp hb
  rcases List.mem_append.mp hc with hc | hc
  · exact .inl (Nat.lt_of_lt_of_le (hacross c hc b List.mem_cons_self) hfirst)
  · exact .inr (Nat.lt_of_le_of_lt hlast ((List.pairwise_cons.mp hafter).1 c hc))

/-- A row stays laminar when one block of it changes and keeps its range. -/
theorem laminar_middle {b' : VarBlock} (hbs : VarForest.Laminar (before ++ b :: after))
    (hrange : b'.range = b.range) (hb' : b'.Laminar) : VarForest.Laminar (before ++ b' :: after) := by
  obtain ⟨hfirst, hlast⟩ : b'.first = b.first ∧ b'.last = b.last := by
    injection hrange with hfirst hlast
    exact ⟨hfirst, hlast⟩
  constructor
  · have hsorted := hbs.sorted
    simp only [Sorted, List.pairwise_append, List.pairwise_cons, List.forall_mem_cons] at hsorted ⊢
    rwa [hfirst, hlast]
  · intro c hc
    rcases List.mem_append.mp hc with hc | hc
    · exact hbs.block c (List.mem_append_left _ hc)
    · rcases List.mem_cons.mp hc with rfl | hc
      · exact hb'
      · exact hbs.block c (List.mem_append_right _ (List.mem_cons_of_mem _ hc))

/-- Below a sibling that encloses the new block, the row of the children changes, and nothing else. -/
theorem Placed.below {result : Except Error (List VarBlock)} (hnew : new.first ≤ new.last)
    (hbs : VarForest.Laminar (before ++ b :: after)) (hb : b.Encloses new)
    (h : Placed new b.children result) :
    Placed new (before ++ b :: after)
      (result.map fun children => before ++ { b with children } :: after) := by
  have hmem : b ∈ before ++ b :: after := List.mem_append_right _ List.mem_cons_self
  cases h with
  | refused hr hcross => exact .refused (mem_entriesAll_middle.mpr (.inr (.inl hr))) hcross
  | present hr hspans =>
    cases b
    exact .present (mem_entriesAll_middle.mpr (.inr (.inl hr))) hspans
  | @entered children fresh laminar perm =>
    refine .entered (fun r hr => ?_)
      (laminar_middle hbs rfl ((hbs.block b hmem).with_children hb laminar perm))
      (entriesAll_middle rfl perm)
    rcases mem_entriesAll_middle.mp hr with rfl | hr | ⟨c, hc, hr⟩
    · exact ⟨fun hspans => hb.2 ⟨hspans.1.symm, hspans.2.symm⟩, fun hcross => hcross.2.1 hb.1⟩
    · exact fresh r hr
    · have hc' : c ∈ before ++ b :: after := (List.mem_append.mp hc).elim (List.mem_append_left _)
        fun hc => List.mem_append_right _ (List.mem_cons_of_mem _ hc)
      exact (hbs.block c hc').fresh_of_apart hnew (apart_middle hbs.sorted (covers_iff.mpr hb.1) hc) hr

/-- The descent is stuck, or it leads below a sibling that covers the new block. -/
theorem descend_cases (new : VarBlock) (bs : List VarBlock) :
    (∀ b ∈ bs, ¬ b.covers new = true) ∧ new.descend bs = none ∨
    ∃ before b after, bs = before ++ b :: after ∧ b.covers new = true ∧
      new.descend bs = some ((new.place b.children (new.descend b.children)).map
        fun children => before ++ { b with children } :: after) := by
  induction bs with
  | nil => exact .inl ⟨List.forall_mem_nil _, by rw [descend]⟩
  | cons b rest ih =>
    rw [descend]
    by_cases hb : b.covers new = true
    · refine .inr ⟨[], b, rest, rfl, hb, ?_⟩
      rw [if_pos hb]
      obtain ⟨first, last, fixed, children⟩ := b
      rw [insertBelow]
      cases new.place children (new.descend children) <;> rfl
    · rw [if_neg hb]
      rcases ih with ⟨hrest, h⟩ | ⟨before, c, after, rfl, hc, h⟩
      · exact .inl ⟨List.forall_mem_cons.mpr ⟨hb, hrest⟩, by rw [h]; rfl⟩
      · refine .inr ⟨b :: before, c, after, rfl, hc, ?_⟩
        rw [h]
        cases new.place c.children (new.descend c.children) <;> rfl

/-- A row of siblings takes up a new block if each of them does so below itself. -/
theorem placed_place (hnew : new.first ≤ new.last) (hbs : VarForest.Laminar bs)
    (hbelow : ∀ b ∈ bs, Placed new b.children (new.place b.children (new.descend b.children))) :
    Placed new bs (new.place bs (new.descend bs)) := by
  unfold place
  split
  · rename_i hsame
    obtain ⟨b, hb, hsame⟩ := List.any_eq_true.mp hsame
    exact .present (mem_entriesAll.mpr ⟨b, hb, range_mem_entries b⟩) (sameRange_iff.mp hsame)
  · rename_i hsame
    have hspans : ∀ b ∈ bs, ¬ b.range.Spans new.first new.last := fun b hb hspans =>
      hsame (List.any_eq_true.mpr ⟨b, hb, sameRange_iff.mpr hspans⟩)
    rcases descend_cases new bs with ⟨hcovers, h⟩ | ⟨before, b, after, rfl, hcovers, h⟩
    · rw [h]
      exact placed_adopt hnew hbs hspans hcovers
    · rw [h]
      have hmem : b ∈ before ++ b :: after := List.mem_append_right _ List.mem_cons_self
      exact (hbelow b hmem).below hnew hbs (encloses_of_covers hcovers (hspans b hmem))

theorem Laminar.placed (h : b.Laminar) (hnew : new.first ≤ new.last) :
    Placed new b.children (new.place b.children (new.descend b.children)) := by
  -- The induction goes down the forest as the descent does: one row of siblings at a time.
  induction h with
  | @mk b _ sorted _ children ih => exact placed_place hnew ⟨sorted, children⟩ ih

end VarBlock

namespace VarForest

open VarBlock

/-- A new block finds its place in a laminar forest, or it is refused. -/
theorem Laminar.placed {forest : VarForest} (h : forest.Laminar) {new : VarBlock}
    (hnew : new.first ≤ new.last) : Placed new forest (new.place forest (new.descend forest)) :=
  placed_place hnew h fun b hb => (h.block b hb).placed hnew

/-! ### Sequences of changes -/

/-- A change to the forest: a range is added, or all blocks are removed. -/
inductive Change where
  | add (first last : Var) (fixed : Bool)
  | clear
deriving DecidableEq, Repr

/-- The forest with a change.  An addition that is refused leaves it as it is. -/
def change (forest : VarForest) : Change → VarForest
  | .add first last fixed =>
    match forest.add first last fixed with
    | .ok forest => forest
    | .error _ => forest
  | .clear => []

/-- The forest with the changes of a list, one after the other, from the empty one on. -/
def after (changes : List Change) : VarForest := changes.foldl change []

variable {forest : VarForest} {first last : Var} {fixed : Bool}

theorem add_of_lt (h : last < first) :
    forest.add first last fixed = .error (.illegalVarBlock first last) := by
  rw [VarForest.add, if_pos h]

theorem Laminar.placed_add (h : forest.Laminar) (hle : first ≤ last) (fixed : Bool) :
    Placed ⟨first, last, fixed, []⟩ forest (forest.add first last fixed) := by
  rw [VarForest.add, if_neg (Nat.not_lt.mpr hle)]
  exact h.placed hle

theorem change_of_error {e : Error} (h : forest.add first last fixed = .error e) :
    forest.change (.add first last fixed) = forest := by
  rw [change, h]

theorem change_of_ok {forest' : VarForest} (h : forest.add first last fixed = .ok forest') :
    forest.change (.add first last fixed) = forest' := by
  rw [change, h]

theorem Laminar.change (h : forest.Laminar) (c : Change) : VarForest.Laminar (forest.change c) := by
  cases c with
  | clear => exact Laminar.nil
  | add first last fixed =>
    rcases hadd : forest.add first last fixed with e | forest'
    · rw [change_of_error hadd]
      exact h
    · rw [change_of_ok hadd]
      rcases Nat.lt_or_ge last first with hlt | hle
      · rw [add_of_lt hlt] at hadd
        cases hadd
      · have hplaced := h.placed_add hle fixed
        rw [hadd] at hplaced
        cases hplaced with
        | present => exact h
        | entered _ laminar _ => exact laminar

theorem Laminar.changes (h : forest.Laminar) (changes : List Change) :
    VarForest.Laminar (changes.foldl VarForest.change forest) := by
  induction changes generalizing forest with
  | nil => exact h
  | cons c changes ih => exact ih (h.change c)

/-- What an addition does: it fails just for a range that is empty or overlaps a block in part, and then
nothing changes; a range that is there already stays as it is; any other one is new, and only that. -/
structure Adds (forest : VarForest) (first last : Var) (fixed : Bool) : Prop where
  refused : (∃ e, forest.add first last fixed = .error e) ↔
    last < first ∨ ∃ r ∈ entriesAll forest, r.Crosses first last
  cause : ∀ e, forest.add first last fixed = .error e → e = .illegalVarBlock first last ∧
    forest.change (.add first last fixed) = forest
  present : ∀ forest', forest.add first last fixed = .ok forest' →
    (∃ r ∈ entriesAll forest, r.Spans first last) → forest' = forest
  entered : ∀ forest', forest.add first last fixed = .ok forest' →
    (∀ r ∈ entriesAll forest, ¬ r.Spans first last) →
      (entriesAll forest').Perm (⟨first, last, fixed⟩ :: entriesAll forest)

theorem Adds.of_error (hadd : forest.add first last fixed = .error (.illegalVarBlock first last))
    (hcause : last < first ∨ ∃ r ∈ entriesAll forest, r.Crosses first last) :
    forest.Adds first last fixed where
  refused := ⟨fun _ => hcause, fun _ => ⟨_, hadd⟩⟩
  cause e he := by
    rw [hadd] at he
    exact ⟨(Except.error.inj he).symm, change_of_error hadd⟩
  present forest' hok := by
    rw [hadd] at hok
    cases hok
  entered forest' hok := by
    rw [hadd] at hok
    cases hok

theorem Adds.of_ok {forest' : VarForest} (hadd : forest.add first last fixed = .ok forest')
    (hle : first ≤ last) (hcross : ∀ r ∈ entriesAll forest, ¬ r.Crosses first last)
    (hpresent : (∃ r ∈ entriesAll forest, r.Spans first last) → forest' = forest)
    (hentered : (∀ r ∈ entriesAll forest, ¬ r.Spans first last) →
      (entriesAll forest').Perm (⟨first, last, fixed⟩ :: entriesAll forest)) :
    forest.Adds first last fixed where
  refused := by
    refine ⟨fun ⟨e, he⟩ => ?_, ?_⟩
    · rw [hadd] at he
      cases he
    · rintro (hlt | ⟨r, hr, h⟩)
      · exact absurd hlt (Nat.not_lt.mpr hle)
      · exact absurd h (hcross r hr)
  cause e he := by
    rw [hadd] at he
    cases he
  present _ hok := Except.ok.inj (hadd.symm.trans hok) ▸ hpresent
  entered _ hok := Except.ok.inj (hadd.symm.trans hok) ▸ hentered

theorem Laminar.adds (h : forest.Laminar) (first last : Var) (fixed : Bool) :
    forest.Adds first last fixed := by
  rcases Nat.lt_or_ge last first with hlt | hle
  · exact .of_error (add_of_lt hlt) (.inl hlt)
  · have hplaced := h.placed_add hle fixed
    rcases hadd : forest.add first last fixed with e | forest' <;> rw [hadd] at hplaced
    · cases hplaced with
      | refused hr crosses => exact .of_error hadd (.inr ⟨_, hr, crosses⟩)
    · cases hplaced with
      | present hr spans =>
        obtain ⟨rfl, rfl⟩ := spans
        exact .of_ok hadd hle (fun r' hr' => h.uncrossed hr' hr) (fun _ => rfl)
          fun hnone => absurd ⟨rfl, rfl⟩ (hnone _ hr)
      | entered fresh _ perm =>
        exact .of_ok hadd hle (fun r hr => (fresh r hr).2)
          (fun ⟨r, hr, hspans⟩ => absurd hspans (fresh r hr).1) fun _ => perm

/-- Any changes, one after the other, leave a laminar forest, and each range is added to it as it should
be. -/
theorem laminar_after (changes : List Change) :
    VarForest.Laminar (after changes) ∧ ∀ first last fixed, (after changes).Adds first last fixed :=
  have h := Laminar.nil.changes changes
  ⟨h, h.adds⟩

-- A parent comes after its children, and a part of it that ends within one of them is refused.
example : entriesAll (after [.add 4 5 false, .add 2 3 false, .add 2 5 true, .add 3 5 false]) =
    [⟨2, 5, true⟩, ⟨2, 3, false⟩, ⟨4, 5, false⟩] := by cbv

end VarForest

end DecisionDiagram
