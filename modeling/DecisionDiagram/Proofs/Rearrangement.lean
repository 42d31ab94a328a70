/-
Blocks after a search.

A search permutes the blocks within a block, unless it is fixed, and then searches within each of them.
The variables of a block are read off its members again, and they remain side by side.

* `Block.Rearranged` — a block before and after such work;
* `Rearranged.perm`, `.within` — it has the same variables, and so have the blocks within, at every
  depth;
* `Rearranged.above_iff` — two variables of different members of a fixed block keep their relative
  order, and so do any two variables of a block without members.
-/
import Mathlib.Data.List.Forall2
import DecisionDiagram.Proofs.Blocks

namespace DecisionDiagram

/-! ### Lists -/

section Lists

variable {α : Type} {xs ys : List α} {v w : α}

/-- Of two lists one after the other, the first entry of a pair is in the first one if they are in
different lists. -/
theorem pair_sublist_append : [v, w].Sublist (xs ++ ys) ↔
    [v, w].Sublist xs ∨ (v ∈ xs ∧ w ∈ ys) ∨ [v, w].Sublist ys := by
  rw [List.sublist_append_iff]
  constructor
  · rintro ⟨l, r, heq, hl, hr⟩
    rcases l with _ | ⟨a, _ | ⟨b, l⟩⟩
    · exact .inr (.inr (heq ▸ hr))
    · obtain ⟨rfl, rfl⟩ := List.cons.inj heq
      exact .inr (.inl ⟨List.singleton_sublist.mp hl, List.singleton_sublist.mp hr⟩)
    · obtain ⟨rfl, hrest⟩ := List.cons.inj heq
      obtain ⟨rfl, hnil⟩ := List.cons.inj hrest
      obtain rfl := (List.append_eq_nil_iff.mp hnil.symm).1
      exact .inl hl
  · rintro (h | ⟨hv, hw⟩ | h)
    · exact ⟨[v, w], [], rfl, h, List.nil_sublist _⟩
    · exact ⟨[v], [w], rfl, List.singleton_sublist.mpr hv, List.singleton_sublist.mpr hw⟩
    · exact ⟨[], [v, w], rfl, List.nil_sublist _, h⟩

/-- What is in the first of two lists that go together has its counterpart in the second one. -/
theorem exists_of_forall₂ {β : Type} {R : α → β → Prop} {l : List α} {l' : List β}
    (h : List.Forall₂ R l l') {a : α} (ha : a ∈ l) : ∃ b ∈ l', R a b := by
  induction h with
  | nil => cases ha
  | cons hab _ ih =>
    rcases List.mem_cons.mp ha with rfl | ha
    · exact ⟨_, List.mem_cons_self, hab⟩
    · obtain ⟨b, hb, hr⟩ := ih ha
      exact ⟨b, List.mem_cons_of_mem _ hb, hr⟩

end Lists

namespace Block

variable {b b' c d : Block}

/-! ### Blocks within blocks -/

/-- A block, the blocks within it, and so on. -/
inductive Within (b : Block) : Block → Prop
  | refl : Within b b
  | child {d c : Block} (h : Within b d) (hc : c ∈ d.children) : Within b c

theorem Neat.within (h : b.Neat) (hd : b.Within d) : d.Neat := by
  induction hd with
  | refl => exact h
  | child _ hc ih => exact ih.child hc

/-- The block `b'` is `b` after its members, in another order unless it is fixed, were rearranged
themselves.  Without members, the variables stay; otherwise they are those of the members in turn. -/
inductive Rearranged : Block → Block → Prop
  | mk {b b' : Block} {row : List Block} (perm : row.Perm b.children)
    (fixed : b.fixed = true → row = b.children) (length : row.length = b'.children.length)
    (members : ∀ p ∈ row.zip b'.children, Rearranged p.1 p.2)
    (leaf : b.children = [] → b'.vars = b.vars)
    (vars : b.children ≠ [] → b'.vars = b'.children.flatMap (·.vars)) : Rearranged b b'

theorem Rearranged.exists_row (h : b.Rearranged b') : ∃ row : List Block, row.Perm b.children ∧
    (b.fixed = true → row = b.children) ∧ List.Forall₂ Rearranged row b'.children := by
  cases h with
  | mk perm fixed length members _ _ =>
    exact ⟨_, perm, fixed, List.forall₂_iff_zip.mpr ⟨length, fun hp => members _ hp⟩⟩

theorem Rearranged.vars_eq (h : b.Rearranged b') (hne : b.children ≠ []) :
    b'.vars = b'.children.flatMap (·.vars) := by
  cases h with
  | mk _ _ _ _ _ vars => exact vars hne

theorem Rearranged.leaf (h : b.Rearranged b') (hnil : b.children = []) : b'.vars = b.vars := by
  cases h with
  | mk _ _ _ _ leaf _ => exact leaf hnil

theorem flatMap_perm {row row' : List Block}
    (h : List.Forall₂ (fun c c' => c'.vars.Perm c.vars) row row') :
    (row'.flatMap (·.vars)).Perm (row.flatMap (·.vars)) := by
  induction h with
  | nil => exact .refl _
  | cons hc _ ih => exact hc.append ih

/-- A block has the same variables afterwards. -/
theorem Rearranged.perm (h : b.Rearranged b') (hb : b.Neat) : b'.vars.Perm b.vars := by
  induction h with
  | @mk b b' row perm fixed length members leaf vars ih =>
    by_cases hnil : b.children = []
    · rw [leaf hnil]
    · have hmembers : List.Forall₂ (fun c c' => c'.vars.Perm c.vars) row b'.children := by
        refine List.forall₂_iff_zip.mpr ⟨length, fun {c c'} hp => ih (c, c') hp ?_⟩
        exact hb.child (perm.mem_iff.mp (List.of_mem_zip hp).1)
      rw [vars hnil, ← hb.vars hnil]
      exact (flatMap_perm hmembers).trans (perm.flatMap_right _)

/-- A block within has been rearranged too, and its variables stand side by side. -/
theorem Rearranged.within (h : b.Rearranged b') (hd : b.Within d) :
    ∃ d', d.Rearranged d' ∧ d'.vars <:+: b'.vars := by
  induction hd with
  | refl => exact ⟨b', h, List.infix_rfl⟩
  | @child d c _ hc ih =>
    obtain ⟨d', hd', hside⟩ := ih
    obtain ⟨row, perm, -, members⟩ := hd'.exists_row
    obtain ⟨c', hc', hcc'⟩ := exists_of_forall₂ members (perm.mem_iff.mpr hc)
    refine ⟨c', hcc', List.IsInfix.trans ?_ hside⟩
    rw [hd'.vars_eq (List.ne_nil_of_mem hc)]
    exact List.infix_of_mem_flatten (List.mem_map_of_mem hc')

/-- In two rows of blocks with the same variables, two variables that are not in one block are in the
same order. -/
theorem pair_sublist_flatMap {row row' : List Block} {v w : Var}
    (h : List.Forall₂ (fun c c' => c'.vars.Perm c.vars) row row')
    (hpart : ∀ c ∈ row, ¬ (v ∈ c.vars ∧ w ∈ c.vars)) :
    [v, w].Sublist (row'.flatMap (·.vars)) ↔ [v, w].Sublist (row.flatMap (·.vars)) := by
  induction h with
  | nil => exact .rfl
  | @cons c c' row row' hc hrow ih =>
    obtain ⟨hpart, hparts⟩ := List.forall_mem_cons.mp hpart
    have hnot : ¬ [v, w].Sublist c.vars := fun hs => hpart ⟨hs.subset (by simp), hs.subset (by simp)⟩
    have hnot' : ¬ [v, w].Sublist c'.vars := fun hs =>
      hpart ⟨hc.subset (hs.subset (by simp)), hc.subset (hs.subset (by simp))⟩
    rw [List.flatMap_cons, List.flatMap_cons, pair_sublist_append, pair_sublist_append, ih hparts,
      hc.mem_iff, (flatMap_perm hrow).mem_iff]
    simp only [hnot, hnot']

/-- Two variables keep their relative order in a block without members, and in a fixed one if they are
in different members. -/
theorem Rearranged.above_iff (h : b.Rearranged b') (hb : b.Neat)
    (hkeep : b.fixed = true ∨ b.children = []) {v w : Var}
    (hpart : ∀ c ∈ b.children, ¬ (v ∈ c.vars ∧ w ∈ c.vars)) :
    [v, w].Sublist b'.vars ↔ [v, w].Sublist b.vars := by
  by_cases hnil : b.children = []
  · rw [h.leaf hnil]
  · obtain ⟨row, -, fixed, members⟩ := h.exists_row
    obtain rfl := fixed (hkeep.resolve_right hnil)
    rw [h.vars_eq hnil, ← hb.vars hnil]
    refine pair_sublist_flatMap ?_ hpart
    obtain ⟨length, members⟩ := List.forall₂_iff_zip.mp members
    exact List.forall₂_iff_zip.mpr ⟨length, fun {c c'} hp =>
      (members hp).perm (hb.child (List.of_mem_zip hp).1)⟩

end Block

end DecisionDiagram
