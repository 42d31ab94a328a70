/-
The layout of the configured blocks covers the order.

A search reads the variables that it moves off the blocks of the layout, so none may be lost or counted
twice there, wherever the configured blocks have ended up.  If each of them stands at consecutive
levels, then the layout is the forest itself, with the variables between the blocks as members of their
own.

* `Block.Neat.flatMap_leaves` — the leaves of a neat block hold its variables, in the same order;
* `Block.countP_inner_le_one` — no two blocks within a block have the same variables;
* `Block.perm_members` — what the members of a row are, if no two configured blocks share a level;
* `Block.layout_covers` — the layout holds each variable once, and each configured block once.
-/
import Mathlib.Data.List.Nodup
import DecisionDiagram.Proofs.Grouping
import DecisionDiagram.Proofs.Laminar

namespace DecisionDiagram

namespace Block

variable {b c d : Block} {row : List Block} {v : Var}

/-! ### The blocks within a block -/

mutual

/-- The blocks within a block, at every depth. -/
def inner : Block → List Block
  | ⟨_, _, children⟩ => innerAll children

/-- The blocks of a row, and those within them. -/
def innerAll : List Block → List Block
  | [] => []
  | b :: rest => b :: (inner b ++ innerAll rest)

end

/-- The blocks without members, from the top level down: the block itself, or some of those within. -/
def leaves (b : Block) : List Block := (b :: b.inner).filter fun d => d.children.isEmpty

theorem inner_eq (b : Block) : b.inner = innerAll b.children := by
  cases b
  rw [inner]

theorem mem_innerAll (hb : b ∈ row) (hd : d = b ∨ d ∈ b.inner) : d ∈ innerAll row := by
  induction row with
  | nil => cases hb
  | cons c row ih =>
    rw [innerAll, ← List.cons_append]
    rcases List.mem_cons.mp hb with rfl | hb
    · exact List.mem_append_left _ (List.mem_cons.mpr hd)
    · exact List.mem_append_right _ (ih hb)

mutual

theorem mem_inner_of_child : ∀ {b d c : Block}, d ∈ b.inner → c ∈ d.children → c ∈ b.inner
  | ⟨_, _, _⟩, _, _, hd, hc => by
    rw [inner] at hd ⊢
    exact mem_innerAll_of_child hd hc

theorem mem_innerAll_of_child :
    ∀ {row : List Block} {d c : Block}, d ∈ innerAll row → c ∈ d.children → c ∈ innerAll row
  | b :: rest, d, c, hd, hc => by
    rw [innerAll] at hd ⊢
    refine List.mem_cons_of_mem _ (List.mem_append.mpr ?_)
    rcases List.mem_cons.mp hd with rfl | hd
    · refine .inl ?_
      rw [inner_eq]
      exact mem_innerAll hc (.inl rfl)
    · rcases List.mem_append.mp hd with hd | hd
      · exact .inl (mem_inner_of_child hd hc)
      · exact .inr (mem_innerAll_of_child hd hc)

end

theorem Within.trans (h : b.Within c) (h' : c.Within d) : b.Within d := by
  induction h' with
  | refl => exact h
  | child _ hc ih => exact ih.child hc

mutual

theorem within_of_mem_inner : ∀ {b d : Block}, d ∈ b.inner → ∃ c ∈ b.children, c.Within d
  | ⟨_, _, _⟩, _, hd => by
    rw [inner] at hd
    exact within_of_mem_innerAll hd

theorem within_of_mem_innerAll :
    ∀ {row : List Block} {d : Block}, d ∈ innerAll row → ∃ c ∈ row, c.Within d
  | b :: rest, d, hd => by
    rw [innerAll] at hd
    rcases List.mem_cons.mp hd with rfl | hd
    · exact ⟨d, List.mem_cons_self, .refl⟩
    · rcases List.mem_append.mp hd with hd | hd
      · obtain ⟨c, hc, hwithin⟩ := within_of_mem_inner hd
        exact ⟨b, List.mem_cons_self, (Within.child .refl hc).trans hwithin⟩
      · obtain ⟨c, hc, hwithin⟩ := within_of_mem_innerAll hd
        exact ⟨c, List.mem_cons_of_mem _ hc, hwithin⟩

end

/-! ### Leaves -/

/-- The leaves of a row hold the variables of the row, if those of each block hold those of the block. -/
theorem flatMap_leaves_row (h : ∀ b ∈ row, b.leaves.flatMap (·.vars) = b.vars) :
    ((innerAll row).filter fun d => d.children.isEmpty).flatMap (·.vars) = row.flatMap (·.vars) := by
  induction row with
  | nil => rfl
  | cons b row ih =>
    obtain ⟨hb, hrow⟩ := List.forall_mem_cons.mp h
    rw [innerAll, ← List.cons_append, List.filter_append, List.flatMap_append, ih hrow,
      List.flatMap_cons]
    exact congrArg (· ++ _) hb

/-- The leaves of a block that is the row of its members hold the same variables. -/
theorem flatMap_leaves (hne : b.children ≠ []) (hvars : b.children.flatMap (·.vars) = b.vars)
    (h : ∀ c ∈ b.children, c.leaves.flatMap (·.vars) = c.vars) :
    b.leaves.flatMap (·.vars) = b.vars := by
  rw [leaves, List.filter_cons, if_neg (by simpa using hne), inner_eq, flatMap_leaves_row h, hvars]

theorem flatMap_leaves_of_nil (hnil : b.children = []) : b.leaves.flatMap (·.vars) = b.vars := by
  rw [leaves, inner_eq, hnil]
  simp [innerAll, hnil]

theorem Neat.flatMap_leaves (h : b.Neat) : b.leaves.flatMap (·.vars) = b.vars := by
  induction h with
  | @mk b _ vars _ ih =>
    by_cases hnil : b.children = []
    · exact flatMap_leaves_of_nil hnil
    · exact Block.flatMap_leaves hnil (vars hnil) ih

/-- The variables of a block within stand side by side. -/
theorem Neat.isInfix (h : b.Neat) (hd : b.Within d) : d.vars <:+: b.vars := by
  induction hd with
  | refl => exact List.infix_rfl
  | @child d c hd hc ih =>
    refine List.IsInfix.trans ?_ ih
    rw [← (h.within hd).vars (List.ne_nil_of_mem hc)]
    exact List.infix_of_mem_flatten (List.mem_map_of_mem hc)

/-! ### Blocks with the same variables -/

/-- Two blocks of a row with a variable in common are the same, if the row has each variable once. -/
theorem eq_of_common_var (hrow : (row.flatMap (·.vars)).Nodup) (hc : c ∈ row) (hd : d ∈ row)
    (hv : v ∈ c.vars) (hv' : v ∈ d.vars) : c = d := by
  by_contra hne
  have : Std.Symm (Function.onFun List.Disjoint fun c : Block => c.vars) := ⟨fun _ _ h => h.symm⟩
  exact (List.nodup_flatMap.mp hrow).2.forall hc hd hne hv hv'

theorem nodup_row (hrow : (row.flatMap (·.vars)).Nodup) (hvars : ∀ c ∈ row, c.vars ≠ []) :
    row.Nodup := by
  refine (List.nodup_flatMap.mp hrow).2.imp_of_mem fun {c d} hc _ hdisjoint heq => ?_
  obtain ⟨v, hv⟩ := List.exists_mem_of_ne_nil _ (hvars c hc)
  exact hdisjoint hv (heq ▸ hv)

theorem eq_singleton_of_mem {α : Type} {l : List α} {a : α} (hle : l.length ≤ 1) (ha : a ∈ l) :
    l = [a] := by
  obtain ⟨b, rfl⟩ := List.length_eq_one_iff.mp (Nat.le_antisymm hle (List.length_pos_of_mem ha))
  rw [List.mem_singleton.mp ha]

/-- Each block within has fewer variables than the one that it is a member of. -/
inductive Proper : Block → Prop
  | mk {b : Block} (smaller : ∀ c ∈ b.children, c.vars.length < b.vars.length)
    (children : ∀ c ∈ b.children, Proper c) : Proper b

theorem proper_single (v : Var) : (single v).Proper := by
  constructor <;> intro c hc <;> cases hc

/-- At most one block of a row or within one has given variables, if this is so for each of them. -/
theorem countP_innerAll_le_one {vs : List Var} (hvs : vs ≠ []) (hneat : ∀ b ∈ row, b.Neat)
    (hrow : (row.flatMap (·.vars)).Nodup)
    (hone : ∀ b ∈ row, (b :: b.inner).countP (fun d => d.vars.isPerm vs) ≤ 1) :
    (innerAll row).countP (fun d => d.vars.isPerm vs) ≤ 1 := by
  induction row with
  | nil => exact Nat.zero_le _
  | cons b row ih =>
    obtain ⟨hb, hneat⟩ := List.forall_mem_cons.mp hneat
    obtain ⟨hbone, hone⟩ := List.forall_mem_cons.mp hone
    rw [List.flatMap_cons] at hrow
    obtain ⟨-, hrow, hdisjoint⟩ := List.nodup_append'.mp hrow
    rw [innerAll, ← List.cons_append, List.countP_append]
    by_cases hzero : (b :: b.inner).countP (fun d => d.vars.isPerm vs) = 0
    · rw [hzero, Nat.zero_add]
      exact ih hneat hrow hone
    · -- The variables are in this block, so in no other one of the row.
      obtain ⟨d, hd, hperm⟩ := List.countP_pos_iff.mp (Nat.pos_of_ne_zero hzero)
      obtain ⟨v, hv⟩ := List.exists_mem_of_ne_nil _ hvs
      have hvb : v ∈ b.vars := by
        have hvd := (List.isPerm_iff.mp hperm).mem_iff.mpr hv
        rcases List.mem_cons.mp hd with rfl | hd
        · exact hvd
        · obtain ⟨c, hc, hwithin⟩ := within_of_mem_inner hd
          exact (hb.isInfix ((Within.child .refl hc).trans hwithin)).subset hvd
      have hrest : (innerAll row).countP (fun d => d.vars.isPerm vs) = 0 := by
        rw [List.countP_eq_zero]
        intro e he hperm
        obtain ⟨c, hc, hwithin⟩ := within_of_mem_innerAll he
        have hvc := ((hneat c hc).isInfix hwithin).subset ((List.isPerm_iff.mp hperm).mem_iff.mpr hv)
        exact hdisjoint hvb (List.mem_flatMap.mpr ⟨c, hc, hvc⟩)
      rw [hrest, Nat.add_zero]
      exact hbone

/-- No two blocks of a proper block have the same variables. -/
theorem Proper.countP_le_one (h : b.Proper) (hb : b.Neat) (hnodup : b.vars.Nodup) {vs : List Var}
    (hvs : vs ≠ []) : (b :: b.inner).countP (fun d => d.vars.isPerm vs) ≤ 1 := by
  induction h with
  | @mk b smaller children ih =>
    by_cases hperm : b.vars.isPerm vs = true
    · -- The blocks within have fewer variables.
      have hinner : b.inner.countP (fun d => d.vars.isPerm vs) = 0 := by
        rw [List.countP_eq_zero]
        intro d hd hperm'
        obtain ⟨c, hc, hwithin⟩ := within_of_mem_inner hd
        have hle := ((hb.child hc).isInfix hwithin).length_le
        have hlt := smaller c hc
        have heq := (List.isPerm_iff.mp hperm).length_eq
        have heq' := (List.isPerm_iff.mp hperm').length_eq
        omega
      rw [List.countP_cons, hinner, if_pos hperm]
    · rw [List.countP_cons, if_neg hperm, Nat.add_zero, inner_eq]
      by_cases hnil : b.children = []
      · rw [hnil]
        exact Nat.zero_le _
      · have hvars := hb.vars hnil
        refine countP_innerAll_le_one hvs (fun c hc => hb.child hc) (hvars ▸ hnodup) fun c hc => ?_
        refine ih c hc (hb.child hc) (hnodup.sublist ?_)
        exact (hb.isInfix (.child .refl hc)).sublist

end Block

/-! ### The configured blocks in the layout -/

namespace VarBlock

/-- The variables of the range of a block. -/
def vars (b : VarBlock) : List Var := List.range' b.first (b.last + 1 - b.first)

/-- Those of some variables that are in none of the blocks of a row. -/
def free (vars : List Var) (bs : List VarBlock) : List Var :=
  vars.filter fun v => !bs.any fun b => b.first ≤ v && v ≤ b.last

theorem mem_vars {b : VarBlock} {v : Var} : v ∈ b.vars ↔ b.Contains v := VarOrder.mem_range_iff

theorem vars_ne_nil {b : VarBlock} (h : b.first ≤ b.last) : b.vars ≠ [] :=
  List.ne_nil_of_mem (mem_vars.mpr ⟨Nat.le_refl _, h⟩)

theorem mem_free {vars : List Var} {bs : List VarBlock} {v : Var} :
    v ∈ free vars bs ↔ v ∈ vars ∧ ∀ b ∈ bs, ¬ b.Contains v := by
  simp [free, Contains]

end VarBlock

/-- A block has the configured blocks of a forest at every depth within it.  Each configured block `b` is
the image `image b`: it is there once, with its variables and its flag, and its members are the images
of the blocks within `b` and the other variables of `b`, each on its own. -/
structure VarForest.LaidOut (forest : VarForest) (order : VarOrder) (root : Block)
    (image : VarBlock → Block) : Prop where
  once : ∀ b, forest.Holds b → root.inner.filter (fun d => d.vars.isPerm b.vars) = [image b]
  fixed : ∀ b, forest.Holds b → (image b).fixed = b.fixed
  leaf : ∀ b, forest.Holds b → b.children = [] → (image b).children = []
  members : ∀ b, forest.Holds b → b.children ≠ [] → (image b).children.Perm
    (b.children.map image ++ (VarBlock.free b.vars b.children).map Block.single)
  top : root.children.Perm
    (forest.map image ++ (VarBlock.free order.toList forest).map Block.single)

namespace Block

variable {row : List Block} {order : VarOrder} {forest : VarForest} {b c : VarBlock} {d : Block}

/-- A row of members consists of the images of configured blocks and of the other variables, if it holds
all these images and otherwise single variables. -/
theorem perm_members {bs : List VarBlock} {image : VarBlock → Block} {vars : List Var}
    (hneat : ∀ d ∈ row, d.Neat) (hvars : (row.flatMap (·.vars)).Perm vars) (hnodup : vars.Nodup)
    (hrow : ∀ d ∈ row, (∃ c ∈ bs, d = image c) ∨ ∃ v, d = single v)
    (himage : ∀ c ∈ bs, image c ∈ row ∧ (image c).vars.Perm c.vars)
    (hbs : VarForest.Nested bs) :
    row.Perm (bs.map image ++ (VarBlock.free vars bs).map single) := by
  have hflat : (row.flatMap (·.vars)).Nodup := hvars.nodup_iff.mpr hnodup
  have hmem : ∀ {c v}, c ∈ bs → (v ∈ (image c).vars ↔ c.Contains v) :=
    fun hc => (himage _ hc).2.mem_iff.trans VarBlock.mem_vars
  have hfirst : ∀ {c}, c ∈ bs → c.first ∈ (image c).vars :=
    fun hc => (hmem hc).mpr ⟨Nat.le_refl _, (hbs.block _ hc).range⟩
  refine (List.perm_ext_iff_of_nodup (nodup_row hflat fun d hd => (hneat d hd).nonempty) ?_).mpr ?_
  · refine List.nodup_append'.mpr ⟨?_, ?_, ?_⟩
    · refine List.pairwise_map.mpr (hbs.apart.imp_of_mem fun {b c} hb hc hapart heq => ?_)
      have hcontains := (hmem hc).mp (heq ▸ hfirst hb)
      have hrange := (hbs.block b hb).range
      obtain ⟨hge, hle⟩ := hcontains
      rcases hapart with h | h <;> lia
    · refine (hnodup.filter _).map fun v w heq => ?_
      injection heq with hvars
      exact (List.cons.inj hvars).1
    · intro d hd hd'
      obtain ⟨c, hc, rfl⟩ := List.mem_map.mp hd
      obtain ⟨v, hv, heq⟩ := List.mem_map.mp hd'
      refine (VarBlock.mem_free.mp hv).2 c hc ((hmem hc).mp ?_)
      rw [← heq]
      exact List.mem_singleton_self v
  · intro d
    rw [List.mem_append, List.mem_map, List.mem_map]
    constructor
    · intro hd
      rcases hrow d hd with ⟨c, hc, rfl⟩ | ⟨v, rfl⟩
      · exact .inl ⟨c, hc, rfl⟩
      · -- A variable of a configured block does not stand on its own as well.
        by_cases hfree : ∀ c ∈ bs, ¬ c.Contains v
        · refine .inr ⟨v, VarBlock.mem_free.mpr ⟨hvars.mem_iff.mp ?_, hfree⟩, rfl⟩
          exact List.mem_flatMap.mpr ⟨_, hd, List.mem_singleton_self v⟩
        · push Not at hfree
          obtain ⟨c, hc, hcontains⟩ := hfree
          exact .inl ⟨c, hc, eq_of_common_var hflat (himage c hc).1 hd ((hmem hc).mpr hcontains)
            (List.mem_singleton_self v)⟩
    · rintro (⟨c, hc, rfl⟩ | ⟨v, hv, rfl⟩)
      · exact (himage c hc).1
      · obtain ⟨hv, hfree⟩ := VarBlock.mem_free.mp hv
        obtain ⟨d, hd, hvd⟩ := List.mem_flatMap.mp (hvars.mem_iff.mpr hv)
        rcases hrow d hd with ⟨c, hc, rfl⟩ | ⟨w, rfl⟩
        · exact absurd ((hmem hc).mp hvd) (hfree c hc)
        · obtain rfl := List.mem_singleton.mp hvd
          exact hd

end Block

theorem Block.children_layout_of_size_eq_zero {order : VarOrder} {forest : VarForest}
    (h : order.size = 0) : (layout forest order).children = [] := by
  show fill order (List.range order.size) 0 _ = []
  rw [h]
  rfl

section Gathered

variable {order : VarOrder} {forest : VarForest} {b c : VarBlock} {d : Block}

theorem VarForest.Laminar.holds (h : forest.Laminar) (hb : forest.Holds b) : b.Laminar := by
  induction hb with
  | top hb => exact h.block _ hb
  | within _ hc ih => exact ih.children.block _ hc

/-- A block within another one has fewer variables. -/
theorem VarBlock.Laminar.length_vars_lt (h : b.Laminar) (hc : c ∈ b.children) :
    0 < c.vars.length ∧ c.vars.length < b.vars.length := by
  obtain ⟨⟨hfirst, hlast⟩, hne⟩ := h.encloses hc
  have hrange := (h.children.block c hc).range
  simp only [vars, List.length_range']
  constructor
  · lia
  · by_contra hge
    exact hne ⟨by lia, by lia⟩

namespace Block

/-- Without variables there is no configured block that could stand anywhere. -/
theorem not_holds_of_size_eq_zero (hf : forest.Laminar) (hzero : order.size = 0)
    (hblocks : ∀ b, forest.Holds b → order.Gathered b.first b.last) : ¬ forest.Holds b := by
  intro hb
  obtain ⟨vars, hperm, hside⟩ := hblocks b hb
  rw [show order.toList = [] from List.eq_nil_of_length_eq_zero hzero, List.infix_nil] at hside
  subst hside
  exact VarBlock.vars_ne_nil (hf.holds hb).range hperm.symm.eq_nil

variable (hf : forest.Laminar) (ho : order.Valid)
  (hblocks : ∀ b, forest.Holds b → order.Gathered b.first b.last)

include hf ho hblocks

theorem perm_vars_ofVarBlock (hb : forest.Holds b) :
    (ofVarBlock order b).block.vars.Perm b.vars := perm_ofVarBlock hf.nested ho hblocks hb

/-- The image of a configured block is proper, because the blocks within that one are proper parts. -/
theorem proper_ofVarBlock (hb : forest.Holds b) : (ofVarBlock order b).block.Proper := by
  have hlength : ∀ {b}, forest.Holds b → (ofVarBlock order b).block.vars.length = b.vars.length :=
    fun hb => (perm_vars_ofVarBlock hf ho hblocks hb).length_eq
  have hl := hf.holds hb
  induction hl with
  | @mk b range sorted encloses children ih =>
    have hl : b.Laminar := ⟨range, sorted, encloses, children⟩
    constructor
    · intro d hd
      rw [hlength hb]
      have hne : b.children ≠ [] := by
        intro hnil
        rw [children_ofVarBlock, if_pos hnil] at hd
        cases hd
      rcases of_mem_children hd with ⟨c, hc, rfl⟩ | ⟨v, rfl⟩
      · rw [hlength (hb.within hc)]
        exact (hl.length_vars_lt hc).2
      · -- There is a block within, so there are at least two variables.
        obtain ⟨c, hc⟩ := List.exists_mem_of_ne_nil _ hne
        obtain ⟨hpos, hlt⟩ := hl.length_vars_lt hc
        exact Nat.lt_of_le_of_lt hpos hlt
    · intro d hd
      rcases of_mem_children hd with ⟨c, hc, rfl⟩ | ⟨v, rfl⟩
      · exact ih c hc (hb.within hc)
      · exact proper_single v

theorem mem_inner_layout (hb : forest.Holds b) :
    (ofVarBlock order b).block ∈ (layout forest order).inner := by
  induction hb with
  | top hb =>
    rw [inner_eq]
    exact mem_innerAll (mem_children_layout hf.nested ho hblocks hb) (.inl rfl)
  | within hb hc ih => exact mem_inner_of_child ih (mem_children_ofVarBlock hf.nested ho hblocks hb hc)

/-- No other block of the layout has the variables of a configured one. -/
theorem filter_inner_layout (hpos : 0 < order.size) (hb : forest.Holds b) :
    (layout forest order).inner.filter (fun d => d.vars.isPerm b.vars) =
      [(ofVarBlock order b).block] := by
  obtain ⟨hvars, hneat⟩ := neat_members_layout hf.nested ho hpos
  have hnodup : ((layout forest order).children.flatMap (·.vars)).Nodup := hvars ▸ ho.nodup_toList
  have hne := VarBlock.vars_ne_nil (hf.holds hb).range
  refine eq_singleton_of_mem ?_ (List.mem_filter.mpr ⟨mem_inner_layout hf ho hblocks hb,
    List.isPerm_iff.mpr (perm_vars_ofVarBlock hf ho hblocks hb)⟩)
  rw [← List.countP_eq_length_filter, inner_eq]
  refine countP_innerAll_le_one hne hneat hnodup fun d hd => ?_
  have hproper : d.Proper := by
    rcases of_mem_layout hd with ⟨c, hc, rfl⟩ | ⟨v, rfl⟩
    · exact proper_ofVarBlock hf ho hblocks (.top hc)
    · exact proper_single v
  exact hproper.countP_le_one (hneat d hd) ((List.nodup_flatMap.mp hnodup).1 d hd) hne

/-- The members of the image of a configured block. -/
theorem perm_children_ofVarBlock (hpos : 0 < order.size) (hb : forest.Holds b)
    (hne : b.children ≠ []) : (ofVarBlock order b).block.children.Perm
      (b.children.map (fun c => (ofVarBlock order c).block) ++
        (VarBlock.free b.vars b.children).map single) := by
  have hneat := (neat_layout hf.nested ho hpos).within (within_layout hf.nested ho hblocks hb)
  have hmember : ∀ c ∈ b.children, (ofVarBlock order c).block ∈ (ofVarBlock order b).block.children :=
    fun c hc => mem_children_ofVarBlock hf.nested ho hblocks hb hc
  obtain ⟨c, hc⟩ := List.exists_mem_of_ne_nil _ hne
  have hvars := hneat.vars (List.ne_nil_of_mem (hmember c hc))
  refine perm_members (fun d hd => hneat.child hd) ?_ List.nodup_range'
    (fun d hd => of_mem_children hd) (fun c hc => ⟨hmember c hc, ?_⟩) (hf.holds hb).children.nested
  · rw [hvars]
    exact perm_vars_ofVarBlock hf ho hblocks hb
  · exact perm_vars_ofVarBlock hf ho hblocks (hb.within hc)

/-- The members of the layout. -/
theorem perm_children_layout (hpos : 0 < order.size) : (layout forest order).children.Perm
    (forest.map (fun c => (ofVarBlock order c).block) ++
      (VarBlock.free order.toList forest).map single) := by
  obtain ⟨hvars, hneat⟩ := neat_members_layout hf.nested ho hpos
  refine perm_members hneat (hvars ▸ .refl _) ho.nodup_toList (fun d hd => of_mem_layout hd)
    (fun c hc => ⟨?_, ?_⟩) hf.nested
  · exact mem_children_layout hf.nested ho hblocks hc
  · exact perm_vars_ofVarBlock hf ho hblocks (.top hc)

/-- If each configured block stands at consecutive levels, then the layout is made of their images and
of the variables between them. -/
theorem laidOut_layout :
    forest.LaidOut order (layout forest order) fun b => (ofVarBlock order b).block := by
  have leaf : ∀ b : VarBlock, b.children = [] → (ofVarBlock order b).block.children = [] := by
    intro b hnil
    rw [children_ofVarBlock, if_pos hnil]
  rcases Nat.eq_zero_or_pos order.size with hzero | hpos
  · have hnone := fun b => not_holds_of_size_eq_zero (b := b) hf hzero hblocks
    have hforest : forest = [] := List.eq_nil_iff_forall_not_mem.mpr fun b hb => hnone b (.top hb)
    have hnil : order.toList = [] := List.eq_nil_of_length_eq_zero hzero
    refine ⟨fun b hb => absurd hb (hnone b), fun b _ => fixed_ofVarBlock b, fun b _ => leaf b,
      fun b hb => absurd hb (hnone b), ?_⟩
    rw [hforest, hnil, children_layout_of_size_eq_zero hzero]
    exact .refl _
  · exact ⟨fun b hb => filter_inner_layout hf ho hblocks hpos hb, fun b _ => fixed_ofVarBlock b,
      fun b _ => leaf b, fun b hb hne => perm_children_ofVarBlock hf ho hblocks hpos hb hne,
      perm_children_layout hf ho hblocks hpos⟩

end Block

end Gathered

/-! ### The whole layout -/

/-- A block covers an order: its variables are those of the order, those of its members, and at every
depth within it those of a block with members are those of the members, side by side in the order.  So
its leaves have each variable once. -/
structure Block.Covers (order : VarOrder) (root : Block) : Prop where
  vars : root.vars = order.toList
  members : root.children.flatMap (·.vars) = root.vars
  within : ∀ d, root.Within d → d.children ≠ [] → d.children.flatMap (·.vars) = d.vars
  side : ∀ d, root.Within d → d.vars <:+: order.toList
  leaves : root.leaves.flatMap (·.vars) = order.toList
  once : ∀ v, v < order.size → (root.leaves.flatMap (·.vars)).count v = 1

namespace Block

variable {order : VarOrder} {forest : VarForest}

theorem covers_layout (hf : forest.Laminar) (ho : order.Valid) :
    (layout forest order).Covers order := by
  rcases Nat.eq_zero_or_pos order.size with hzero | hpos
  · -- Without variables there are no members either.
    have hnil : order.toList = [] := List.eq_nil_of_length_eq_zero hzero
    have hchildren : (layout forest order).children = [] := children_layout_of_size_eq_zero hzero
    have hself : ∀ d, (layout forest order).Within d → d = layout forest order := by
      intro d hd
      induction hd with
      | refl => rfl
      | child _ hc ih =>
        rw [ih, hchildren] at hc
        cases hc
    have hleaves : (layout forest order).leaves.flatMap (·.vars) = order.toList :=
      flatMap_leaves_of_nil hchildren
    refine ⟨rfl, ?_, fun d hd hne => ?_, fun d hd => ?_, hleaves, fun v hv => ?_⟩
    · rw [hchildren]
      exact hnil.symm
    · rw [hself d hd] at hne
      exact absurd hchildren hne
    · rw [hself d hd]
      exact List.infix_rfl
    · rw [hzero] at hv
      cases hv
  · have hneat := neat_layout hf.nested ho hpos
    have hleaves : (layout forest order).leaves.flatMap (·.vars) = order.toList :=
      hneat.flatMap_leaves
    refine ⟨rfl, (neat_members_layout hf.nested ho hpos).1, fun d hd => (hneat.within hd).vars,
      fun d hd => hneat.isInfix hd, hleaves, fun v hv => ?_⟩
    rw [hleaves]
    exact List.count_eq_one_of_mem ho.nodup_toList (ho.mem_toList.mpr hv)

/-- The layout of a laminar forest covers the order, wherever the configured blocks stand.  If each of
them stands at consecutive levels, then it is in the layout once, as it is in the forest. -/
theorem layout_covers (hf : forest.Laminar) (ho : order.Valid) :
    (layout forest order).Covers order ∧
      ((∀ b, forest.Holds b → order.Gathered b.first b.last) →
        ∃ image, forest.LaidOut order (layout forest order) image) :=
  ⟨covers_layout hf ho, fun hblocks => ⟨_, laidOut_layout hf ho hblocks⟩⟩

/-- A fixed block of three variables stands below the fourth one, with a block of two in it that have
changed places. -/
theorem layout_covers_nested : ∃ (forest : VarForest) (order : VarOrder) (image : VarBlock → Block),
    forest = [⟨0, 2, true, [⟨0, 1, false, []⟩]⟩] ∧ order.toList = [3, 1, 0, 2] ∧
      (layout forest order).Covers order ∧ forest.LaidOut order (layout forest order) image := by
  let inside : VarBlock := ⟨0, 1, false, []⟩
  let block : VarBlock := ⟨0, 2, true, [inside]⟩
  let order : VarOrder := ⟨#[2, 1, 3, 0], #[3, 1, 0, 2]⟩
  have hinside : inside.Laminar := by
    refine ⟨by decide, List.Pairwise.nil, fun c hc => ?_, fun c hc => ?_⟩ <;> cases hc
  have hblock : block.Laminar := by
    refine ⟨by decide, List.pairwise_singleton _ _, fun c hc => ?_, fun c hc => ?_⟩ <;>
      obtain rfl := List.mem_singleton.mp hc
    · exact ⟨by decide, by decide⟩
    · exact hinside
  have hforest : VarForest.Laminar [block] := by
    refine ⟨List.pairwise_singleton _ _, fun b hb => ?_⟩
    obtain rfl := List.mem_singleton.mp hb
    exact hblock
  have horder : order.Valid := by
    have hlevel : ∀ l : Fin 4, order.levelOf[order.varAt[l]]? = some l.val := by decide
    have hvar : ∀ v : Fin 4, order.varAt[order.levelOf[v]]? = some v.val := by decide
    refine ⟨rfl, fun {l v} h => ?_, fun {v l} h => ?_⟩
    · obtain ⟨hl, rfl⟩ := Array.getElem?_eq_some_iff.mp h
      exact hlevel ⟨l, hl⟩
    · obtain ⟨hv, rfl⟩ := Array.getElem?_eq_some_iff.mp h
      exact hvar ⟨v, hv⟩
  have hblocks : ∀ b, VarForest.Holds [block] b → b = block ∨ b = inside := by
    intro b hb
    induction hb with
    | top hb => exact .inl (List.mem_singleton.mp hb)
    | within _ hc ih =>
      rcases ih with rfl | rfl
      · exact .inr (List.mem_singleton.mp hc)
      · cases hc
  obtain ⟨hcovers, hlaid⟩ := layout_covers hforest horder
  obtain ⟨image, himage⟩ := hlaid fun b hb => by
    rcases hblocks b hb with rfl | rfl
    · exact ⟨[1, 0, 2], by decide, [3], [], rfl⟩
    · exact ⟨[1, 0], by decide, [3], [2], rfl⟩
  exact ⟨[block], order, image, rfl, rfl, hcovers, himage⟩

-- A block that is torn apart takes in what stands between its variables.
example : (layout [⟨0, 1, false, []⟩] ⟨#[1, 3, 2, 0], #[3, 0, 2, 1]⟩).leaves.map (·.vars) =
    [[3], [0, 2, 1]] := by cbv

end Block

end DecisionDiagram
