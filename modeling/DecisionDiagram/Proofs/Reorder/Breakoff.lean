/-
Where a search breaks off.

All that a search does to a row is to exchange two adjacent blocks, again and again.  So when there is no
room for a move, one such exchange is under way, and the other blocks stand in some order.

* `Reordering.Shuffles` — work on a row that permutes its blocks, or breaks off in an exchange;
* `Shuffles.bind`, `.size`, `.look` — work that is put together from such work;
* `Shuffles.permute` — all methods are of this kind;
* `Block.Torn` — what is left of the variables of a block when the work within it has broken off;
* `Ensures.reorderAll` — a search that breaks off leaves this of the blocks that it started with.
-/
import DecisionDiagram.Proofs.Reorder.Improvement

namespace DecisionDiagram

open Session (Lays Broken)

theorem Session.Broken.perm {A B : List Var} {blocks blocks' : List Block} {s : Session}
    (h : Broken A blocks B s) (hp : blocks.Perm blocks') : Broken A blocks' B s := by
  obtain ⟨X, upper, lower, Y, vars, hperm, hmid, ho⟩ := h
  exact ⟨X, upper, lower, Y, vars, hperm.trans hp, hmid, ho⟩

namespace Reordering

variable {α β : Type} {A B : List Var} {row : Array Block} {s : Session} {i n : Nat} {up : Bool}
  {rowOf : α → Array Block}

/-- The work on a row comes to a row with the same blocks, or it breaks off in an exchange of two of
them. -/
def Shuffles (A : List Var) (row : Array Block) (B : List Var) (s : Session) (x : Reordering α)
    (rowOf : α → Array Block) : Prop :=
  Ensures s x (fun a s' => (rowOf a).toList.Perm row.toList ∧ s'.Lays A (rowOf a) B)
    (Broken A row.toList B)

/-! ### Rules -/

theorem Shuffles.pure {a : α} (hl : s.Lays A (rowOf a) B) :
    Shuffles A (rowOf a) B s (Pure.pure a) rowOf := Ensures.pure ⟨.refl _, hl⟩

theorem Shuffles.bind {x : Reordering α} {f : α → Reordering β} {rowOf' : β → Array Block}
    (h : Shuffles A row B s x rowOf)
    (hf : ∀ a s', s'.Lays A (rowOf a) B → Shuffles A (rowOf a) B s' (f a) rowOf') :
    Shuffles A row B s (x >>= f) rowOf' :=
  Ensures.bind h fun a s' ⟨hp, hl⟩ => (hf a s' hl).mono (fun _ _ h => ⟨h.1.trans hp, h.2⟩)
    fun _ hb => hb.perm hp

theorem Shuffles.size {k : Nat → Reordering α} (h : Shuffles A row B s (k s.size) rowOf) :
    Shuffles A row B s (Reordering.size >>= k) rowOf := h

/-- Work that looks at the session only comes before other work. -/
theorem Shuffles.look {x : Reordering β} {f : β → Reordering α} (hq : Quiet x)
    (hf : ∀ b, Shuffles A row B s (f b) rowOf) : Shuffles A row B s (x >>= f) rowOf := by
  refine Ensures.bind ((hq s).mono (fun _ _ h => h) fun _ h => h.elim) fun b s' h => ?_
  obtain rfl := h
  exact hf b

theorem Shuffles.foldlM {f : Array Block → β → Reordering (Array Block)}
    (hf : ∀ (row : Array Block) (b : β) (s : Session), s.Lays A row B → Shuffles A row B s (f row b) id)
    (l : List β) (hl : s.Lays A row B) : Shuffles A row B s (l.foldlM f row) id := by
  induction l generalizing row s with
  | nil => exact .pure hl
  | cons b l ih =>
    rw [List.foldlM_cons]
    exact (hf row b s hl).bind fun _ _ hl => ih hl

/-! ### Windows -/

theorem Shuffles.blockDown (hl : s.Lays A row B) (i : Nat) :
    Shuffles A row B s (blockDown i row) id := by
  refine (Ensures.blockDown hl i).mono (fun row' s' h => ?_) fun _ h => h
  obtain ⟨-, rfl, hl'⟩ := h
  exact ⟨swapIfInBounds_perm row i (i + 1), hl'⟩

theorem Shuffles.blocksDown (steps : List Nat) (hl : s.Lays A row B) :
    Shuffles A row B s (blocksDown steps row) id := by
  induction steps generalizing row s with
  | nil => exact .pure hl
  | cons i steps ih => exact (Shuffles.blockDown hl i).bind fun _ _ hl => ih hl

theorem Shuffles.win2 (hl : s.Lays A row B) : Shuffles A row B s (win2 row) id := by
  refine .foldlM (fun row i s hl => ?_) _ hl
  refine .size ((Shuffles.blockDown hl i).bind fun row s hl => .size ?_)
  split
  · exact .blockDown hl i
  · exact .pure hl

theorem Shuffles.visit (offsets : List Nat) (taken best bestStep : Nat) (hl : s.Lays A row B) :
    Shuffles A row B s (visit i offsets taken best bestStep row) Prod.snd := by
  induction offsets generalizing taken best bestStep row s with
  | nil => exact .pure hl
  | cons offset offsets ih =>
    refine (Shuffles.blockDown hl (i + offset)).bind fun row s hl => .size ?_
    split
    · exact ih _ _ _ hl
    · exact ih _ _ _ hl

theorem Shuffles.win3 (hl : s.Lays A row B) : Shuffles A row B s (win3 row) id := by
  unfold Reordering.win3
  split
  · exact .win2 hl
  · refine .foldlM (fun row i s hl => ?_) _ hl
    exact .size ((Shuffles.visit _ _ _ _ hl).bind fun _ _ hl => .blocksDown _ hl)

/-! ### Sifting -/

variable {σ : Sifting}

theorem Quiet.maxAllowed (best : Nat) : Quiet (maxAllowed best) := by
  intro s
  rw [Ensures, run_maxAllowed]

theorem Shuffles.shift (hl : s.Lays A σ.row B) : Shuffles A σ.row B s (shift up σ) Sifting.row := by
  unfold Reordering.shift
  split
  · exact (Shuffles.blockDown hl _).bind fun _ _ hl => .pure hl
  · exact (Shuffles.blockDown hl _).bind fun _ _ hl => .pure hl

theorem Shuffles.sweep (hl : s.Lays A σ.row B) :
    Shuffles A σ.row B s (sweep up n σ) Sifting.row := by
  induction n generalizing σ s with
  | zero => exact .pure hl
  | succ n ih =>
    -- The way goes on with the block where it is, whatever is remembered of the sizes.
    have next : ∀ (s : Session) (σ : Sifting) (now : Nat), s.Lays A σ.row B → Shuffles A σ.row B s
        (if σ.bound < now then Pure.pure σ else Reordering.sweep up n σ) Sifting.row := by
      intro s σ now hl
      split
      · exact .pure hl
      · exact ih hl
    refine (Shuffles.shift hl).bind fun σ s hl => .size ?_
    dsimp only
    split
    · exact .look (.maxAllowed _) fun bound =>
        next s { σ with best := s.size, bestPos := σ.pos, bound } s.size hl
    · exact next s σ s.size hl

theorem Shuffles.shiftBy (hl : s.Lays A σ.row B) :
    Shuffles A σ.row B s (shiftBy up n σ) Sifting.row := by
  induction n generalizing σ s with
  | zero => exact .pure hl
  | succ n ih => exact (Shuffles.shift hl).bind fun _ _ hl => ih hl

theorem Shuffles.siftBlock (hl : s.Lays A row B) (key : Var) :
    Shuffles A row B s (siftBlock row key) id := by
  unfold Reordering.siftBlock
  split
  · exact .pure hl
  · refine .size (.look (.maxAllowed _) fun bound => ?_)
    have first : ∀ {up : Bool} {n pos : Nat}, Shuffles A row B s
        (Reordering.sweep up n ⟨row, pos, s.size, pos, bound⟩) Sifting.row := Shuffles.sweep hl
    refine first.bind fun _ _ hl => (Shuffles.sweep hl).bind fun _ _ hl => ?_
    exact (Shuffles.shiftBy hl).bind fun _ _ hl => (Shuffles.shiftBy hl).bind fun _ _ hl => .pure hl

theorem Shuffles.sift (hl : s.Lays A row B) : Shuffles A row B s (sift row) id :=
  .look (.mapM .weigh _) fun _ => .foldlM (fun _ key _ hl => .siftBlock hl key) _ hl

/-! ### Methods -/

theorem Shuffles.repeatWhile {pass : Array Block → Reordering (Array Block)}
    (hpass : ∀ {row s}, Lays A row B s → Shuffles A row B s (pass row) id) (hl : s.Lays A row B) :
    Shuffles A row B s (repeatWhile pass n row) id := by
  induction n generalizing row s with
  | zero => exact Ensures.fault
  | succ n ih =>
    refine .size ((hpass hl).bind fun row s hl => .size ?_)
    split
    · exact .pure hl
    · exact ih hl

theorem Shuffles.permute (method : ReorderMethod) (hl : s.Lays A row B) :
    Shuffles A row B s (permute method row) id := by
  cases method with
  | off => exact .pure hl
  | win2 => exact .win2 hl
  | win2ite => exact .repeatWhile .win2 hl
  | win3 => exact .win3 hl
  | win3ite => exact .repeatWhile .win3 hl
  | sift => exact .sift hl
  | siftite => exact .repeatWhile .sift hl

end Reordering

/-! ### Blocks within blocks -/

/-- What is left of the variables of a block when the work within it breaks off in the exchange of two
blocks: these are members of the block itself, or of one of its members; then the members before that one
have been rearranged already. -/
inductive Block.Torn (upper lower : Block) : Block → List Var → Prop
  | row {b : Block} {X Y : List Block} {vars : List Var}
    (perm : (X ++ upper :: lower :: Y).Perm b.children) (midway : Midway upper.vars lower.vars vars) :
    Torn upper lower b (X.flatMap (·.vars) ++ vars ++ Y.flatMap (·.vars))
  | member {b c : Block} {X X' Y : List Block} {vars : List Var} (perm : (X ++ c :: Y).Perm b.children)
    (before : List.Forall₂ Block.Rearranged X X') (torn : Torn upper lower c vars) :
    Torn upper lower b (X'.flatMap (·.vars) ++ vars ++ Y.flatMap (·.vars))

/-- In the session, the work within a block has broken off. -/
def Session.Tears (A : List Var) (b : Block) (B : List Var) (s : Session) : Prop :=
  ∃ upper lower vars, Block.Torn upper lower b vars ∧ s.manager.order.toList = A ++ vars ++ B

namespace Reordering

open Session (Tears)

variable {A B : List Var} {b : Block} {s : Session} {n : Nat}

theorem Ensures.of_ok {α : Type} {x : Reordering α} {Q : α → Session → Prop} {E : Session → Prop}
    (h : Ensures s x (fun _ _ => True) E) (hok : ∀ a s', x s = .ok a s' → Q a s') :
    Ensures s x Q E := by
  rcases hx : x s with ⟨a, s'⟩ | ⟨e | _, s'⟩ <;> rw [Ensures, hx] at h ⊢
  · exact hok a s' hx
  · exact h
  · trivial

/-- The work on the members of a row breaks off in one of them.  Those before are done, and nothing has
happened to those after. -/
theorem Ensures.mapM_tears {f : Block → Reordering Block} {blocks : List Block}
    (hf : ∀ b ∈ blocks, ∀ (A B : List Var) (s : Session), s.Lays A #[b] B →
      Ensures s (f b) (fun b' s' => s'.Lays A #[b'] B ∧ b.Rearranged b') (Tears A b B))
    (hl : s.Lays A blocks.toArray B) :
    Ensures s (blocks.mapM f) (fun _ _ => True) fun s' => ∃ X c Y X' upper lower vars,
      blocks = X ++ c :: Y ∧ List.Forall₂ Block.Rearranged X X' ∧ Block.Torn upper lower c vars ∧
      s'.manager.order.toList = A ++ (X'.flatMap (·.vars) ++ vars ++ Y.flatMap (·.vars)) ++ B := by
  induction blocks generalizing A s with
  | nil => exact Ensures.pure trivial
  | cons b blocks ih =>
    obtain ⟨hb, hblocks⟩ := List.forall_mem_cons.mp hf
    rw [List.mapM_cons]
    have hstart : s.Lays A #[b] (blocks.flatMap (·.vars) ++ B) :=
      ⟨hl.sound, by rw [hl.order]; simp⟩
    refine ((hb _ _ _ hstart).mono (fun _ _ h => h) ?_).bind fun b' s₁ h => ?_
    · rintro s' ⟨upper, lower, vars, htorn, ho⟩
      exact ⟨[], b, blocks, [], upper, lower, vars, rfl, .nil, htorn, by rw [ho]; simp⟩
    · have hnext : s₁.Lays (A ++ b'.vars) blocks.toArray B := ⟨h.1.sound, by rw [h.1.order]; simp⟩
      refine ((ih hblocks hnext).mono (fun _ _ h => h) ?_).bind fun _ _ _ => .pure trivial
      rintro s' ⟨X, c, Y, X', upper, lower, vars, rfl, hX, htorn, ho⟩
      exact ⟨b :: X, c, Y, b' :: X', upper, lower, vars, rfl, .cons h.2 hX, htorn, by rw [ho]; simp⟩

theorem Ensures.reorderBlock (method : ReorderMethod) (hb : b.Neat) (hl : s.Lays A #[b] B) :
    Ensures s (reorderBlock method n b) (fun _ _ => True) (Tears A b B) := by
  induction n generalizing A B b s with
  | zero => exact .fault
  | succ n ih =>
    have within : ∀ {row : List Block} {s₁ : Session}, row.Perm b.children → s₁.Lays A row.toArray B →
        Ensures s₁ (row.mapM (Reordering.reorderBlock method n) >>= fun children =>
          (Pure.pure { b with children }.refresh : Reordering Block)) (fun _ _ => True)
          (Tears A b B) := by
      intro row s₁ hperm hl₁
      refine ((Ensures.mapM_tears (fun c hc A B s hl => ?_) hl₁).mono (fun _ _ h => h) ?_).bind
        fun _ _ _ => .pure trivial
      · have hc := hb.child (hperm.mem_iff.mp hc)
        exact (ih hc hl).of_ok fun b' s' h => (hl.reorderBlock_shrinks hc h).2
      · rintro s' ⟨X, c, Y, X', upper, lower, vars, rfl, hX, htorn, ho⟩
        exact ⟨upper, lower, _, .member hperm hX htorn, ho⟩
    rw [Reordering.reorderBlock]
    by_cases hempty : b.children = []
    · rw [if_neg (by simp [hempty]), hempty]
      exact Ensures.pure trivial
    · have hl₁ : s.Lays A b.children.toArray B :=
        ⟨hl.sound, by rw [hl.order]; simp [hb.vars hempty]⟩
      split
      · refine Ensures.bind (Ensures.mono (Shuffles.permute method hl₁) (fun _ _ h => h) ?_)
          fun row s₁ h => within h.1 h.2
        rintro s' ⟨X, upper, lower, Y, vars, hperm, hmid, ho⟩
        exact ⟨upper, lower, _, .row hperm hmid, by rw [ho]; simp⟩
      · exact within (.refl _) hl₁

/-- A search that breaks off has left the blocks that it started with in the middle of an exchange. -/
theorem Ensures.reorderAll (method : ReorderMethod) (hs : s.Sound) (hf : s.manager.forest.Nested) :
    Ensures s (reorderAll method) (fun _ _ => True)
      (Tears [] (Block.layout s.manager.forest s.manager.order) []) := by
  refine .get ?_
  dsimp only
  split
  · rename_i hsearch
    rw [Bool.and_eq_true, decide_eq_true_eq] at hsearch
    have hl : s.Lays [] #[Block.layout s.manager.forest s.manager.order] [] := ⟨hs, by
      simp [Block.layout]⟩
    have hneat := Block.neat_layout hf hs.order (Nat.lt_trans Nat.zero_lt_one hsearch.2)
    exact (Ensures.reorderBlock method hneat hl).bind fun _ _ _ => .pure trivial
  · exact .pure trivial

end Reordering

end DecisionDiagram
