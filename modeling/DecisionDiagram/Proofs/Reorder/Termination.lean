/-
Every search for a better order has an answer.

A move of a known variable meets no broken invariant, so a search could only fail to answer if it went on
for ever.  Where a method is repeated until the size stays, each pass that changes the size makes a number
smaller: first count the nodes that a move may still reclaim, then the size.  No pass makes the first
larger, and one that leaves it as it is does not make the diagrams larger either.

* `Reordering.Answers` — the work ends with a result or with an error that is reported;
* `Answers.blockDown` — two adjacent blocks of a row change places;
* `Answering` — a pass over a row that has an answer wherever the row lies;
* `Session.potential`, `Improves.potential_lt` — why a repeated pass comes to an end;
* `Answers.reorderAll` — a search has an answer.
-/
import DecisionDiagram.Proofs.Reorder.Improvement

namespace DecisionDiagram

namespace Session

variable {A B : List Var} {row row' : Array Block} {s s' : Session}

/-- The variables of a row are known. -/
theorem Lays.lt (hl : s.Lays A row B) {b : Block} (hb : b ∈ row) {v : Var} (hv : v ∈ b.vars) :
    v < s.manager.varNum := by
  refine hl.sound.order.mem_toList.mp ?_
  rw [hl.order]
  exact List.mem_append_left _ (List.mem_append_right _
    (List.mem_flatMap.mpr ⟨b, Array.mem_toList_iff.mpr hb, hv⟩))

theorem Improves.size_row (h : Improves A B row row' s s') : row'.size = row.size :=
  h.perm.length_eq

theorem Improves.mem_row (h : Improves A B row row' s s') {b : Block} : b ∈ row' ↔ b ∈ row := by
  rw [← Array.mem_toList_iff, h.perm.mem_iff, Array.mem_toList_iff]

/-! ### What gets smaller -/

/-- The nodes that may still be reclaimed count for more than the size, which has 32 bits. -/
noncomputable def potential (s : Session) : Nat := (2 ^ 32 - 1 - s.holding) * 2 ^ 32 + s.size

theorem Sound.size_lt (hs : s.Sound) : s.size < 2 ^ 32 :=
  Nat.lt_of_le_of_lt (Nat.sub_le _ _) hs.store.small

theorem Sound.holding_le (hs : s.Sound) : s.holding ≤ s.size := by
  rw [holding, size, hs.store.usedCount_eq_ncard]
  exact Set.ncard_le_ncard (fun _ hid => .inr hid.1) hs.store.finite_live

theorem Sound.potential_lt (hs : s.Sound) : s.potential < UInt64.size := by
  have hsize := hs.size_lt
  have hword : UInt64.size = 2 ^ 32 * 2 ^ 32 := rfl
  rw [potential]
  omega

/-- A search that changes the size makes the diagrams smaller, or it saturates a count. -/
theorem Shrinks.potential_lt (h : s.Shrinks s') (hne : s'.size ≠ s.size) :
    s'.potential < s.potential := by
  have hs' := (h.walk.advances h.sound).sound
  have hle := h.walk.holding_le h.sound
  have hsize' := hs'.size_lt
  have hholding' := hs'.holding_le
  have hshrinks := h.le
  rw [potential, potential]
  omega

end Session

namespace Reordering

open Session

variable {α β : Type} {A B : List Var} {row row' : Array Block} {i n : Nat} {v : Var}
  {s s' : Session} {Q : α → Session → Prop} {E : Session → Prop}

/-- The work, done in `s`, has an answer: a result, or an error that is reported. -/
def Answers (s : Session) (x : Reordering α) : Prop := ∀ s', x s ≠ .error .fault s'

/-! ### Rules -/

theorem Achieves.answers {x : Reordering α} (h : Achieves s x Q E) : Answers s x := by
  intro s' hx
  rw [Achieves, hx] at h
  exact h

theorem Answers.pure (a : α) : Answers s (Pure.pure a) := fun _ h => by cases h

theorem Answers.bind {x : Reordering α} {f : α → Reordering β} (hx : Answers s x)
    (hf : ∀ a s', x s = .ok a s' → Answers s' (f a)) : Answers s (x >>= f) := by
  intro s'' h
  rcases hrun : x s with ⟨a, s'⟩ | ⟨e, s'⟩
  · rw [run_bind hrun] at h
    exact hf a s' hrun s'' h
  · rw [run_bind_error hrun] at h
    obtain ⟨rfl, rfl⟩ := EStateM.Result.error.inj h
    exact hx _ hrun

theorem Answers.get {k : Session → Reordering α} (h : Answers s (k s)) :
    Answers s (MonadState.get >>= k) := h

theorem Answers.size {k : Nat → Reordering α} (h : Answers s (k s.size)) :
    Answers s (Reordering.size >>= k) := h

/-- Work that looks at the session only comes before other work. -/
theorem Answers.look {x : Reordering α} {f : α → Reordering β} (hx : Answers s x) (hq : Quiet x)
    (hf : ∀ a, Answers s (f a)) : Answers s (x >>= f) :=
  hx.bind fun a s' h => by
    obtain rfl := hq.eq h
    exact hf a

/-- Walks that begin with the members of a list in turn. -/
theorem Answers.forM {f : α → Reordering Unit} {l : List α} (hwalks : ∀ a, Walks (f a))
    (h : ∀ a ∈ l, ∀ s', s.Walk s' → Answers s' (f a)) : Answers s (l.forM f) := by
  induction l generalizing s with
  | nil => exact .pure _
  | cons a l ih =>
    rw [List.forM_eq_forM, List.forM_cons]
    refine (h a List.mem_cons_self s .refl).bind fun _ s₁ hfirst => ih fun b hb s' hw => ?_
    exact h b (List.mem_cons_of_mem _ hb) s' (((hwalks a).walk hfirst).trans hw)

/-! ### Moves -/

theorem Answers.vardown (hs : s.Sound) (hv : v < s.manager.varNum) : Answers s (vardown v) := by
  obtain ⟨level, hl, -⟩ := hs.order.getD_levelOf hv
  exact (Achieves.vardown hs hl).answers

theorem Answers.moveDown (hs : s.Sound) (hv : v < s.manager.varNum) (n : Nat) :
    Answers s (moveDown v n) := by
  induction n generalizing s with
  | zero => exact .pure _
  | succ n ih =>
    refine (Answers.vardown hs hv).bind fun _ s₁ hmove => ?_
    have ha := ((Guided.move (.down v)).walks.walk hmove).advances hs
    exact ih ha.sound (ha.keeps.varNum ▸ hv)

/-! ### Exchanges of blocks -/

theorem Answers.blockDown (hl : s.Lays A row B) (hi : i + 1 < row.size) :
    Answers s (blockDown i row) := by
  have hupper := Array.getElem?_eq_getElem (Nat.lt_of_succ_lt hi)
  have hlower := Array.getElem?_eq_getElem hi
  unfold Reordering.blockDown
  rw [hupper, hlower]
  refine (Answers.forM (fun v => (Guided.moveDown v _).walks) fun v hv s' hw => ?_).bind
    fun _ _ _ => .pure _
  have ha := hw.advances hl.sound
  refine .moveDown ha.sound ?_ _
  rw [ha.keeps.varNum]
  exact hl.lt (Array.getElem_mem _) (List.mem_reverse.mp hv)

theorem Answers.blocksDown {steps : List Nat} (hl : s.Lays A row B)
    (hsteps : ∀ i ∈ steps, i + 1 < row.size) : Answers s (blocksDown steps row) := by
  induction steps generalizing row s with
  | nil => exact .pure _
  | cons i steps ih =>
    obtain ⟨hi, hsteps⟩ := List.forall_mem_cons.mp hsteps
    refine (Answers.blockDown hl hi).bind fun row' s' h => ?_
    obtain ⟨-, rfl, hl'⟩ := hl.blockDown h
    exact ih hl' fun j hj => by rw [Array.size_swapIfInBounds]; exact hsteps j hj

/-! ### Passes over a row -/

/-- The pass has an answer wherever the row lies, if none of its blocks is empty. -/
def Answering (pass : Array Block → Reordering (Array Block)) : Prop :=
  ∀ (A B : List Var) (row : Array Block) (s : Session), s.Lays A row B → (∀ b ∈ row, b.vars ≠ []) →
    Answers s (pass row)

/-- Passes that begin with the members of a list in turn.  The row keeps its blocks. -/
theorem Answers.foldlM {f : Array Block → α → Reordering (Array Block)} {l : List α}
    (himproving : ∀ a, Improving fun row => f row a) (hl : s.Lays A row B)
    (h : ∀ a ∈ l, ∀ {row' s'}, Improves A B row row' s s' → Answers s' (f row' a)) :
    Answers s (l.foldlM f row) := by
  induction l generalizing row s with
  | nil => exact .pure _
  | cons a l ih =>
    rw [List.foldlM_cons]
    refine (h a List.mem_cons_self (.refl hl)).bind fun row₁ s₁ hfirst => ?_
    have h₁ := himproving a _ _ _ _ _ _ hl hfirst
    exact ih h₁.lays fun b hb _ _ h' => h b (List.mem_cons_of_mem _ hb) (h₁.trans h')

theorem Answers.win2At (hl : s.Lays A row B) (hi : i + 1 < row.size) : Answers s (win2At row i) := by
  refine .size ((Answers.blockDown hl hi).bind fun row' s' h => .size ?_)
  obtain ⟨-, rfl, hl'⟩ := hl.blockDown h
  split
  · exact .blockDown hl' (by rwa [Array.size_swapIfInBounds])
  · exact .pure _

theorem Answers.win2 (hl : s.Lays A row B) : Answers s (win2 row) :=
  .foldlM Improving.win2At hl fun i hi row' s' h => by
    have := h.size_row
    have := List.mem_range.mp hi
    exact .win2At h.lays (by omega)

theorem Answers.visit {offsets : List Nat} {taken best bestStep : Nat} (hl : s.Lays A row B)
    (hoffsets : ∀ offset ∈ offsets, i + offset + 1 < row.size) :
    Answers s (visit i offsets taken best bestStep row) := by
  induction offsets generalizing taken best bestStep row s with
  | nil => exact .pure _
  | cons offset offsets ih =>
    obtain ⟨ho, hoffsets⟩ := List.forall_mem_cons.mp hoffsets
    refine (Answers.blockDown hl ho).bind fun row' s' h => .size ?_
    obtain ⟨-, rfl, hl'⟩ := hl.blockDown h
    rw [← Array.size_swapIfInBounds (i := i + offset) (j := i + offset + 1)] at hoffsets
    split
    · exact ih hl' hoffsets
    · exact ih hl' hoffsets

theorem Answers.win3At (hl : s.Lays A row B) (hi : i + 2 < row.size) : Answers s (win3At row i) := by
  have hsteps : ∀ offset ∈ win3Steps, i + offset + 1 < row.size := by
    intro offset ho
    have hle : ∀ offset ∈ win3Steps, offset ≤ 1 := by decide
    have := hle offset ho
    omega
  refine .size ((Answers.visit hl hsteps).bind fun p s' h => ?_)
  obtain ⟨bestStep, row'⟩ := p
  obtain ⟨rfl, _, hv⟩ := (Visits.start hl).visit h
  refine .blocksDown hv.lays fun j hj => ?_
  obtain ⟨offset, ho, rfl⟩ := List.mem_map.mp hj
  have := hsteps offset (List.mem_of_mem_drop (List.mem_reverse.mp ho))
  have hsize : (stage row i win3Steps win3Steps.length).size = row.size :=
    (exchanges_perm _ row).length_eq
  show i + offset + 1 < (stage row i win3Steps win3Steps.length).size
  omega

theorem Answers.win3 (hl : s.Lays A row B) : Answers s (win3 row) := by
  unfold Reordering.win3
  split
  · exact Answers.win2 hl
  · refine .foldlM Improving.win3At hl fun i hi row' s' h => .win3At h.lays ?_
    have := h.size_row
    have := List.mem_range.mp hi
    omega

/-! ### Sifting -/

variable {others : List Block} {b : Block} {stops : List Stop} {s₀ : Session} {σ : Sifting}
  {up : Bool}

theorem Answers.maxAllowed (best : Nat) : Answers s (maxAllowed best) := by
  intro s' h
  rw [run_maxAllowed] at h
  cases h

theorem Sifts.room_eq (hσ : Sifts s₀ A B others b stops σ s) :
    σ.room up = if up then σ.pos else others.length - σ.pos := by
  rw [Sifting.room, hσ.row, size_placed hσ.pos, Nat.add_sub_cancel]

/-- There is another block on the way. -/
theorem Sifts.answers_shift (hσ : Sifts s₀ A B others b stops σ s) (hroom : 0 < σ.room up) :
    Answers s (Reordering.shift up σ) := by
  have hsize : σ.row.size = others.length + 1 := by rw [hσ.row, size_placed hσ.pos]
  have hpos := hσ.pos
  rw [hσ.room_eq] at hroom
  unfold Reordering.shift
  cases up with
  | true =>
    rw [if_pos rfl] at hroom
    exact (Answers.blockDown hσ.lays (by omega)).bind fun _ _ _ => .pure _
  | false =>
    rw [if_neg Bool.false_ne_true] at hroom
    exact (Answers.blockDown hσ.lays (by omega)).bind fun _ _ _ => .pure _

/-- A position less is left afterwards. -/
theorem Sifts.room_shift {σ' : Sifting} (hσ : Sifts s₀ A B others b stops σ s) (hroom : n + 1 ≤ σ.room up)
    (h : Reordering.shift up σ s = .ok σ' s') :
    Sifts s₀ A B others b stops σ' s' ∧ n ≤ σ'.room up := by
  rw [hσ.room_eq] at hroom
  obtain ⟨h', hpos, -⟩ := hσ.shift (fun hup => by rw [if_pos hup] at hroom; omega) h
  refine ⟨h', ?_⟩
  rw [h'.room_eq, hpos]
  cases up with
  | true =>
    rw [if_pos rfl] at hroom ⊢
    rw [if_pos rfl]
    omega
  | false =>
    rw [if_neg Bool.false_ne_true] at hroom ⊢
    rw [if_neg Bool.false_ne_true]
    omega

theorem Sifts.answers_sweep (hσ : Sifts s₀ A B others b stops σ s) (hn : n ≤ σ.room up) :
    Answers s (Reordering.sweep up n σ) := by
  induction n generalizing stops σ s with
  | zero => exact .pure _
  | succ n ih =>
    unfold Reordering.sweep
    refine (hσ.answers_shift (by omega)).bind fun σ₁ s₁ hshift => .size ?_
    obtain ⟨h₁, hn₁⟩ := hσ.room_shift hn hshift
    -- What is remembered of the sizes has no influence on the way that is left.
    have h₂ := h₁.note (s₁.manager.config.allowed s₁.size)
    intro s₂ h
    dsimp only at h
    rw [run_note] at h
    split at h
    · cases h
    · refine ih h₂ ?_ s₂ h
      rwa [Sifting.room, note_row, note_pos]

theorem Sifts.answers_shiftBy (hσ : Sifts s₀ A B others b stops σ s) (hn : n ≤ σ.room up) :
    Answers s (Reordering.shiftBy up n σ) := by
  induction n generalizing σ s with
  | zero => exact .pure _
  | succ n ih =>
    refine (hσ.answers_shift (by omega)).bind fun σ₁ s₁ hshift => ?_
    obtain ⟨h₁, hn₁⟩ := hσ.room_shift hn hshift
    exact ih h₁ hn₁

theorem Answers.siftBlock (hl : s.Lays A row B) (key : Var) : Answers s (siftBlock row key) := by
  unfold Reordering.siftBlock
  dsimp only
  rcases hfind : row.findIdx? fun b => b.vars.head? == some key with _ | pos
  · rw [hfind]
    exact .pure _
  · rw [hfind]
    refine .size ?_
    refine (Answers.maxAllowed _).bind fun bound s' hbound => ?_
    rw [run_maxAllowed] at hbound
    cases hbound
    obtain ⟨hlt, -⟩ := Array.findIdx?_eq_some_iff_getElem.mp hfind
    obtain ⟨others, b, hpos, rfl⟩ := exists_placed hlt
    have hstart := Sifts.start hl hpos (s.manager.config.allowed s.size)
    refine (hstart.answers_sweep (Nat.le_refl _)).bind fun σ₁ s₁ hsweep₁ => ?_
    obtain ⟨_, h₁⟩ := hstart.sweep (fun hup => by rw [Sifting.room, if_pos hup]) hsweep₁
    refine (h₁.answers_sweep (Nat.le_refl _)).bind fun σ₂ s₂ hsweep₂ => ?_
    obtain ⟨_, h₂⟩ := h₁.sweep (fun hup => by rw [Sifting.room, if_pos hup]) hsweep₂
    refine (h₂.answers_shiftBy ?_).bind fun σ₃ s₃ hshift₃ => ?_
    · rw [h₂.room_eq, if_pos rfl]
      exact Nat.sub_le _ _
    obtain ⟨h₃, -⟩ := h₂.shiftBy (fun _ => Nat.sub_le _ _) hshift₃
    refine (h₃.answers_shiftBy ?_).bind fun σ₄ s₄ _ => .pure _
    rw [h₃.room_eq, if_neg Bool.false_ne_true]
    exact Nat.sub_le_sub_right h₃.bestPos _

theorem Answers.varSize (hs : s.Sound) (hv : v < s.manager.varNum) : Answers s (varSize v) :=
  (Achieves.varSize (E := fun _ => True) hs.table (hs.regions ▸ hv)).answers

theorem Answers.weigh {b : Block} (hs : s.Sound) (hne : b.vars ≠ [])
    (hb : ∀ v ∈ b.vars, v < s.manager.varNum) : Answers s (weigh b) := by
  have hsum : ∀ (vars : List Var) (n : Nat), (∀ v ∈ vars, v < s.manager.varNum) →
      Answers s (vars.foldlM (fun n v => return n + (← Reordering.varSize v)) n) := by
    intro vars
    induction vars with
    | nil => exact fun n _ => .pure _
    | cons v vars ih =>
      intro n hvars
      obtain ⟨hv, hvars⟩ := List.forall_mem_cons.mp hvars
      rw [List.foldlM_cons]
      have hq : Quiet (do return n + (← Reordering.varSize v) : Reordering Nat) :=
        (Quiet.expect _).bind fun _ => .pure _
      exact (((Answers.varSize hs hv).bind fun _ _ _ => .pure _).look hq) fun m => ih m hvars
  unfold Reordering.weigh
  split
  · rename_i hnil
    exact absurd hnil hne
  · exact (hsum _ 0 hb).bind fun _ _ _ => .pure _

theorem Answering.sift : Answering sift := by
  intro A B row s hl hne
  have hweigh : ∀ (blocks : List Block), (∀ b ∈ blocks, b ∈ row) →
      Answers s (blocks.mapM Reordering.weigh) := by
    intro blocks
    induction blocks with
    | nil => exact fun _ => .pure _
    | cons b blocks ih =>
      intro hblocks
      obtain ⟨hb, hblocks⟩ := List.forall_mem_cons.mp hblocks
      rw [List.mapM_cons]
      refine (Answers.weigh hl.sound (hne b hb) fun v hv => hl.lt hb hv).look (.weigh b) fun _ => ?_
      exact (ih hblocks).bind fun _ _ _ => .pure _
  refine (hweigh row.toList fun b hb => Array.mem_toList_iff.mp hb).look (.mapM .weigh _)
    fun weights => ?_
  exact .foldlM Improving.siftBlock hl fun key _ _ _ h => .siftBlock h.lays key

/-! ### Methods -/

/-- A pass is repeated no more often than the number that gets smaller allows. -/
theorem Answers.repeatWhile {pass : Array Block → Reordering (Array Block)}
    (himproving : Improving pass) (hpass : Answering pass) (hl : s.Lays A row B)
    (hne : ∀ b ∈ row, b.vars ≠ []) (hn : s.potential < n) : Answers s (repeatWhile pass n row) := by
  induction n generalizing row s with
  | zero => exact absurd hn (Nat.not_lt_zero _)
  | succ n ih =>
    refine .size ((hpass A B row s hl hne).bind fun row' s' hrun => .size ?_)
    have h := himproving _ _ _ _ _ _ hl hrun
    split
    · exact .pure _
    · rename_i hchanged
      have hlt := h.toShrinks.potential_lt hchanged
      exact ih h.lays (fun b hb => hne b (h.mem_row.mp hb)) (by omega)

theorem Answering.untilSteady {pass : Array Block → Reordering (Array Block)}
    (himproving : Improving pass) (hpass : Answering pass) : Answering (untilSteady pass) :=
  fun _ _ _ _ hl hne => .repeatWhile himproving hpass hl hne hl.sound.potential_lt

theorem Answering.permute (method : ReorderMethod) : Answering (permute method) := by
  cases method with
  | off => exact fun _ _ _ _ _ _ => .pure _
  | win2 => exact fun _ _ _ _ hl _ => .win2 hl
  | win2ite => exact .untilSteady .win2 fun _ _ _ _ hl _ => .win2 hl
  | win3 => exact fun _ _ _ _ hl _ => .win3 hl
  | win3ite => exact .untilSteady .win3 fun _ _ _ _ hl _ => .win3 hl
  | sift => exact .sift
  | siftite => exact .untilSteady .sift .sift

/-! ### Blocks within blocks -/

/-- The members of a row are reordered one after the other.  For each of them, those before stand above
and those after below. -/
theorem Answers.mapM_lays {f : Block → Reordering Block} {blocks : List Block}
    (hok : ∀ b ∈ blocks, ∀ (A B : List Var) (b' : Block) (s s' : Session), s.Lays A #[b] B →
      f b s = .ok b' s' → s'.Lays A #[b'] B)
    (hf : ∀ b ∈ blocks, ∀ (A B : List Var) (s : Session), s.Lays A #[b] B → Answers s (f b))
    (hl : s.Lays A blocks.toArray B) : Answers s (blocks.mapM f) := by
  induction blocks generalizing A s with
  | nil => exact .pure _
  | cons b blocks ih =>
    obtain ⟨hok₁, hok⟩ := List.forall_mem_cons.mp hok
    obtain ⟨hf₁, hf⟩ := List.forall_mem_cons.mp hf
    rw [List.mapM_cons]
    have hstart : s.Lays A #[b] (blocks.flatMap (·.vars) ++ B) :=
      ⟨hl.sound, by rw [hl.order]; simp⟩
    refine (hf₁ _ _ _ hstart).bind fun b' s₁ hfirst => ?_
    have hl₁ := hok₁ _ _ _ _ _ hstart hfirst
    have hnext : s₁.Lays (A ++ b'.vars) blocks.toArray B := ⟨hl₁.sound, by rw [hl₁.order]; simp⟩
    exact (ih hok hf hnext).bind fun _ _ _ => .pure _

theorem Answers.reorderBlock {method : ReorderMethod} {b : Block} (hb : b.Neat)
    (hn : b.height ≤ n) (hl : s.Lays A #[b] B) : Answers s (reorderBlock method n b) := by
  induction n generalizing A B b s with
  | zero =>
    rw [Block.height_eq] at hn
    omega
  | succ n ih =>
    -- Each child is reordered where it stands, and is less high than the block.
    have within : ∀ {row : List Block} {s₁ : Session}, row.Perm b.children →
        s₁.Lays A row.toArray B →
        Answers s₁ (row.mapM (Reordering.reorderBlock method n) >>= fun children =>
          (Pure.pure { b with children }.refresh : Reordering Block)) := by
      intro row s₁ hperm hl₁
      refine (Answers.mapM_lays (fun c hc A B b' s s' hl h => ?_) (fun c hc A B s hl => ?_) hl₁).bind
        fun _ _ _ => .pure _
      · exact (hl.reorderBlock_shrinks (hb.child (hperm.mem_iff.mp hc)) h).2.1
      · have hc := hperm.mem_iff.mp hc
        have hheight := Block.height_le_heights hc
        rw [Block.height_eq] at hn
        exact ih (hb.child hc) (by omega) hl
    rw [Reordering.reorderBlock]
    by_cases hempty : b.children = []
    · rw [if_neg (by simp [hempty]), hempty]
      exact (Answers.pure _).bind fun _ _ h => by
        cases h
        exact .pure _
    · have hl₁ : s.Lays A b.children.toArray B :=
        ⟨hl.sound, by rw [hl.order]; simp [hb.vars hempty]⟩
      split
      · have hne : ∀ c ∈ b.children.toArray, c.vars ≠ [] := fun c hc =>
          (hb.child (List.mem_toArray.mp hc)).nonempty
        refine (Answering.permute method _ _ _ _ hl₁ hne).bind fun row s₁ hpass => ?_
        have h := Improving.permute method _ _ _ _ _ _ hl₁ hpass
        exact within h.perm h.lays
      · exact within (.refl _) hl₁

/-- A search in all variables has an answer. -/
theorem Answers.reorderAll {method : ReorderMethod} (hs : s.Sound)
    (hforest : s.manager.forest.Nested) : Answers s (reorderAll method) := by
  refine .get ?_
  dsimp only
  split
  · rename_i hsearch
    rw [Bool.and_eq_true, decide_eq_true_eq] at hsearch
    have hl : s.Lays [] #[Block.layout s.manager.forest s.manager.order] [] := ⟨hs, by
      simp [Block.layout]⟩
    have hneat := Block.neat_layout hforest hs.order (Nat.lt_trans Nat.zero_lt_one hsearch.2)
    exact (Answers.reorderBlock hneat (Nat.le_refl _) hl).bind fun _ _ _ => .pure _
  · exact .pure _

end Reordering

end DecisionDiagram
