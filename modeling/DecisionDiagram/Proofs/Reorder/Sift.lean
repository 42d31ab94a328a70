/-
Sifting does not make the diagrams larger.

A block that is sifted passes through positions that are worse than the one it started at.  But it
remembers a best one, and returns to it.

To speak of the positions on its way, the sweeps are done with a list of the stops, which changes
nothing else.

* `sweepLogged`, `siftLogged` — the work with the stops; `exists_siftLogged` — it does the same;
* `placed` — a row with one block at a position, while the other blocks stay in order;
* `Sifts` — what is known while a block is sifted: where it stands, where it has been, and which of
  these stops is a best one;
* `siftLogged_ok` — the block ends at a best one of its stops;
* `Improving.sift` — so sifting leaves a row in an order that is as good or better.
-/
import DecisionDiagram.Proofs.Reorder.Window

namespace DecisionDiagram

/-- How large the diagrams may become while a block is sifted. -/
def Config.allowed (config : Config) (best : Nat) : Nat :=
  if 0 < config.maxNodes then min (best + best / 5) (config.maxNodes - config.maxIncrease - 2)
  else best + best / 5

/-- Keeps the block's position and the size there, if it is better than all before. -/
def Reordering.Sifting.note (σ : Reordering.Sifting) (now bound : Nat) : Reordering.Sifting :=
  if now < σ.best then { σ with best := now, bestPos := σ.pos, bound } else σ

namespace Reordering

open Session

variable {α β : Type} {A B : List Var} {row row' : Array Block} {n : Nat} {key : Var}
  {s₀ s s' : Session} {σ σ' : Sifting} {up : Bool}

/-! ### The stops of a block -/

/-- A position that a block has come to on its way, and the size of the session there. -/
structure Stop where
  pos : Nat
  size : Nat
deriving DecidableEq, Repr

/-- A sweep, with the stops on the way. -/
def sweepLogged (up : Bool) : Nat → Sifting → Reordering (Sifting × List Stop)
  | 0, σ => return (σ, [])
  | n + 1, σ => do
    let σ ← shift up σ
    let now ← size
    let σ ← if now < σ.best then
        pure { σ with best := now, bestPos := σ.pos, bound := ← maxAllowed now }
      else pure σ
    if σ.bound < now then return (σ, [⟨σ.pos, now⟩])
    else
      let (σ', stops) ← sweepLogged up n σ
      return (σ', ⟨σ.pos, now⟩ :: stops)

/-- The sifting of a block, with the stops of both sweeps. -/
def siftLogged (row : Array Block) (key : Var) :
    Reordering (Array Block × List Stop × List Stop) := do
  match row.findIdx? fun b => b.vars.head? == some key with
  | none => return (row, [], [])
  | some pos =>
    let best ← size
    let σ : Sifting := ⟨row, pos, best, pos, ← maxAllowed best⟩
    let up : Bool := pos ≤ row.size / 2
    let (σ, first) ← sweepLogged up (σ.room up) σ
    let (σ, second) ← sweepLogged (!up) (σ.room (!up)) σ
    let σ ← shiftBy true (σ.pos - σ.bestPos) σ
    let σ ← shiftBy false (σ.bestPos - σ.pos) σ
    return (σ.row, first, second)

theorem fst_sweepLogged (up : Bool) (n : Nat) (σ : Sifting) :
    Prod.fst <$> sweepLogged up n σ = sweep up n σ := by
  induction n generalizing σ with
  | zero => rfl
  | succ n ih =>
    -- Whatever is remembered at the stop, both sweeps end there or go on alike.
    have next : ∀ (σ : Sifting) (now : Nat),
        (Prod.fst <$> if σ.bound < now then (Pure.pure (σ, [⟨σ.pos, now⟩]) : Reordering _)
          else sweepLogged up n σ >>= fun p => Pure.pure (p.1, ⟨σ.pos, now⟩ :: p.2)) =
        if σ.bound < now then Pure.pure σ else sweep up n σ := by
      intro σ now
      split
      · rfl
      · rw [← ih, map_bind, map_eq_pure_bind]
        exact bind_congr fun p => map_pure _ _
    rw [sweepLogged, sweep, map_bind]
    refine bind_congr fun σ₁ => ?_
    rw [map_bind]
    refine bind_congr fun now => ?_
    split
    · simp only [pure_bind, map_bind]
      exact bind_congr fun bound => next { σ₁ with best := now, bestPos := σ₁.pos, bound } now
    · simp only [pure_bind]
      exact next σ₁ now

theorem fst_siftLogged (row : Array Block) (key : Var) :
    Prod.fst <$> siftLogged row key = siftBlock row key := by
  unfold siftLogged siftBlock
  dsimp only
  rcases hfind : row.findIdx? fun b => b.vars.head? == some key with _ | pos
  · rw [hfind]
    rfl
  · rw [hfind]
    simp only [map_bind, map_pure, ← fst_sweepLogged, bind_map_left]

/-- Work whose result is a part of that of other work. -/
theorem map_ok {x : Reordering α} {f : α → β} {b : β} (h : (f <$> x) s = .ok b s') :
    ∃ a, x s = .ok a s' ∧ f a = b := by
  rw [map_eq_pure_bind] at h
  obtain ⟨a, s₁, hx, h⟩ := bind_ok h
  cases h
  exact ⟨a, hx, rfl⟩

theorem sweep_ok {stops : List Stop} (h : sweepLogged up n σ s = .ok (σ', stops) s') :
    sweep up n σ s = .ok σ' s' := by
  rw [← fst_sweepLogged, map_eq_pure_bind, run_bind h]
  rfl

theorem siftBlock_ok {first second : List Stop}
    (h : siftLogged row key s = .ok (row', first, second) s') : siftBlock row key s = .ok row' s' := by
  rw [← fst_siftLogged, map_eq_pure_bind, run_bind h]
  rfl

/-- The sifting of a block makes its stops. -/
theorem exists_siftLogged (h : siftBlock row key s = .ok row' s') :
    ∃ first second, siftLogged row key s = .ok (row', first, second) s' := by
  rw [← fst_siftLogged] at h
  obtain ⟨⟨row', first, second⟩, hlogged, rfl⟩ := map_ok h
  exact ⟨first, second, hlogged⟩

/-! ### One position -/

theorem run_maxAllowed (best : Nat) (s : Session) :
    maxAllowed best s = .ok (s.manager.config.allowed best) s := by
  unfold maxAllowed Config.allowed
  show (if _ then _ else _ : Reordering Nat) s = _
  split <;> rfl

@[simp] theorem note_row (σ : Sifting) (now bound : Nat) : (σ.note now bound).row = σ.row := by
  unfold Sifting.note
  split <;> rfl

@[simp] theorem note_pos (σ : Sifting) (now bound : Nat) : (σ.note now bound).pos = σ.pos := by
  unfold Sifting.note
  split <;> rfl

/-- The best size so far is the least of the sizes. -/
@[simp] theorem note_best (σ : Sifting) (now bound : Nat) : (σ.note now bound).best = min σ.best now := by
  unfold Sifting.note
  split
  · rename_i hlt
    exact (Nat.min_eq_right (Nat.le_of_lt hlt)).symm
  · rename_i hle
    exact (Nat.min_eq_left (Nat.not_lt.mp hle)).symm

theorem shift_ok (h : shift up σ s = .ok σ' s') :
    ∃ row, blockDown (if up then σ.pos - 1 else σ.pos) σ.row s = .ok row s' ∧
      σ' = { σ with row, pos := if up then σ.pos - 1 else σ.pos + 1 } := by
  unfold shift at h
  cases up with
  | true =>
    obtain ⟨row, s₁, hdown, h⟩ := bind_ok h
    cases h
    exact ⟨row, hdown, rfl⟩
  | false =>
    obtain ⟨row, s₁, hdown, h⟩ := bind_ok h
    cases h
    exact ⟨row, hdown, rfl⟩

/-- A new bound is computed only where the block stands better than before. -/
theorem run_note (σ : Sifting) (now : Nat) (k : Sifting → Reordering α) (s : Session) :
    (if now < σ.best then
        maxAllowed now >>= fun bound => Pure.pure { σ with best := now, bestPos := σ.pos, bound } >>= k
      else Pure.pure σ >>= k) s = k (σ.note now (s.manager.config.allowed now)) s := by
  unfold Sifting.note
  split
  · rw [run_bind (run_maxAllowed _ _)]
    rfl
  · rfl

/-- A sweep that has positions left moves the block by one of them.  There it ends, or it goes on. -/
theorem sweepLogged_succ_ok {log : List Stop}
    (h : sweepLogged up (n + 1) σ s = .ok (σ', log) s') :
    ∃ σ₁ σ₂ s₁ rest, shift up σ s = .ok σ₁ s₁ ∧
      σ₂ = σ₁.note s₁.size (s₁.manager.config.allowed s₁.size) ∧
      log = ⟨σ₁.pos, s₁.size⟩ :: rest ∧
      ((σ₂.bound < s₁.size ∧ σ' = σ₂ ∧ s' = s₁ ∧ rest = []) ∨
        sweepLogged up n σ₂ s₁ = .ok (σ', rest) s') := by
  rw [sweepLogged] at h
  obtain ⟨σ₁, s₁, hshift, h⟩ := bind_ok h
  have h := size_bind_ok h
  dsimp only at h
  rw [run_note, note_pos] at h
  split at h
  · rename_i hlt
    cases h
    exact ⟨σ₁, _, s', [], hshift, rfl, rfl, .inl ⟨hlt, rfl, rfl, rfl⟩⟩
  · obtain ⟨⟨σ₃, rest⟩, s₂, hrest, h⟩ := bind_ok h
    cases h
    exact ⟨σ₁, _, s₁, rest, hshift, rfl, rfl, .inr hrest⟩

/-! ### Rows with one block on its way -/

/-- A row with a block at a position, and other blocks above and below it. -/
def placed (others : List Block) (b : Block) (pos : Nat) : Array Block :=
  (others.take pos ++ b :: others.drop pos).toArray

variable {others : List Block} {b : Block} {pos : Nat}

theorem placed_append (X Y : List Block) (b : Block) :
    placed (X ++ Y) b X.length = (X ++ b :: Y).toArray := by
  rw [placed, List.take_left, List.drop_left]

theorem exists_placed {row : Array Block} (h : pos < row.size) :
    ∃ others b, pos ≤ others.length ∧ row = placed others b pos := by
  have hlt : pos < row.toList.length := h
  have hlength : (row.toList.take pos).length = pos := by
    rw [List.length_take, Nat.min_eq_left (Nat.le_of_lt hlt)]
  refine ⟨row.toList.take pos ++ row.toList.drop (pos + 1), row.toList[pos], ?_, ?_⟩
  · rw [List.length_append, hlength]
    exact Nat.le_add_right _ _
  · have hrow := placed_append (row.toList.take pos) (row.toList.drop (pos + 1)) row.toList[pos]
    rw [hlength] at hrow
    rw [hrow, ← List.drop_eq_getElem_cons hlt, List.take_append_drop]

theorem size_placed (hpos : pos ≤ others.length) : (placed others b pos).size = others.length + 1 := by
  rw [placed, List.size_toArray, List.length_append, List.length_cons, List.length_take,
    List.length_drop]
  omega

theorem getElem?_placed (hpos : pos ≤ others.length) : (placed others b pos)[pos]? = some b := by
  have hlength : (others.take pos).length = pos := by rw [List.length_take, Nat.min_eq_left hpos]
  rw [placed, List.getElem?_toArray, List.getElem?_append_right hlength.le, hlength, Nat.sub_self]
  rfl

/-- A block moves down by one position. -/
theorem placed_down (hpos : pos < others.length) :
    (placed others b pos).swapIfInBounds pos (pos + 1) = placed others b (pos + 1) := by
  obtain ⟨X, c, Y, rfl, rfl⟩ : ∃ X c Y, X.length = pos ∧ others = X ++ c :: Y := by
    refine ⟨others.take pos, others[pos], others.drop (pos + 1), ?_, ?_⟩
    · rw [List.length_take, Nat.min_eq_left (Nat.le_of_lt hpos)]
    · rw [← List.drop_eq_getElem_cons hpos, List.take_append_drop]
  have hsplit : X ++ c :: Y = (X ++ [c]) ++ Y := by simp
  have hlength : X.length + 1 = (X ++ [c]).length := by simp
  rw [placed_append, swap_adjacent, hsplit, hlength, placed_append]
  simp

/-- A block moves up by one position. -/
theorem placed_up (hpos : pos < others.length) :
    (placed others b (pos + 1)).swapIfInBounds pos (pos + 1) = placed others b pos := by
  rw [← placed_down hpos, swapIfInBounds_swapIfInBounds]

theorem placed_perm (others : List Block) (b : Block) (pos : Nat) :
    (placed others b pos).toList.Perm (b :: others) := by
  have h : (others.take pos ++ b :: others.drop pos).Perm
      (b :: (others.take pos ++ others.drop pos)) := List.perm_middle
  rwa [List.take_append_drop] at h

/-- What is known while a block is sifted, after the stops so far, the first of which is where it
started: where the block stands among the others, which keep their order; that the row stood at each of
the stops with the size that is noted there; and which of these stops was a best one. -/
structure Sifts (s₀ : Session) (A B : List Var) (others : List Block) (b : Block) (stops : List Stop)
    (σ : Sifting) (s : Session) : Prop where
  walk : s₀.Walk s
  row : σ.row = placed others b σ.pos
  pos : σ.pos ≤ others.length
  lays : s.Lays A σ.row B
  visited : ∀ stop ∈ stops, stop.pos ≤ others.length ∧
    s₀.Passed A (placed others b stop.pos) B stop.size s
  best : ⟨σ.bestPos, σ.best⟩ ∈ stops
  least : ∀ stop ∈ stops, σ.best ≤ stop.size

variable {stops log : List Stop}

theorem Sifts.start (hl : s.Lays A (placed others b pos) B) (hpos : pos ≤ others.length) (bound : Nat) :
    Sifts s A B others b [⟨pos, s.size⟩] ⟨placed others b pos, pos, s.size, pos, bound⟩ s := by
  refine ⟨.refl, rfl, hpos, hl, fun stop hstop => ?_, List.mem_singleton_self _, fun stop hstop => ?_⟩
  · rw [List.mem_singleton.mp hstop]
    exact ⟨hpos, hl.passed .refl⟩
  · rw [List.mem_singleton.mp hstop]

theorem Sifts.bestPos (hσ : Sifts s₀ A B others b stops σ s) : σ.bestPos ≤ others.length :=
  (hσ.visited _ hσ.best).1

/-- One position up or down. -/
theorem Sifts.shift (hσ : Sifts s₀ A B others b stops σ s) (hup : up = true → 0 < σ.pos)
    (h : shift up σ s = .ok σ' s') :
    Sifts s₀ A B others b stops σ' s' ∧ σ'.pos = (if up then σ.pos - 1 else σ.pos + 1) ∧
      σ'.bestPos = σ.bestPos := by
  have hw := (Guided.shift up σ).walks.walk h
  have hstart := hσ.walk.trans hw
  have hstops := fun stop hstop => (hσ.visited stop hstop).imp_right fun hp => hp.walk hw
  have hpos := hσ.pos
  obtain ⟨row, hdown, rfl⟩ := shift_ok h
  obtain ⟨hlt, rfl, hl⟩ := hσ.lays.blockDown hdown
  cases up with
  | true =>
    -- The block above comes down, so there has to be one.
    have hlt : 0 < σ.pos := hup rfl
    obtain ⟨q, hq⟩ := Nat.exists_eq_add_one.mpr hlt
    refine ⟨⟨hstart, ?_, ?_, hl, hstops, hσ.best, hσ.least⟩, rfl, rfl⟩
    · show σ.row.swapIfInBounds (σ.pos - 1) (σ.pos - 1 + 1) = placed others b (σ.pos - 1)
      rw [hσ.row, hq, Nat.add_sub_cancel, placed_up (by omega)]
    · show σ.pos - 1 ≤ _
      omega
  | false =>
    -- The exchange would have failed without a block below.
    rw [if_neg Bool.false_ne_true, hσ.row, size_placed hpos] at hlt
    have hpos' := Nat.lt_of_succ_lt_succ hlt
    refine ⟨⟨hstart, ?_, hpos', hl, hstops, hσ.best, hσ.least⟩, rfl, rfl⟩
    show σ.row.swapIfInBounds σ.pos (σ.pos + 1) = placed others b (σ.pos + 1)
    rw [hσ.row, placed_down hpos']

/-- The block has come to a stop. -/
theorem Sifts.note (hσ : Sifts s₀ A B others b stops σ s) (bound : Nat) :
    Sifts s₀ A B others b (stops ++ [⟨σ.pos, s.size⟩]) (σ.note s.size bound) s := by
  -- The place where the block stands now is one more stop.
  have hstop : σ.pos ≤ others.length ∧ s₀.Passed A (placed others b σ.pos) B s.size s :=
    ⟨hσ.pos, hσ.row ▸ hσ.lays.passed hσ.walk⟩
  have hstops : ∀ stop ∈ stops ++ [⟨σ.pos, s.size⟩], stop.pos ≤ others.length ∧
      s₀.Passed A (placed others b stop.pos) B stop.size s := by
    intro stop h
    rcases List.mem_append.mp h with h | h
    · exact hσ.visited stop h
    · rw [List.mem_singleton.mp h]
      exact hstop
  have hleast : ∀ stop ∈ stops ++ [⟨σ.pos, s.size⟩], min σ.best s.size ≤ stop.size := by
    intro stop h
    rcases List.mem_append.mp h with h | h
    · exact (Nat.min_le_left _ _).trans (hσ.least stop h)
    · rw [List.mem_singleton.mp h]
      exact Nat.min_le_right _ _
  refine ⟨hσ.walk, ?_, ?_, ?_, hstops, ?_, ?_⟩
  · rw [note_row, note_pos, hσ.row]
  · rw [note_pos]
    exact hσ.pos
  · rw [note_row]
    exact hσ.lays
  · unfold Sifting.note
    split
    · exact List.mem_append_right _ (List.mem_singleton_self _)
    · exact List.mem_append_left _ hσ.best
  · rw [note_best]
    exact hleast

theorem Sifts.sweepLogged (hσ : Sifts s₀ A B others b stops σ s) (hn : up = true → n ≤ σ.pos)
    (h : sweepLogged up n σ s = .ok (σ', log) s') : Sifts s₀ A B others b (stops ++ log) σ' s' := by
  induction n generalizing σ s stops log with
  | zero =>
    cases h
    rw [List.append_nil]
    exact hσ
  | succ n ih =>
    obtain ⟨σ₁, _, s₁, rest, hshift, rfl, rfl, hrest⟩ := sweepLogged_succ_ok h
    obtain ⟨h₁, hpos, -⟩ := hσ.shift (fun hup => by have := hn hup; omega) hshift
    have h₂ := h₁.note (s₁.manager.config.allowed s₁.size)
    have hlog : stops ++ ⟨σ₁.pos, s₁.size⟩ :: rest = (stops ++ [⟨σ₁.pos, s₁.size⟩]) ++ rest := by simp
    rw [hlog]
    rcases hrest with ⟨-, rfl, rfl, rfl⟩ | hrest
    · rw [List.append_nil]
      exact h₂
    · refine ih h₂ (fun hup => ?_) hrest
      have := hn hup
      rw [note_pos, hpos, if_pos hup]
      omega

theorem Sifts.sweep (hσ : Sifts s₀ A B others b stops σ s) (hn : up = true → n ≤ σ.pos)
    (h : sweep up n σ s = .ok σ' s') : ∃ log, Sifts s₀ A B others b (stops ++ log) σ' s' := by
  rw [← fst_sweepLogged] at h
  obtain ⟨⟨σ', log⟩, hlogged, rfl⟩ := map_ok h
  exact ⟨log, hσ.sweepLogged hn hlogged⟩

theorem Sifts.shiftBy (hσ : Sifts s₀ A B others b stops σ s) (hn : up = true → n ≤ σ.pos)
    (h : shiftBy up n σ s = .ok σ' s') :
    Sifts s₀ A B others b stops σ' s' ∧ σ'.pos = (if up then σ.pos - n else σ.pos + n) ∧
      σ'.bestPos = σ.bestPos := by
  induction n generalizing σ s with
  | zero =>
    cases h
    refine ⟨hσ, ?_, rfl⟩
    split <;> rfl
  | succ n ih =>
    obtain ⟨σ₁, s₁, hshift, hrest⟩ := bind_ok h
    obtain ⟨h₁, hpos, hbest⟩ := hσ.shift (fun hup => by have := hn hup; omega) hshift
    obtain ⟨h', hpos', hbest'⟩ := ih h₁ (fun hup => by
      have := hn hup
      rw [hpos, if_pos hup]
      omega) hrest
    refine ⟨h', ?_, hbest'.trans hbest⟩
    rw [hpos', hpos]
    split <;> omega

/-! ### Sifting -/

/-- The sifting of a block is a sweep in each direction and the way back. -/
theorem siftLogged_parts {first second : List Stop}
    (hfind : row.findIdx? (fun b => b.vars.head? == some key) = some pos)
    (h : siftLogged row key s = .ok (row', first, second) s') :
    ∃ (σ σ₁ σ₂ σ₃ σ₄ : Sifting) (s₁ s₂ s₃ : Session) (up : Bool),
      σ = ⟨row, pos, s.size, pos, s.manager.config.allowed s.size⟩ ∧
      up = decide (pos ≤ row.size / 2) ∧
      sweepLogged up (σ.room up) σ s = .ok (σ₁, first) s₁ ∧
      sweepLogged (!up) (σ₁.room (!up)) σ₁ s₁ = .ok (σ₂, second) s₂ ∧
      shiftBy true (σ₂.pos - σ₂.bestPos) σ₂ s₂ = .ok σ₃ s₃ ∧
      shiftBy false (σ₃.bestPos - σ₃.pos) σ₃ s₃ = .ok σ₄ s' ∧ σ₄.row = row' := by
  unfold siftLogged at h
  rw [hfind] at h
  have h := size_bind_ok h
  rw [run_bind (run_maxAllowed _ _)] at h
  obtain ⟨⟨σ₁, log₁⟩, s₁, hsweep₁, h⟩ := bind_ok h
  obtain ⟨⟨σ₂, log₂⟩, s₂, hsweep₂, h⟩ := bind_ok h
  obtain ⟨σ₃, s₃, hshift₃, h⟩ := bind_ok h
  obtain ⟨σ₄, s₄, hshift₄, h⟩ := bind_ok h
  cases h
  exact ⟨_, σ₁, σ₂, σ₃, σ₄, s₁, s₂, s₃, _, rfl, rfl, hsweep₁, hsweep₂, hshift₃, hshift₄, rfl⟩

/-- A block that is sifted returns to the best position that it had. -/
theorem siftLogged_ok {first second : List Stop} (hl : s.Lays A row B)
    (hfind : row.findIdx? (fun b => b.vars.head? == some key) = some pos)
    (h : siftLogged row key s = .ok (row', first, second) s') :
    ∃ others b σ, row = placed others b pos ∧ σ.row = row' ∧ σ.pos = σ.bestPos ∧
      Sifts s A B others b (⟨pos, s.size⟩ :: (first ++ second)) σ s' := by
  obtain ⟨_, σ₁, σ₂, σ₃, σ₄, s₁, s₂, s₃, up, rfl, -, hsweep₁, hsweep₂, hshift₃, hshift₄, rfl⟩ :=
    siftLogged_parts hfind h
  obtain ⟨hlt, -⟩ := Array.findIdx?_eq_some_iff_getElem.mp hfind
  obtain ⟨others, b, hpos, rfl⟩ := exists_placed hlt
  have hstart := Sifts.start hl hpos (s.manager.config.allowed s.size)
  have h₁ := hstart.sweepLogged (fun hup => by rw [Sifting.room, if_pos hup]) hsweep₁
  have h₂ := h₁.sweepLogged (fun hup => by rw [Sifting.room, if_pos hup]) hsweep₂
  obtain ⟨h₃, hpos₃, hbest₃⟩ := h₂.shiftBy (fun _ => Nat.sub_le _ _) hshift₃
  obtain ⟨h₄, hpos₄, hbest₄⟩ := h₃.shiftBy (fun hup => by cases hup) hshift₄
  refine ⟨others, b, σ₄, rfl, rfl, ?_, by simpa using h₄⟩
  -- One of the two ways back has no length.
  rw [if_pos rfl] at hpos₃
  rw [if_neg Bool.false_ne_true] at hpos₄
  omega

theorem Improving.siftBlock (key : Var) : Improving fun row => siftBlock row key := by
  intro A B row row' s s' hl h
  have hw := (Guided.siftBlock row key).walks.walk h
  rcases hfind : row.findIdx? fun b => b.vars.head? == some key with _ | pos
  · unfold Reordering.siftBlock at h
    dsimp only at h
    rw [hfind] at h
    cases h
    exact .refl hl
  · obtain ⟨first, second, hlogged⟩ := exists_siftLogged h
    obtain ⟨others, b, σ, rfl, rfl, hback, hσ⟩ := siftLogged_ok hl hfind hlogged
    have hpassed := (hσ.visited _ hσ.best).2
    dsimp only at hpassed
    rw [← hback, ← hσ.row] at hpassed
    refine hpassed.improves hl.sound hw ?_ hσ.lays (hσ.least _ List.mem_cons_self)
    rw [hσ.row]
    exact (placed_perm _ _ _).trans (placed_perm _ _ _).symm

theorem Improving.sift : Improving sift := by
  intro A B row row' s s' hl h
  unfold Reordering.sift at h
  obtain ⟨weights, s₁, hweigh, hsift⟩ := bind_ok h
  obtain rfl := (Quiet.mapM Quiet.weigh _).eq hweigh
  exact Improving.foldlM Improving.siftBlock _ A B row row' _ s' hl hsift

end Reordering

end DecisionDiagram
