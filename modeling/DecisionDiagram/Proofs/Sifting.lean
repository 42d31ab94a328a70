/-
The way of a block that is sifted, and where it ends.

A block stops at each position that it comes to.  It ends at one of its stops where the size was least.
In each direction it goes on to the end of the row, unless the size has become too large: more than a
fifth above the least size so far, or so near to the limit of the store that this could be met.

* `Lays.findIdx?_eq` — a block of a row is found by its first variable;
* `Manager.Settled.sift_returns` — the block ends at a best one of its stops;
* `Config.Exceeds` — when the diagrams have become too large;
* `Way` — the way in one direction;
* `siftBlock_ways` — both ways of a block that is sifted.
-/
import DecisionDiagram.Proofs.Counts
import DecisionDiagram.Proofs.Reorder.Sift

namespace DecisionDiagram

namespace Session

variable {A B : List Var} {row : Array Block} {b : Block} {pos : Nat} {key : Var} {s : Session}

/-- No other block of a row has a variable in common with the block. -/
theorem Lays.findIdx?_eq (hl : s.Lays A row B) (hb : row[pos]? = some b)
    (hkey : b.vars.head? = some key) :
    row.findIdx? (fun b => b.vars.head? == some key) = some pos := by
  obtain ⟨hlt, rfl⟩ := Array.getElem?_eq_some_iff.mp hb
  refine Array.findIdx?_eq_some_iff_getElem.mpr ⟨hlt, by simpa using hkey, fun j hj => ?_⟩
  rw [beq_iff_eq]
  intro hhead
  have hnodup := hl.sound.order.nodup_toList
  rw [hl.order] at hnodup
  have hpairwise := (List.nodup_flatMap.mp hnodup.of_append_left.of_append_right).2
  have hdisjoint := List.pairwise_iff_getElem.mp hpairwise j pos (Nat.lt_trans hj hlt) hlt hj
  exact hdisjoint (List.mem_of_head? hhead) (List.mem_of_head? hkey)

end Session

namespace Manager

open Reordering

variable {m m₀ : Manager}

/-- At every point of a session, a block of a row is sifted: it has made stops at positions of the row,
and it ends at one where the size was the least of all, the one that it started at included.  The session
has this size again, if no count is saturated.  The other blocks keep their order, and so do the variables
within each block.  The session has the size of a stop whenever the block stands there. -/
theorem Settled.sift_returns (hm : m.Settled) (hb : m.Begins m₀) {roots : List NodeId}
    (hroots : ∀ r, r ∈ roots ↔ r ∈ m₀.rootNodes) {s s₁ s₂ : Session}
    (hs : Session.start m₀ roots = some s) (hw : s.Walk s₁) {A B : List Var} {row row' : Array Block}
    (hrow : s₁.manager.order.toList = A ++ row.toList.flatMap (·.vars) ++ B) {pos : Nat} {b : Block}
    {key : Var} (hblock : row[pos]? = some b) (hkey : b.vars.head? = some key)
    (h : siftBlock row key s₁ = .ok row' s₂) (hu : s₂.Unsaturated) :
    ∃ others first second pos', siftLogged row key s₁ = .ok (row', first, second) s₂ ∧
      row = placed others b pos ∧ row' = placed others b pos' ∧
      s₂.manager.order.toList = A ++ row'.toList.flatMap (·.vars) ++ B ∧
      ⟨pos', s₂.size⟩ ∈ ⟨pos, s₁.size⟩ :: (first ++ second) ∧
      ∀ stop ∈ ⟨pos, s₁.size⟩ :: (first ++ second), s₂.size ≤ stop.size ∧
        stop.pos ≤ others.length ∧ s₁.Passed A (placed others b stop.pos) B stop.size s₂ ∧
        ∀ t, s.Walk t → t.Unsaturated → t.manager.order.toList =
          A ++ (placed others b stop.pos).toList.flatMap (·.vars) ++ B → t.size = stop.size := by
  have hsound := ((hm.begins hb).start hroots hs).1
  have hs₁ := (hw.advances hsound).sound
  have hl : s₁.Lays A row B := ⟨hs₁, hrow⟩
  obtain ⟨first, second, hlogged⟩ := exists_siftLogged h
  obtain ⟨others, b', σ, rfl, rfl, hback, hσ⟩ := siftLogged_ok hl (hl.findIdx?_eq hblock hkey) hlogged
  have hpos : pos ≤ others.length := (hσ.visited _ List.mem_cons_self).1
  obtain rfl : b' = b := Option.some.inj ((getElem?_placed hpos).symm.trans hblock)
  have hbest : s₂.size = σ.best := by
    refine (hσ.visited _ hσ.best).2.size_eq_of_order hsound hw hu (hw.trans hσ.walk) hu ?_
    rw [← hback, ← hσ.row, hσ.lays.order]
  refine ⟨others, first, second, σ.pos, hlogged, rfl, hσ.row, hσ.lays.order, ?_, fun stop hstop => ?_⟩
  · rw [hbest, hback]
    exact hσ.best
  · obtain ⟨hstop', hp⟩ := hσ.visited stop hstop
    exact ⟨hbest.trans_le (hσ.least stop hstop), hstop', hp, fun t ht hut ho =>
      hp.size_eq_of_order hsound hw hu ht hut ho⟩

/-- The variable in the middle goes up, where the size is best.  It turns back at its first stop on the way
down, where there are two nodes more. -/
theorem sift_returns_choice :
    ∃ m s row' s₂, after (.small 16 0) [.setVarNum 3, .makeNode 1 6 1, .makeNode 1 6 0, .makeNode 0 9 8,
        .protect 10] = some m ∧ m.openSession = some s ∧
      siftBlock #[.single 0, .single 1, .single 2] 1 s = .ok row' s₂ ∧ s₂.Unsaturated ∧
      siftLogged #[.single 0, .single 1, .single 2] 1 s = .ok (row', [⟨0, 9⟩], [⟨1, 11⟩]) s₂ ∧
      s.size = 11 ∧ s₂.size = 9 ∧ row'.toList.map (·.vars) = [[1], [0], [2]] ∧
      s₂.manager.order.toList = [1, 0, 2] := by
  have hrun : (after (.small 16 0) [.setVarNum 3, .makeNode 1 6 1, .makeNode 1 6 0, .makeNode 0 9 8,
      .protect 10]).any fun m => m.openSession.any fun s =>
        (s.size = 11 && s.manager.order.toList = [0, 1, 2]) &&
          (s.result? (siftLogged #[.single 0, .single 1, .single 2] 1)).any fun r =>
            r.1.2 = ([⟨0, 9⟩], [⟨1, 11⟩]) && (r.2.Unsaturated &&
              r.1.1.toList.map (·.vars) = [[1], [0], [2]]) := by
    decide +kernel
  obtain ⟨m, s, hm, hs, hrun⟩ := exists_openSession hrun
  simp only [Bool.and_eq_true, decide_eq_true_eq] at hrun
  obtain ⟨⟨hsize, horder⟩, hrun⟩ := hrun
  obtain ⟨⟨row', stops⟩, s₂, hlogged, hends⟩ := Session.exists_result hrun
  simp only [Bool.and_eq_true, decide_eq_true_eq] at hends
  obtain ⟨rfl, hu, hrow'⟩ := hends
  have hsift := siftBlock_ok hlogged
  have hrow : s.manager.order.toList =
      [] ++ (#[.single 0, .single 1, .single 2] : Array Block).toList.flatMap (·.vars) ++ [] := horder
  have hblock : (#[.single 0, .single 1, .single 2] : Array Block)[1]? = some (.single 1) := rfl
  obtain ⟨others, first, second, pos', hlogged', -, -, horder₂, hbest, hleast⟩ :=
    (settled_after hm).sift_returns .asked (fun _ => .rfl) hs .refl hrow hblock rfl hsift hu
  refine ⟨m, s, row', s₂, hm, hs, hsift, hu, hlogged, hsize, ?_, hrow', ?_⟩
  · -- One stop has the size 9, and all others have a larger one.
    obtain ⟨h₁, -⟩ := EStateM.Result.ok.inj (hlogged.symm.trans hlogged')
    cases h₁
    have hle := (hleast ⟨0, 9⟩ (by simp)).1
    simp only [hsize, List.mem_cons, Stop.mk.injEq, List.cons_append, List.nil_append,
      List.not_mem_nil, or_false] at hbest
    dsimp only at hle
    omega
  · rw [horder₂, List.flatMap_def, hrow']
    rfl

end Manager

/-! ### The ways of a block -/

/-- The diagrams have become too large for a block to go on: more than a fifth larger than the least size,
or so large that a step in which the store grows could lead to its limit. -/
def Config.Exceeds (config : Config) (best now : Nat) : Prop :=
  best + best / 5 < now ∨ 0 < config.maxNodes ∧ config.maxNodes < now + config.maxIncrease + 2

theorem Config.exceeds_of_allowed_lt {config : Config} {best now : Nat}
    (h : config.allowed best < now) : config.Exceeds best now := by
  rw [allowed] at h
  rw [Exceeds]
  split at h <;> omega

namespace Reordering

/-- The next position of a block. -/
def nextPos (up : Bool) (pos : Nat) : Nat := if up then pos - 1 else pos + 1

/-- The last position of a block in a row of so many blocks. -/
def endPos (up : Bool) (length : Nat) : Nat := if up then 0 else length - 1

/-- The way of a block in one direction.  It starts at the position `pos`, where `best` is the least size
so far, and ends at `pos'`, where that is `best'`.  The block goes from one position to the next as far as
the end of the row, unless the size at a stop, compared to the least size so far, is too large. -/
inductive Way (up : Bool) (length : Nat) (exceeds : Nat → Nat → Prop) :
    Nat → Nat → List Stop → Nat → Nat → Prop
  | arrived {pos best : Nat} (h : pos = endPos up length) : Way up length exceeds pos best [] pos best
  | stopped {pos best now : Nat} (hpos : pos ≠ endPos up length) (h : exceeds (min best now) now) :
    Way up length exceeds pos best [⟨nextPos up pos, now⟩] (nextPos up pos) (min best now)
  | on {pos best now pos' best' : Nat} {stops : List Stop} (hpos : pos ≠ endPos up length)
    (h : Way up length exceeds (nextPos up pos) (min best now) stops pos' best') :
    Way up length exceeds pos best (⟨nextPos up pos, now⟩ :: stops) pos' best'

/-- The block is in a row of so many blocks, and the bound is that for the least size so far. -/
structure Sifting.Fits (config : Config) (length : Nat) (σ : Sifting) : Prop where
  size : σ.row.size = length
  pos : σ.pos < length
  bound : σ.bound = config.allowed σ.best

variable {config : Config} {length n pos : Nat} {key : Var} {row row' : Array Block} {s s' : Session}
  {σ σ' : Sifting} {up : Bool}

theorem Sifting.Fits.note (h : σ.Fits config length) (now : Nat) :
    (σ.note now (config.allowed now)).Fits config length := by
  refine ⟨?_, ?_, ?_⟩
  · rw [note_row, h.size]
  · rw [note_pos]
    exact h.pos
  · unfold Sifting.note
    split
    · rfl
    · exact h.bound

theorem Sifting.Fits.room_eq_zero (h : σ.Fits config length) :
    σ.room up = 0 ↔ σ.pos = endPos up length := by
  have hpos := h.pos
  rw [room, endPos, h.size]
  split <;> omega

theorem Sifting.Fits.shift (h : σ.Fits config length) (hroom : σ.room up = n + 1)
    (hshift : shift up σ s = .ok σ' s') :
    σ'.Fits config length ∧ σ'.pos = nextPos up σ.pos ∧ σ'.best = σ.best ∧ σ'.room up = n := by
  obtain ⟨row, hdown, rfl⟩ := shift_ok hshift
  obtain rfl := blockDown_ok hdown
  have hpos := h.pos
  have hsize := h.size
  rw [room, hsize] at hroom
  refine ⟨⟨by rw [Array.size_swapIfInBounds, hsize], ?_, h.bound⟩, rfl, rfl, ?_⟩
  · cases up with
    | true => exact Nat.lt_of_le_of_lt (Nat.sub_le _ _) hpos
    | false =>
      rw [if_neg Bool.false_ne_true] at hroom
      show σ.pos + 1 < length
      omega
  · rw [room, Array.size_swapIfInBounds, hsize]
    cases up with
    | true =>
      rw [if_pos rfl] at hroom ⊢
      exact Nat.sub_eq_of_eq_add hroom
    | false =>
      rw [if_neg Bool.false_ne_true] at hroom ⊢
      show length - 1 - (σ.pos + 1) = n
      omega

theorem Sifting.Fits.way {log : List Stop} (h : σ.Fits config length)
    (hconfig : s.manager.config = config) (hn : σ.room up = n)
    (hsweep : sweepLogged up n σ s = .ok (σ', log) s') :
    Way up length config.Exceeds σ.pos σ.best log σ'.pos σ'.best ∧ σ'.Fits config length := by
  induction n generalizing σ s log with
  | zero =>
    cases hsweep
    exact ⟨.arrived (h.room_eq_zero.mp hn), h⟩
  | succ n ih =>
    obtain ⟨σ₁, _, s₁, rest, hshift, rfl, rfl, hrest⟩ := sweepLogged_succ_ok hsweep
    have hstays := ((Guided.shift up σ).walks.walk hshift).stays
    have hconfig₁ : s₁.manager.config = config := by rw [hstays.manager, hconfig]
    rw [hconfig₁] at hrest
    have hpos : σ.pos ≠ endPos up length := fun hlast => by
      rw [h.room_eq_zero.mpr hlast] at hn
      cases hn
    obtain ⟨h₁, hnext, hbest, hroom⟩ := h.shift hn hshift
    have h₂ := h₁.note s₁.size
    have hbest₂ : (σ₁.note s₁.size (config.allowed s₁.size)).best = min σ.best s₁.size := by
      rw [note_best, hbest]
    rw [hnext]
    -- The sweep stops where the size exceeds what is allowed, or goes on from the next place.
    rcases hrest with ⟨hlt, rfl, rfl, rfl⟩ | hrest
    · rw [h₂.bound, hbest₂] at hlt
      refine ⟨?_, h₂⟩
      rw [note_pos, hnext, hbest₂]
      exact .stopped hpos (Config.exceeds_of_allowed_lt hlt)
    · have hroom₂ : (σ₁.note s₁.size (config.allowed s₁.size)).room up = n := by
        rwa [Sifting.room, note_row, note_pos]
      obtain ⟨hway, h'⟩ := ih h₂ hconfig₁ hroom₂ hrest
      rw [note_pos, hnext, hbest₂] at hway
      exact ⟨.on hpos hway, h'⟩

/-- In each direction, a block that is sifted goes on to the end of the row, unless the size that has
just been reached is more than a fifth above the least one so far, or comes near to a limit of the
store. -/
theorem siftBlock_ways (hfind : row.findIdx? (fun b => b.vars.head? == some key) = some pos)
    (h : siftBlock row key s = .ok row' s') :
    ∃ (first second : List Stop) (up : Bool) (pos₁ best₁ pos₂ best₂ : Nat),
      siftLogged row key s = .ok (row', first, second) s' ∧ up = decide (pos ≤ row.size / 2) ∧
      Way up row.size s.manager.config.Exceeds pos s.size first pos₁ best₁ ∧
      Way (!up) row.size s.manager.config.Exceeds pos₁ best₁ second pos₂ best₂ := by
  obtain ⟨first, second, hlogged⟩ := exists_siftLogged h
  obtain ⟨_, σ₁, σ₂, _, _, s₁, s₂, _, up, rfl, hup, hsweep₁, hsweep₂, -⟩ := siftLogged_parts hfind hlogged
  obtain ⟨hlt, -⟩ := Array.findIdx?_eq_some_iff_getElem.mp hfind
  have hstart : Sifting.Fits s.manager.config row.size
      ⟨row, pos, s.size, pos, s.manager.config.allowed s.size⟩ := ⟨rfl, hlt, rfl⟩
  obtain ⟨hfirst, h₁⟩ := hstart.way rfl rfl hsweep₁
  have hstays := ((Guided.sweep _ _ _).walks.walk (sweep_ok hsweep₁)).stays
  have hconfig₁ : s₁.manager.config = s.manager.config := by rw [hstays.manager]
  obtain ⟨hsecond, -⟩ := h₁.way hconfig₁ rfl hsweep₂
  exact ⟨first, second, up, _, _, _, _, hlogged, hup, hfirst, hsecond⟩

end Reordering

namespace Manager

open Reordering

/-- The implication of one variable by the equivalence of two others has one more node if the first one
is not above the others.  This is no fifth more, so the block goes on from there. -/
theorem siftBlock_ways_equivalence :
    ∃ m s row' s₂ pos₂ best₂, after (.small 16 0) [.setVarNum 3, .apply .biimp 4 6,
        .apply .imp 8 2, .protect 10] = some m ∧ m.openSession = some s ∧
      siftLogged #[.single 0, .single 1, .single 2] 0 s = .ok (row', [], [⟨1, 11⟩, ⟨2, 11⟩]) s₂ ∧
      Way true 3 s.manager.config.Exceeds 0 10 [] 0 10 ∧
      Way false 3 s.manager.config.Exceeds 0 10 [⟨1, 11⟩, ⟨2, 11⟩] pos₂ best₂ := by
  have hrun : (after (.small 16 0) [.setVarNum 3, .apply .biimp 4 6, .apply .imp 8 2,
      .protect 10]).any fun m => m.openSession.any fun s => s.size = 10 &&
        (s.result? (siftLogged #[.single 0, .single 1, .single 2] 0)).any fun r =>
          r.1.2 = ([], [⟨1, 11⟩, ⟨2, 11⟩]) := by
    decide +kernel
  obtain ⟨m, s, hm, hs, hrun⟩ := exists_openSession hrun
  simp only [Bool.and_eq_true, decide_eq_true_eq] at hrun
  obtain ⟨hsize, hrun⟩ := hrun
  obtain ⟨⟨row', stops⟩, s₂, hlogged, hends⟩ := Session.exists_result hrun
  obtain rfl : stops = ([], [⟨1, 11⟩, ⟨2, 11⟩]) := of_decide_eq_true hends
  have hfind : (#[.single 0, .single 1, .single 2] : Array Block).findIdx?
      (fun b => b.vars.head? == some 0) = some 0 := by decide +kernel
  obtain ⟨first, second, up, pos₁, best₁, pos₂, best₂, hlogged', rfl, hfirst, hsecond⟩ :=
    siftBlock_ways hfind (siftBlock_ok hlogged)
  obtain ⟨h, -⟩ := EStateM.Result.ok.inj (hlogged.symm.trans hlogged')
  cases h
  rw [hsize] at hfirst
  have hstart := hfirst
  cases hstart with
  | arrived => exact ⟨m, s, row', s₂, pos₂, best₂, hm, hs, hlogged, hfirst, hsecond⟩

/-- Here the store may grow by twelve nodes at once, and to 24 at most.  So the block turns back at eleven
nodes, which are not more than a fifth above ten. -/
theorem siftBlock_cut_short :
    ∃ m s row' s₂, after { Config.small 20 24 with maxIncrease := 12 } [.setVarNum 3,
        .apply .biimp 4 6, .apply .imp 8 2, .protect 10] = some m ∧ m.openSession = some s ∧
      s.size = 10 ∧ s.manager.order.toList = [0, 1, 2] ∧
      siftBlock #[.single 0, .single 1, .single 2] 0 s = .ok row' s₂ ∧ s₂.Unsaturated ∧
      siftLogged #[.single 0, .single 1, .single 2] 0 s = .ok (row', [], [⟨1, 11⟩]) s₂ ∧
      ¬ ∃ (first second : List Stop) (up : Bool) (pos₁ best₁ pos₂ best₂ : Nat),
        siftLogged #[.single 0, .single 1, .single 2] 0 s = .ok (row', first, second) s₂ ∧
        Way up 3 (fun best now => best + best / 5 < now) 0 s.size first pos₁ best₁ ∧
        Way (!up) 3 (fun best now => best + best / 5 < now) pos₁ best₁ second pos₂ best₂ := by
  have hrun : (after { Config.small 20 24 with maxIncrease := 12 } [.setVarNum 3, .apply .biimp 4 6,
      .apply .imp 8 2, .protect 10]).any fun m => m.openSession.any fun s =>
        (s.size = 10 && s.manager.order.toList = [0, 1, 2]) &&
          (s.result? (siftLogged #[.single 0, .single 1, .single 2] 0)).any fun r =>
            r.1.2 = ([], [⟨1, 11⟩]) && r.2.Unsaturated := by
    decide +kernel
  obtain ⟨m, s, hm, hs, hrun⟩ := exists_openSession hrun
  simp only [Bool.and_eq_true, decide_eq_true_eq] at hrun
  obtain ⟨⟨hsize, horder⟩, hrun⟩ := hrun
  obtain ⟨⟨row', stops⟩, s₂, hlogged, hends⟩ := Session.exists_result hrun
  simp only [Bool.and_eq_true, decide_eq_true_eq] at hends
  obtain ⟨rfl, hu⟩ := hends
  refine ⟨m, s, row', s₂, hm, hs, hsize, horder, siftBlock_ok hlogged, hu, hlogged, ?_⟩
  rintro ⟨first, second, up, pos₁, best₁, pos₂, best₂, hlogged', hfirst, hsecond⟩
  obtain ⟨h, -⟩ := EStateM.Result.ok.inj (hlogged.symm.trans hlogged')
  cases h
  rw [hsize] at hfirst
  -- The block has not moved up, and down by one position.
  cases hfirst with
  | arrived hup =>
    cases up with
    | false => cases hup
    | true =>
      cases hsecond with
      | stopped _ hexceeds => exact absurd hexceeds (by decide)
      | on _ hway =>
        cases hway with
        | arrived hlast => exact absurd hlast (by decide)

end Manager

end DecisionDiagram
