/-
A window of three tries all orders of its blocks.

Five exchanges lead through the six orders of three blocks, and each order has one size in a session.  So
the first best order on the way is a best one, and the exchanges after it can be taken back.

* `orders` — the orders of three blocks as a window goes through them; `mem_orders` — there are no others;
* `stage_orders` — after so many steps, the blocks of the window stand in that order;
* `window`, `refilled` — the blocks of a window, and a row with other blocks in their place;
* `Manager.Settled.window_least` — a window of three leaves its blocks in a best order.
-/
import Mathlib.Data.List.Permutation
import DecisionDiagram.Proofs.Counts
import DecisionDiagram.Proofs.Reorder.Window

namespace DecisionDiagram

namespace Reordering

open Session

variable {α : Type} {a b c : α} {X Y : List α} {p : List Block} {row : Array Block} {i k : Nat}

/-! ### The orders of three blocks -/

/-- The orders of three blocks, each an exchange of two adjacent ones away from the next. -/
def orders (a b c : α) : List (List α) :=
  [[a, b, c], [a, c, b], [c, a, b], [c, b, a], [b, c, a], [b, a, c]]

theorem mem_orders {p : List α} : p ∈ orders a b c ↔ p.Perm [a, b, c] := by
  rw [← List.mem_permutations']
  simp only [orders, List.permutations', List.permutations'Aux, List.flatMap_cons, List.flatMap_nil,
    List.map_cons, List.map_nil, List.append_nil, List.mem_cons, List.mem_append, List.not_mem_nil,
    or_false]
  tauto

/-- The upper two blocks of a window change places. -/
theorem swap_upper :
    (X ++ a :: b :: c :: Y).toArray.swapIfInBounds (X.length + 0) (X.length + 0 + 1) =
      (X ++ b :: a :: c :: Y).toArray := swap_adjacent X a b (c :: Y)

/-- The lower two blocks of a window change places. -/
theorem swap_lower :
    (X ++ a :: b :: c :: Y).toArray.swapIfInBounds (X.length + 1) (X.length + 1 + 1) =
      (X ++ a :: c :: b :: Y).toArray := by
  have h := swap_adjacent (X ++ [a]) b c Y
  rwa [List.length_append, List.length_singleton, List.append_assoc, List.append_assoc] at h

theorem stage_orders {a b c : Block} {X Y : List Block} (hk : (orders a b c)[k]? = some p) :
    stage (X ++ a :: b :: c :: Y).toArray X.length win3Steps k = (X ++ p ++ Y).toArray := by
  have hlt : k < 6 := (List.getElem?_eq_some_iff.mp hk).1
  match k, hlt with
  | 0, _ | 1, _ | 2, _ | 3, _ | 4, _ | 5, _ =>
    obtain rfl := Option.some.inj hk
    simp only [stage, exchanges, win3Steps, List.take, List.map, List.foldl, swap_upper, swap_lower,
      List.append_assoc, List.cons_append, List.nil_append]

/-! ### Windows in a row -/

/-- The blocks of the window of three that starts at `i`. -/
def window (row : Array Block) (i : Nat) : List Block := (row.toList.drop i).take 3

/-- The row with other blocks in the place of the window of three that starts at `i`. -/
def refilled (row : Array Block) (i : Nat) (p : List Block) : Array Block :=
  (row.toList.take i ++ p ++ row.toList.drop (i + 3)).toArray

theorem window_append {a b c : Block} {X Y : List Block} :
    window (X ++ a :: b :: c :: Y).toArray X.length = [a, b, c] := by
  simp [window]

theorem refilled_append {a b c : Block} {X Y : List Block} :
    refilled (X ++ a :: b :: c :: Y).toArray X.length p = (X ++ p ++ Y).toArray := by
  have hdrop : (X ++ a :: b :: c :: Y).drop (X.length + 3) = Y := by simp [List.drop_append]
  rw [refilled, List.take_left, hdrop]

theorem exists_window (hi : i + 3 ≤ row.size) :
    ∃ X a b c Y, X.length = i ∧ row = (X ++ a :: b :: c :: Y : List Block).toArray := by
  have hlt : i + 2 < row.toList.length := hi
  have hmid := Nat.lt_of_succ_lt hlt
  have hfirst := Nat.lt_of_succ_lt hmid
  refine ⟨row.toList.take i, row.toList[i], row.toList[i + 1], row.toList[i + 2],
    row.toList.drop (i + 3), ?_, ?_⟩
  · rw [List.length_take, Nat.min_eq_left (Nat.le_of_lt hfirst)]
  · rw [← List.drop_eq_getElem_cons hlt, ← List.drop_eq_getElem_cons hmid,
      ← List.drop_eq_getElem_cons hfirst, List.take_append_drop]

/-- The rows on the way through a window are those with its blocks in some order. -/
theorem exists_refilled (hi : i + 3 ≤ row.size) (hk : k ≤ win3Steps.length) :
    ∃ p, p.Perm (window row i) ∧ stage row i win3Steps k = refilled row i p ∧
      (k = 0 → p = window row i) := by
  obtain ⟨X, a, b, c, Y, rfl, rfl⟩ := exists_window hi
  have hlt : k < (orders a b c).length := Nat.lt_succ_of_le hk
  have hp := List.getElem?_eq_getElem hlt
  refine ⟨(orders a b c)[k], ?_, ?_, ?_⟩
  · rw [window_append]
    exact mem_orders.mp (List.getElem_mem hlt)
  · rw [stage_orders hp, refilled_append]
  · rintro rfl
    exact window_append.symm

/-- Every order of the blocks of a window is met. -/
theorem exists_stage (hi : i + 3 ≤ row.size) (hp : p.Perm (window row i)) :
    ∃ k, k ≤ win3Steps.length ∧ stage row i win3Steps k = refilled row i p := by
  obtain ⟨X, a, b, c, Y, rfl, rfl⟩ := exists_window hi
  rw [window_append] at hp
  obtain ⟨k, hk⟩ := List.mem_iff_getElem?.mp (mem_orders.mpr hp)
  have hlt : k < (orders a b c).length := (List.getElem?_eq_some_iff.mp hk).1
  exact ⟨k, Nat.le_of_lt_succ hlt, by rw [stage_orders hk, refilled_append]⟩

end Reordering

namespace Manager

open Reordering

variable {m m₀ : Manager}

/-- At every point of a session, a window of three leaves its blocks in one of their orders, and all
other blocks where they were; the variables within each block keep their order.  The size is the least
that the session has for any order of these blocks, if no count is saturated, and the blocks stay as they
were unless this makes the session smaller.  Each of the orders has been met, and the session has the
size that was met there whenever it has the order. -/
theorem Settled.window_least (hm : m.Settled) (hb : m.Begins m₀) {roots : List NodeId}
    (hroots : ∀ r, r ∈ roots ↔ r ∈ m₀.rootNodes) {s s₁ s₂ : Session}
    (hs : Session.start m₀ roots = some s) (hw : s.Walk s₁) {A B : List Var} {row row' : Array Block}
    (hrow : s₁.manager.order.toList = A ++ row.toList.flatMap (·.vars) ++ B) {i : Nat}
    (hi : i + 3 ≤ row.size) (h : win3At row i s₁ = .ok row' s₂) (hu : s₂.Unsaturated) :
    s₂.manager.order.toList = A ++ row'.toList.flatMap (·.vars) ++ B ∧
    (∃ p, p.Perm (window row i) ∧ row' = refilled row i p ∧
      (s₂.size < s₁.size ∨ (s₂.size = s₁.size ∧ p = window row i))) ∧
    ∀ q, q.Perm (window row i) → ∃ n, s₂.size ≤ n ∧ s₁.Passed A (refilled row i q) B n s₂ ∧
      ∀ t, s.Walk t → t.Unsaturated →
        t.manager.order.toList = A ++ (refilled row i q).toList.flatMap (·.vars) ++ B → t.size = n := by
  have hsound := ((hm.begins hb).start hroots hs).1
  have hs₁ := (hw.advances hsound).sound
  obtain ⟨best, bestStep, s₃, hv, hback, rfl, hl⟩ := win3At_ok ⟨hs₁, hrow⟩ h
  have hw₂ := hv.walk.trans hback
  -- No more nodes stay than at the start, so the size on the way is the size at the end.
  have hbest : s₂.size = best :=
    (hv.passed.walk hback).size_eq hs₁ hl (hw₂.holding_eq hs₁ hu).le
  refine ⟨hl.order, ?_, fun q hq => ?_⟩
  · obtain ⟨p, hp, hrefilled, hstart⟩ := exists_refilled hi hv.within
    refine ⟨p, hp, hrefilled, ?_⟩
    rw [hbest]
    exact hv.better.imp_right fun ⟨hzero, hsame⟩ => ⟨hsame, hstart hzero⟩
  · obtain ⟨k, hk, hstage⟩ := exists_stage hi hq
    obtain ⟨n, hn, hp⟩ := hv.least k hk
    rw [hstage] at hp
    exact ⟨n, hbest.trans_le hn, hp.walk hback, fun t ht hut ho =>
      (hp.walk hback).size_eq_of_order hsound hw hu ht hut ho⟩

/-- The factors of two conjunctions are apart, and a block of two variables is in the way of the lower
two. -/
theorem window_least_conjunctions :
    ∃ m s row' s₂, after (.small 32 0) [.setVarNum 5, .apply .and 2 8, .apply .and 4 10,
        .apply .or 12 13, .protect 16] = some m ∧ m.openSession = some s ∧
      win3At #[.single 0, ⟨[1, 2], false, []⟩, .single 3, .single 4] 1 s = .ok row' s₂ ∧
      s₂.Unsaturated ∧ row'.toList.map (·.vars) = [[0], [3], [4], [1, 2]] ∧
      s.size = 16 ∧ s₂.size = 15 ∧ s₂.manager.order.toList = [0, 3, 4, 1, 2] ∧
      ∀ q, q.Perm [⟨[1, 2], false, []⟩, .single 3, .single 4] → ∃ n, 15 ≤ n ∧
        s.Passed [] (refilled #[.single 0, ⟨[1, 2], false, []⟩, .single 3, .single 4] 1 q) [] n s₂ := by
  have hrun : (after (.small 32 0) [.setVarNum 5, .apply .and 2 8, .apply .and 4 10, .apply .or 12 13,
      .protect 16]).any fun m => m.openSession.any fun s =>
        (s.size = 16 && s.manager.order.toList = [0, 1, 2, 3, 4]) &&
          (s.result? (win3At #[.single 0, ⟨[1, 2], false, []⟩, .single 3, .single 4] 1)).any fun r =>
            (r.2.Unsaturated && r.2.size = 15) && r.1.toList.map (·.vars) = [[0], [3], [4], [1, 2]] := by
    decide +kernel
  obtain ⟨m, s, hm, hs, hrun⟩ := exists_openSession hrun
  simp only [Bool.and_eq_true, decide_eq_true_eq] at hrun
  obtain ⟨⟨hsize, horder⟩, hrun⟩ := hrun
  obtain ⟨row', s₂, hwindow, hends⟩ := Session.exists_result hrun
  simp only [Bool.and_eq_true, decide_eq_true_eq] at hends
  obtain ⟨⟨hu, hsize₂⟩, hrow'⟩ := hends
  have hrow : s.manager.order.toList = [] ++ (#[.single 0, ⟨[1, 2], false, []⟩, .single 3,
      .single 4] : Array Block).toList.flatMap (·.vars) ++ [] := horder
  obtain ⟨horder₂, -, hleast⟩ := (settled_after hm).window_least .asked (fun _ => .rfl) hs .refl hrow
    (Nat.le_refl _) hwindow hu
  refine ⟨m, s, row', s₂, hm, hs, hwindow, hu, hrow', hsize, hsize₂, ?_, fun q hq => ?_⟩
  · rw [horder₂, List.flatMap_def, hrow']
    rfl
  · obtain ⟨n, hn, hp, -⟩ := hleast q hq
    exact ⟨n, hsize₂ ▸ hn, hp⟩

end Manager

end DecisionDiagram
