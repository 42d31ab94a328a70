/-
A pass that is repeated until it leaves the size comes to an end.

The repetition goes on while the size differs from what it was, whether it is smaller or larger.  But a
pass never ends with a larger size than it began with, so there are no more passes than nodes, as long as
no count is saturated.  If counts are, the nodes that stay for this reason make up for the nodes that are
gained, as there cannot be more and more of them.

* `Reordering.Passing` — the first passes over a row, each of which changes the size;
* `Passing.repeatWhile` — the repetition makes these passes, and goes on from there;
* `Passing.le`, `.potential_le` — each of them makes a number smaller;
* `Passing.exists_last` — so there is a last one, which leaves the size or fails;
* `Manager.Settled.passes_end` — the methods that repeat a pass, in a session.
-/
import DecisionDiagram.Proofs.Counts
import DecisionDiagram.Proofs.Reorder.Termination

namespace DecisionDiagram

namespace Reordering

open Session

/-- The pass that a method repeats. -/
inductive Repeats : ReorderMethod → (Array Block → Reordering (Array Block)) → Prop
  | win2 : Repeats .win2ite win2
  | win3 : Repeats .win3ite win3
  | sift : Repeats .siftite sift

/-- The first `n` passes over a row, each of which has changed the size, lead to this row and this
session. -/
inductive Passing (pass : Array Block → Reordering (Array Block)) (row : Array Block) (s : Session) :
    Nat → Array Block → Session → Prop
  | start : Passing pass row s 0 row s
  | again {n : Nat} {row₁ row₂ : Array Block} {s₁ s₂ : Session} (h : Passing pass row s n row₁ s₁)
    (hpass : pass row₁ s₁ = .ok row₂ s₂) (hchanged : s₂.size ≠ s₁.size) :
    Passing pass row s (n + 1) row₂ s₂

variable {pass : Array Block → Reordering (Array Block)} {method : ReorderMethod} {A B : List Var}
  {row row₁ row₂ : Array Block} {n : Nat} {s s₁ s₂ : Session}

theorem Repeats.permute (h : Repeats method pass) (row : Array Block) :
    permute method row = repeatWhile pass UInt64.size row := by
  cases h <;> rfl

theorem Repeats.improving (h : Repeats method pass) : Improving pass := by
  cases h with
  | win2 => exact .win2
  | win3 => exact .win3
  | sift => exact .sift

/-- Only sifting asks for the first variable of each block. -/
theorem Repeats.answers (h : Repeats method pass) (hl : s.Lays A row B)
    (hne : method = .siftite → ∀ b ∈ row, b.vars ≠ []) : Answers s (pass row) := by
  cases h with
  | win2 => exact .win2 hl
  | win3 => exact .win3 hl
  | sift => exact Answering.sift A B row s hl (hne rfl)

theorem Repeats.walks (h : Repeats method pass) (row : Array Block) : Walks (pass row) := by
  cases h with
  | win2 => exact (Guided.win2 row).walks
  | win3 => exact (Guided.win3 row).walks
  | sift => exact (Guided.sift row).walks

/-! ### The passes of a repetition -/

theorem repeatWhile_again (hpass : pass row s = .ok row₁ s₁) (hchanged : s₁.size ≠ s.size) (n : Nat) :
    repeatWhile pass (n + 1) row s = repeatWhile pass n row₁ s₁ := by
  show (pass row >>= _) s = _
  rw [run_bind hpass]
  show (if s₁.size = s.size then _ else _ : Reordering _) s₁ = _
  rw [if_neg hchanged]

theorem repeatWhile_last (hlast : ∀ row₁ s₁, pass row s = .ok row₁ s₁ → s₁.size = s.size) (n : Nat) :
    repeatWhile pass (n + 1) row s = pass row s := by
  show (pass row >>= _) s = _
  rcases hpass : pass row s with ⟨row₁, s₁⟩ | ⟨e, s₁⟩
  · rw [run_bind hpass]
    show (if s₁.size = s.size then _ else _ : Reordering _) s₁ = _
    rw [if_pos (hlast _ _ hpass)]
    rfl
  · exact run_bind_error hpass _

theorem Passing.repeatWhile (h : Passing pass row s n row₁ s₁) (k : Nat) :
    repeatWhile pass (n + k) row s = repeatWhile pass k row₁ s₁ := by
  induction h generalizing k with
  | start => rw [Nat.zero_add]
  | again _ hpass hchanged ih =>
    rw [Nat.add_assoc, Nat.add_comm 1 k, ih (k + 1), repeatWhile_again hpass hchanged]

theorem Passing.improves (h : Passing pass row s n row₁ s₁) (hp : Improving pass)
    (hl : s.Lays A row B) : Improves A B row row₁ s s₁ := by
  induction h with
  | start => exact .refl hl
  | again _ hpass _ ih => exact ih.trans (hp _ _ _ _ _ _ ih.lays hpass)

/-- Each pass has removed a node. -/
theorem Passing.le (h : Passing pass row s n row₁ s₁) (hp : Improving pass) (hl : s.Lays A row B)
    (hu : s₁.Unsaturated) : n + s₁.size ≤ s.size := by
  induction h with
  | start => rw [Nat.zero_add]
  | again h hpass hchanged ih =>
    have hi := hp _ _ _ _ _ _ (h.improves hp hl).lays hpass
    have hle := hi.toShrinks.size hu
    have := ih ((hi.walk.advances hi.sound).unsaturated hu)
    omega

theorem Passing.potential_le (h : Passing pass row s n row₁ s₁) (hp : Improving pass)
    (hl : s.Lays A row B) : n + s₁.potential ≤ s.potential := by
  induction h with
  | start => rw [Nat.zero_add]
  | again h hpass hchanged ih =>
    have hi := hp _ _ _ _ _ _ (h.improves hp hl).lays hpass
    have hlt := hi.toShrinks.potential_lt hchanged
    omega

/-- Some pass leaves the size as it was, or fails.  The passes that a repetition is allowed are more than
there are before it. -/
theorem Passing.exists_last (h : Passing pass row s n row₁ s₁) (hp : Improving pass)
    (hl : s.Lays A row B) : ∃ n row₂ s₂, Passing pass row s n row₂ s₂ ∧ n < UInt64.size ∧
      ∀ row₃ s₃, pass row₂ s₂ = .ok row₃ s₃ → s₃.size = s₂.size := by
  induction hk : s₁.potential using Nat.strong_induction_on generalizing n row₁ s₁ with
  | _ k ih =>
    by_cases hlast : ∀ row₂ s₂, pass row₁ s₁ = .ok row₂ s₂ → s₂.size = s₁.size
    · have hn : n ≤ s.potential := (Nat.le_add_right _ _).trans (h.potential_le hp hl)
      exact ⟨n, row₁, s₁, h, hn.trans_lt hl.sound.potential_lt, hlast⟩
    · -- There is another pass, which makes the potential smaller.
      simp only [not_forall] at hlast
      obtain ⟨row₂, s₂, hpass, hchanged⟩ := hlast
      have hi := hp _ _ _ _ _ _ (h.improves hp hl).lays hpass
      exact ih _ (hk ▸ hi.toShrinks.potential_lt hchanged) (h.again hpass hchanged) rfl

/-- The repetition has the result of its last pass. -/
theorem Passing.permute (h : Passing pass row s n row₁ s₁) (hr : Repeats method pass)
    (hn : n < UInt64.size) (hlast : ∀ row₂ s₂, pass row₁ s₁ = .ok row₂ s₂ → s₂.size = s₁.size) :
    permute method row s = pass row₁ s₁ := by
  obtain ⟨k, hk⟩ := Nat.exists_eq_add_of_lt hn
  rw [hr.permute, hk, Nat.add_assoc, h.repeatWhile, repeatWhile_last hlast]

end Reordering

namespace Manager

open Reordering (Repeats Passing)

variable {m m₀ : Manager}

/-- At every point of a session, a method that repeats a pass over a row of blocks comes to an end: after
passes that each change the size, there is one that leaves the size, or fails because there is no room.
(Sifting may also fail at a block without variables.)  The result is that of the last pass.  As long as
no count is saturated, no pass ends with a larger size, so each but the last removes a node. -/
theorem Settled.passes_end (hm : m.Settled) (hb : m.Begins m₀) {roots : List NodeId}
    (hroots : ∀ r, r ∈ roots ↔ r ∈ m₀.rootNodes) {s s₁ : Session}
    (hs : Session.start m₀ roots = some s) (hw : s.Walk s₁) {A B : List Var} {row : Array Block}
    (hrow : s₁.manager.order.toList = A ++ row.toList.flatMap (·.vars) ++ B) {method : ReorderMethod}
    {pass : Array Block → Reordering (Array Block)} (hr : Repeats method pass) :
    (∃ n row₂ s₂, Passing pass row s₁ n row₂ s₂ ∧
      Reordering.permute method row s₁ = pass row₂ s₂ ∧
      (∀ row₃ s₃, pass row₂ s₂ = .ok row₃ s₃ → s₃.size = s₂.size) ∧
      ∀ e s₃, pass row₂ s₂ = .error e s₃ →
        e = .error .nodeLimit ∨ (method = .siftite ∧ ∃ b ∈ row, b.vars = [])) ∧
    ∀ n row₂ s₂, Passing pass row s₁ n row₂ s₂ →
      (s₂.Unsaturated → n + s₂.size ≤ s₁.size) ∧
      ∀ row₃ s₃, pass row₂ s₂ = .ok row₃ s₃ → s₃.Unsaturated → s₃.size ≤ s₂.size := by
  have hsound := ((hm.begins hb).start hroots hs).1
  have hl : s₁.Lays A row B := ⟨(hw.advances hsound).sound, hrow⟩
  have hp := hr.improving
  refine ⟨?_, fun n row₂ s₂ h => ⟨h.le hp hl, fun row₃ s₃ hpass hu => ?_⟩⟩
  · obtain ⟨n, row₂, s₂, h, hn, hlast⟩ := Passing.start.exists_last hp hl
    refine ⟨n, row₂, s₂, h, h.permute hr hn hlast, hlast, fun e s₃ hfail => ?_⟩
    have hi := h.improves hp hl
    rcases e with e | _
    · have hwalk := hr.walks row₂ s₂
      rw [Reordering.Ensures, hfail] at hwalk
      exact .inl (congrArg Failure.error hwalk.1)
    · refine .inr (by_contra fun hne => ?_)
      refine hr.answers hi.lays (fun hsift b hb hvars => ?_) s₃ hfail
      exact hne ⟨hsift, b, hi.mem_row.mp hb, hvars⟩
  · exact (hp _ _ _ _ _ _ (h.improves hp hl).lays hpass).toShrinks.size hu

/-- A pass over three variables that puts the second one on top removes two nodes, so there is another
pass. -/
theorem passes_end_choice :
    ∃ m s n row₂ s₂ row₃ s₃, after (.small 16 0) [.setVarNum 3, .makeNode 1 6 1, .makeNode 1 6 0,
        .makeNode 0 9 8, .protect 10] = some m ∧
      m.openSession = some s ∧ s.size = 11 ∧
      Passing Reordering.win2 #[.single 0, .single 1, .single 2] s n row₂ s₂ ∧ 0 < n ∧
      Reordering.permute .win2ite #[.single 0, .single 1, .single 2] s = .ok row₃ s₃ ∧
      s₂.size = 9 ∧ s₃.size = 9 := by
  have hrun : (after (.small 16 0) [.setVarNum 3, .makeNode 1 6 1, .makeNode 1 6 0, .makeNode 0 9 8,
      .protect 10]).any fun m => m.openSession.any fun s =>
        (s.size = 11 && s.manager.order.toList = [0, 1, 2]) &&
          (s.result? (Reordering.permute .win2ite #[.single 0, .single 1, .single 2])).any
            fun r => r.2.size = 9 := by
    decide +kernel
  obtain ⟨m, s, hm, hs, hrun⟩ := exists_openSession hrun
  simp only [Bool.and_eq_true, decide_eq_true_eq] at hrun
  obtain ⟨⟨hsize, horder⟩, hrun⟩ := hrun
  obtain ⟨row₃, s₃, hpermute, hsmall⟩ := Session.exists_result hrun
  have hsmall : s₃.size = 9 := of_decide_eq_true hsmall
  have hrow : s.manager.order.toList =
      [] ++ (#[.single 0, .single 1, .single 2] : Array Block).toList.flatMap (·.vars) ++ [] := horder
  obtain ⟨⟨n, row₂, s₂, hpassing, hloop, hlast, -⟩, -⟩ :=
    (settled_after hm).passes_end .asked (fun _ => .rfl) hs .refl hrow .win2
  have hsteady := hlast row₃ s₃ (hloop.symm.trans hpermute)
  refine ⟨m, s, n, row₂, s₂, row₃, s₃, hm, hs, hsize, hpassing, ?_, hpermute, by omega, hsmall⟩
  -- The first pass cannot have been the last one.
  cases hpassing with
  | start => omega
  | again => exact Nat.succ_pos _

end Manager

end DecisionDiagram
