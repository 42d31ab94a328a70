/-
Interruptions: a call is interrupted at most once, and not at all while the automatic reordering is
switched off.

* `Command.automatic`, `Manager.automatic` — the sessions that start by themselves in a command, and in
  a run of commands;
* `Manager.Reachable.interrupted_once` — no call leaves anything pending, a program that starts over
  is not interrupted again, and no more sessions start by themselves than were allowed.
-/
import DecisionDiagram.Proofs.Frames
import DecisionDiagram.Proofs.Runs

namespace DecisionDiagram

variable {m m' : Manager}

namespace Command

/-- The sessions that start by themselves in a command. -/
def automatic (c : Command) (m : Manager) : Nat :=
  if c.asks then 0 else (c.run m).2.counters.reorders - m.counters.reorders

/-- The sessions that start by themselves are taken off the number that is left. -/
theorem automatic_le {c : Command} (ha : c.arms = false) (h : (c.run m).1 ≠ .error .fault) {n : Nat}
    (hn : m.auto.times = some n) :
    ∃ n', (c.run m).2.auto.times = some n' ∧ c.automatic m + n' ≤ n := by
  unfold automatic
  rcases hr : c.request? with _ | r
  · have hrests := within_run (restful hr ha) h
    refine ⟨n, hrests.times.trans hn, ?_⟩
    split
    · omega
    · rename_i hasks
      rw [hrests.reorders (Bool.eq_false_iff.mpr hasks)]
      omega
  · have haccounts := within_run (within_operator hr) h
    rcases haccounts.sessions with ⟨hreorders, htimes⟩ | ⟨hreorders, hleft, htimes⟩
    · refine ⟨n, htimes.trans hn, ?_⟩
      split <;> omega
    · have hpos : n ≠ 0 := fun h0 => hleft (by rw [hn, h0])
      refine ⟨n - 1, by rw [htimes, hn]; rfl, ?_⟩
      split <;> omega

end Command

namespace Manager

/-- The sessions that start by themselves in a run, which ends with a fault, if there is one. -/
def automatic (m : Manager) : List Command → Nat
  | [] => 0
  | c :: rest =>
    match c.run m with
    | (.error .fault, _) => 0
    | (_, m') => c.automatic m + m'.automatic rest

theorem automatic_le {commands : List Command} (hc : ∀ c ∈ commands, c.arms = false) {n : Nat}
    (hn : m.auto.times = some n) : m.automatic commands ≤ n := by
  induction commands generalizing m n with
  | nil => exact Nat.zero_le n
  | cons c rest ih =>
    rw [automatic]
    split
    · exact Nat.zero_le n
    · rename_i m' hne heq
      have hrun : (c.run m).1 ≠ .error .fault := by
        rw [heq]
        exact hne
      obtain ⟨n', hn', hle⟩ := Command.automatic_le (hc c (by simp)) hrun hn
      rw [heq] at hn'
      dsimp only at hn' ⊢
      have := ih (fun c hm => hc c (by simp [hm])) hn'
      omega

/-- Abort and restart.  An operator call runs one session at most, whatever happens in it, and leaves
the automatic reordering switched on or off as it was and nothing kept.  A program that starts over, or
that runs while the automatic reordering is switched off, is not interrupted.  Once a number of times
has been set, no more sessions start by themselves. -/
theorem Reachable.interrupted_once (hm : m.Reachable) :
    (∀ (c : Command) (r : Request), c.request? = some r → (c.run m).1 ≠ .error .fault →
      (c.run m).2.counters.reorders ≤ m.counters.reorders + 1 ∧
      (c.run m).2.auto.disabled = m.auto.disabled ∧
      (c.run m).2.pending = [] ∧ (c.run m).2.operands = []) ∧
    (∀ (operands : List NodeId) (p : Program NodeId) (m₁ m₂ m' : Manager),
      attempt operands p m = .error .reorder m₁ → autoReorder operands m₁ = .ok () m₂ →
      attempt operands p { m₂ with auto := m₂.auto.disable } ≠ .error .reorder m') ∧
    (∀ (operands : List NodeId) (p : Program NodeId) (m' : Manager),
      attempt operands p (m.barred true) ≠ .error .reorder m') ∧
    (∀ (count : Nat) (m' : Manager),
      Build.addVariables count { m with pending := [], auto := m.auto.disable } ≠
        .error .reorder m') ∧
    ∀ (method : ReorderMethod) (n : Nat) (commands : List Command),
      (∀ c ∈ commands, c.arms = false) →
      ((Command.setAutoReorder method (some n)).run m).2.automatic commands ≤ n := by
  refine ⟨fun c r hr h => ?_, fun operands p m₁ m₂ m' _ _ => ?_, fun operands p m' => ?_,
    fun count m' => ?_, fun method n commands hc => automatic_le hc rfl⟩
  · have haccounts := Command.within_run (Command.within_operator hr) h
    obtain ⟨hpending, hoperands⟩ := haccounts.idle hm.idle
    refine ⟨?_, haccounts.disabled, hpending, hoperands⟩
    rcases haccounts.sessions with ⟨hreorders, -⟩ | ⟨hreorders, -⟩ <;> omega
  · exact attempt_ne_reorder operands p (AutoReorder.isArmed_disable m₂.auto)
  · exact attempt_ne_reorder operands p (AutoReorder.isArmed_disable m.auto)
  · exact (Build.Steady.addVariables count).ne_reorder (AutoReorder.isArmed_disable m.auto)

/-- The store has no room for the conjunction, and one session is all that was allowed. -/
theorem interrupted_once_conjunction :
    ∃ m m', after (.small 8 64) [.setVarNum 3] = some m ∧
      after (.small 8 64) [.setVarNum 3, .setAutoReorder .win2 (some 1)] = some m' ∧
      ((Command.apply .and 2 4).run m').2.counters.reorders = m'.counters.reorders + 1 ∧
      ((Command.setAutoReorder .win2 (some 1)).run m).2.automatic
        [.apply .and 2 4, .apply .xor 4 6] = 1 := by
  have hrun : ((after (.small 8 64) [.setVarNum 3, .setAutoReorder .win2 (some 1)]).any fun m' =>
      (Command.apply .and 2 4).failure? m' = none &&
        m'.counters.reorders < ((Command.apply .and 2 4).run m').2.counters.reorders) = true ∧
      ((after (.small 8 64) [.setVarNum 3]).any fun m =>
        0 < ((Command.setAutoReorder .win2 (some 1)).run m).2.automatic
          [.apply .and 2 4, .apply .xor 4 6]) = true := by
    decide +kernel
  obtain ⟨hinterrupted, hautomatic⟩ := hrun
  obtain ⟨m', hm', hinterrupted⟩ := (Option.any_eq_true _ _).mp hinterrupted
  obtain ⟨m, hm, hautomatic⟩ := (Option.any_eq_true _ _).mp hautomatic
  rw [Bool.and_eq_true, decide_eq_true_eq, decide_eq_true_eq] at hinterrupted
  rw [decide_eq_true_eq] at hautomatic
  have hne : ((Command.apply .and 2 4).run m').1 ≠ .error .fault :=
    Command.ne_fault_of_failure? (by rw [hinterrupted.1]; simp)
  have hone := (((settled_after hm').reachable.interrupted_once).1 (.apply .and 2 4) _ rfl hne).1
  have hall := ((settled_after hm).reachable.interrupted_once).2.2.2.2 .win2 1
    [.apply .and 2 4, .apply .xor 4 6] (by simp [Command.arms])
  exact ⟨m, m', hm, hm', by omega, by omega⟩

end Manager

end DecisionDiagram
