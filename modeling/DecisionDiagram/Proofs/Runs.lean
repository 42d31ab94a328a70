/-
Runs: several commands in turn.

A run ends early at a command that ends in a fault, or that asks for more variables than there is
room for.  What is left of such a run are the managers that the statements about all commands do not
speak of.

* `Manager.Settled.follow` — a run from a settled manager leads to a settled one;
* `Manager.settled_iff_after` — the settled managers are those that a run from a new one leads to.
-/
import DecisionDiagram.Command

namespace DecisionDiagram

/-- A configuration for short runs: a store of few slots that can grow up to a limit, and computed
tables of one entry each. -/
def Config.small (capacity limit : Nat) : Config where
  nodeCapacity := capacity
  maxNodes := limit
  cacheBits := 0

namespace Command

/-- Why a command fails in a manager, if it does. -/
def failure? (c : Command) (m : Manager) : Option Failure :=
  match (c.run m).1 with
  | .error e => some e
  | .ok _ => none

theorem ne_fault_of_failure? {c : Command} {m : Manager} (h : c.failure? m ≠ some .fault) :
    (c.run m).1 ≠ .error .fault := by
  intro hfault
  rw [failure?, hfault] at h
  exact h rfl

theorem run_of_failure? {c : Command} {m : Manager} {e : Failure} (h : c.failure? m = some e) :
    (c.run m).1 = .error e := by
  unfold failure? at h
  split at h
  · obtain rfl := Option.some.inj h
    assumption
  · cases h

/-- A command that does not fail has an answer. -/
theorem ok_of_failure? {c : Command} {m : Manager} (h : c.failure? m = none) :
    ∃ answer, (c.run m).1 = .ok answer := by
  unfold failure? at h
  split at h
  · cases h
  · exact ⟨_, by assumption⟩

/-- The node that a command answers in a manager, if it does. -/
def node? (c : Command) (m : Manager) : Option NodeId :=
  match (c.run m).1 with
  | .ok (.node id) => some id
  | _ => none

theorem run_of_node? {c : Command} {m : Manager} {id : NodeId} (h : c.node? m = some id) :
    (c.run m).1 = .ok (.node id) := by
  unfold node? at h
  split at h
  · obtain rfl := Option.some.inj h
    assumption
  · cases h

end Command

namespace Manager

/-- The manager after a list of commands, if none of them ends in a fault or asks for more
variables than there is room for. -/
def follow (m : Manager) : List Command → Option Manager
  | [] => some m
  | c :: rest =>
    match c.run m with
    | (.error .fault, _) => none
    | (.error (.error .nodeLimit), m') => if c.isExtension then none else m'.follow rest
    | (_, m') => m'.follow rest

/-- The manager after a list of commands, which start with a new manager. -/
def after (config : Config) (commands : List Command) : Option Manager :=
  match create config with
  | .error _ => none
  | .ok m => m.follow commands

variable {m m' : Manager} {commands : List Command}

/-- A run is a first call and a run after it. -/
theorem follow_cons {c : Command} (h : m.follow (c :: commands) = some m') :
    (c.run m).1 ≠ .error .fault ∧
      (c.isExtension = true → (c.run m).1 ≠ .error (.error .nodeLimit)) ∧
      (c.run m).2.follow commands = some m' := by
  rw [Manager.follow] at h
  split at h
  · cases h
  · rename_i hr
    split at h
    · cases h
    · rename_i hext
      rw [hr]
      exact ⟨by simp, fun he => absurd he hext, h⟩
  · rename_i r m₁ hfault hlimit hr
    rw [hr]
    exact ⟨hfault, fun _ => hlimit, h⟩

/-- A run goes on after a first call that has an answer. -/
theorem follow_ok {c : Command} {answer : Answer} {m₁ : Manager} (h : c.run m = (.ok answer, m₁)) :
    m.follow (c :: commands) = m₁.follow commands := by rw [Manager.follow, h]

theorem Settled.follow (hm : m.Settled) (h : m.follow commands = some m') : m'.Settled := by
  induction commands generalizing m with
  | nil =>
    obtain rfl := Option.some.inj h
    exact hm
  | cons c rest ih =>
    obtain ⟨hfault, hext, hrest⟩ := follow_cons h
    exact ih (.call c hm hfault hext) hrest

theorem follow_append (rest : List Command) :
    m.follow (commands ++ rest) = (m.follow commands).bind (·.follow rest) := by
  induction commands generalizing m with
  | nil => rfl
  | cons c commands ih =>
    rw [List.cons_append, Manager.follow, Manager.follow]
    split
    · rfl
    · split
      · rfl
      · exact ih
    · exact ih

/-- A single command is a run, unless the run ends with it. -/
theorem follow_one {c : Command} (h : (c.run m).1 ≠ .error .fault)
    (complete : c.isExtension = true → (c.run m).1 ≠ .error (.error .nodeLimit)) :
    m.follow [c] = some (c.run m).2 := by
  rw [Manager.follow]
  split
  · rename_i heq
    exact absurd (congrArg Prod.fst heq) h
  · rename_i heq
    split
    · rename_i hext
      exact absurd (congrArg Prod.fst heq) (complete hext)
    · rw [heq]
      rfl
  · rename_i heq
    rw [heq]
    rfl

theorem settled_after {config : Config} (h : after config commands = some m) : m.Settled := by
  rw [after] at h
  split at h
  · cases h
  · rename_i hcreate
    exact (Settled.create hcreate).follow h

/-- The settled managers are those that a run leads to. -/
theorem settled_iff_after :
    m.Settled ↔ ∃ config commands, after config commands = some m := by
  constructor
  · intro hm
    induction hm with
    | @create config m h =>
      refine ⟨config, [], ?_⟩
      rw [after, h]
      rfl
    | call c _ h complete ih =>
      obtain ⟨config, commands, hafter⟩ := ih
      refine ⟨config, commands ++ [c], ?_⟩
      rw [after] at hafter ⊢
      split at hafter
      · cases hafter
      · rw [follow_append, hafter]
        exact follow_one h complete
  · rintro ⟨config, commands, h⟩
    exact settled_after h

end Manager

end DecisionDiagram
