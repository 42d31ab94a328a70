/-
Stamps come round.

The results of renamings and substitutions are kept by the stamps of the pairings, which have 32 bits.
They stay until a collection or a reordering, which no update of a pairing brings about.  So after 2 ^ 32
updates a result by old entries can be taken for one by new entries, and that is why the statements on
renaming, on substitution and on the computed tables ask for fewer.

* `Pairings.nextStamp_eq_iff` — when two updates give the same stamp;
* `Manager.follow_resets` — what any number of resets does to a manager;
* `Manager.stamp_returns` — a pairing has its old stamp again, and the computed tables are as they were;
* `Manager.replace_stale` — a renaming that is answered by an entry that was replaced long ago.
-/
import DecisionDiagram.Proofs.Renaming

namespace DecisionDiagram

namespace Pairings

variable {p p' : Pairings} {number : Nat} {identity : Array NodeId}

/-- Two updates give the same stamp if a multiple of 2 ^ 32 updates lies between them, and only then. -/
theorem nextStamp_eq_iff : p.nextStamp = p'.nextStamp ↔ p.updates % 2 ^ 32 = p'.updates % 2 ^ 32 := by
  rw [nextStamp, nextStamp, ← UInt32.toNat_inj]
  simp only [UInt32.toNat_ofNat']
  omega

/-- The pairings after some resets of one of them. -/
def resets (p : Pairings) (number : Nat) (identity : Array NodeId) (n : Nat) : Pairings :=
  { tables := p.tables.modify number fun _ => ⟨identity, none, UInt32.ofNat (p.updates + n)⟩
    updates := p.updates + n }

theorem reset?_eq (h : number < p.tables.size) :
    p.reset? number identity = some (p.resets number identity 1) := by
  rw [reset?, update?, if_pos h]
  rfl

theorem size_resets (n : Nat) : (p.resets number identity n).tables.size = p.tables.size :=
  Array.size_modify

/-- Of several resets, only the last one shows. -/
theorem resets_resets (k n : Nat) :
    (p.resets number identity k).resets number identity n = p.resets number identity (k + n) := by
  have htables : (p.tables.modify number fun _ => ⟨identity, none, UInt32.ofNat (p.updates + k)⟩).modify
      number (fun _ => ⟨identity, none, UInt32.ofNat (p.updates + k + n)⟩) =
        p.tables.modify number fun _ => ⟨identity, none, UInt32.ofNat (p.updates + k + n)⟩ := by
    ext i
    · simp only [Array.size_modify]
    · simp only [Array.getElem_modify]
      split <;> rfl
  rw [resets, resets, resets, htables, Nat.add_assoc]

end Pairings

namespace Manager

variable {m : Manager} {number : Nat}

theorem run_resetPairing (h : number < m.pairings.tables.size) :
    (Command.resetPairing number).run m =
      (.ok .done, { m with pairings := m.pairings.resets number m.identity 1 }) := by
  have hreset : (resetPairing number) m =
      .ok () { m with pairings := m.pairings.resets number m.identity 1 } := by
    rw [resetPairing, updatePairings, Pairings.reset?_eq h]
  simp only [Command.run, Command.perform, bind, EStateM.bind, hreset]
  rfl

theorem run_resetPairing_again (n : Nat) (h : number < m.pairings.tables.size) :
    (Command.resetPairing number).run { m with pairings := m.pairings.resets number m.identity n } =
      (.ok .done, { m with pairings := m.pairings.resets number m.identity (n + 1) }) := by
  rw [run_resetPairing ((Pairings.size_resets n).symm ▸ h)]
  exact congrArg (fun p => (Except.ok Answer.done, { m with pairings := p })) (Pairings.resets_resets n 1)

/-- Any number of resets changes the one pairing and its stamp, and nothing else. -/
theorem follow_resets {n : Nat} (hn : 0 < n) (h : number < m.pairings.tables.size) :
    m.follow (List.replicate n (.resetPairing number)) =
      some { m with pairings := m.pairings.resets number m.identity n } := by
  induction n, hn using Nat.le_induction with
  | base =>
    rw [List.replicate_one, follow_ok (run_resetPairing h)]
    rfl
  | succ n hn ih =>
    rw [List.replicate_succ', follow_append, ih, Option.bind_some,
      follow_ok (run_resetPairing_again n h)]
    rfl

theorem run_setPair {old new : Var} {level : Level} {pos neg : NodeId}
    (h : number < m.pairings.tables.size) (hlevel : m.order.levelOf[old]? = some level)
    (hold : old < m.varNum) (hnew : new < m.varNum) (hliteral : m.literals[new]? = some (pos, neg)) :
    ∃ p, (Command.setPair number old new).run m = (.ok .done, { m with pairings := p }) ∧
      m.pairings.set? number level pos = some p := by
  obtain ⟨p, hp⟩ : ∃ p, m.pairings.set? number level pos = some p := Pairings.exists_update h _
  have hset : setPair number old new m = .ok () { m with pairings := p } := by
    have hlevelOf : m.levelOf old = .ok level := by
      rw [levelOf, hlevel]
    simp only [setPair, updatePairings, bind, EStateM.bind, Action.read, checkVar, if_pos hold,
      if_pos hnew, hlevelOf, hliteral, Option.bind, hp]
  refine ⟨p, ?_, hp⟩
  simp only [Command.run, Command.perform, bind, EStateM.bind, hset]
  rfl

/-- Let a pairing have the stamp of the latest update.  After 2 ^ 32 further updates it has this stamp again
with other entries, whichever variable is renamed then, while everything else, the computed tables
included, is as before. -/
theorem stamp_returns {t : Pairing} {old new : Var} (hm : m.Settled)
    (ht : m.pairings.tables[number]? = some t) (hlatest : t.stamp = UInt32.ofNat m.pairings.updates)
    (hold : old < m.varNum) (hnew : new < m.varNum) :
    ∃ p t', m.follow (List.replicate (2 ^ 32 - 1) (.resetPairing number) ++
        [.setPair number old new]) = some { m with pairings := p } ∧
      p.tables[number]? = some t' ∧ t'.stamp = t.stamp ∧
      Renames { m with pairings := p } number (Function.update id old new) := by
  have h : number < m.pairings.tables.size := (Array.getElem?_eq_some_iff.mp ht).1
  have haligned := hm.ready.aligned
  obtain ⟨level, hlevel, -, -, -⟩ := haligned.order.getD_levelOf hold
  obtain ⟨⟨pos, neg⟩, hliteral⟩ : ∃ q, m.literals[new]? = some q :=
    ⟨_, Array.getElem?_eq_getElem (haligned.literals_size.symm ▸ hnew)⟩
  -- The resets: the last one leaves a pairing in which every variable stands for itself.
  set before := { m with pairings := m.pairings.resets number m.identity (2 ^ 32 - 2) } with hbefore
  set reset := { m with pairings := m.pairings.resets number m.identity (2 ^ 32 - 1) } with hreset
  have hsettled : before.Settled := hm.follow (follow_resets (by decide) h)
  have hlast : (Command.resetPairing number).run before = (.ok .done, reset) :=
    run_resetPairing_again (2 ^ 32 - 2) h
  obtain ⟨p, hset, hp⟩ := run_setPair (m := reset) ((Pairings.size_resets _).symm ▸ h) hlevel hold hnew
    hliteral
  have hrenames : Renames { m with pairings := p } number (Function.update id old new) :=
    .set (.reset hsettled hlast) hset
  obtain ⟨t', ht'⟩ : ∃ t', p.tables[number]? = some t' :=
    ⟨_, Array.getElem?_eq_getElem hrenames.renaming.known⟩
  refine ⟨p, t', ?_, ht', ?_, hrenames⟩
  · rw [follow_append, follow_resets (by decide) h, Option.bind_some, follow_ok hset]
    rfl
  · rcases Pairings.getElem?_update hp ht' with ⟨hne, -⟩ | ⟨-, _, -, heq⟩
    · exact absurd rfl hne
    · rw [heq, hlatest]
      show UInt32.ofNat (m.pairings.updates + (2 ^ 32 - 1) + 1) = _
      rw [← UInt32.toNat_inj, UInt32.toNat_ofNat', UInt32.toNat_ofNat']
      omega

/-- The first variable was renamed to the second one once.  Long after that it is to be renamed to the
third one, and becomes the second one again. -/
theorem replace_stale : ∃ m₀ m π, after (.small 8 64)
      [.setVarNum 3, .newPairing, .setPair 0 0 1, .replace 2 0] = some m₀ ∧
    m₀.follow (List.replicate (2 ^ 32 - 1) (.resetPairing 0) ++ [.setPair 0 0 2]) = some m ∧
    m.Renames 0 π ∧ π 0 = 2 ∧ m.positive? 0 = some 2 ∧ m.positive? 1 = some 4 ∧
    m.positive? 2 = some 6 ∧ ((Command.replace 2 0).run m).1 = .ok (.node 4) := by
  have hrun : (after (.small 8 64) [.setVarNum 3, .newPairing, .setPair 0 0 1, .replace 2 0]).any
      fun m₀ =>
        let reset : Manager :=
          { m₀ with pairings := m₀.pairings.resets 0 m₀.identity (2 ^ 32 - 1) }
        let m := ((Command.setPair 0 0 2).run reset).2
        m₀.varNum == 3 && m₀.pairings.updates == 2 &&
        m₀.pairings.tables[0]?.map (·.stamp) == some 2 && (Command.setPair 0 0 2).failure? reset == none &&
        m.positive? 0 == some 2 && m.positive? 1 == some 4 && m.positive? 2 == some 6 &&
        (Command.replace 2 0).node? m == some 4 := by
    decide +kernel
  obtain ⟨m₀, hm₀, hfacts⟩ := (Option.any_eq_true _ _).mp hrun
  simp only [Bool.and_eq_true, beq_iff_eq] at hfacts
  obtain ⟨⟨⟨⟨⟨⟨⟨hvar, hupdates⟩, hstamp⟩, hset⟩, hfirst⟩, hsecond⟩, hthird⟩, hnode⟩ := hfacts
  obtain ⟨t, ht, hstamp⟩ := Option.map_eq_some_iff.mp hstamp
  obtain ⟨p, -, hfollow, -, -, hrenames⟩ := stamp_returns (settled_after hm₀) ht
    (by rw [hstamp, hupdates]; rfl) (by rw [hvar]; decide : 0 < m₀.varNum)
    (by rw [hvar]; decide : 2 < m₀.varNum)
  -- The manager that the run leads to is the one in which the calls were looked at.
  have hend := hfollow
  rw [follow_append, follow_resets (by decide) (Array.getElem?_eq_some_iff.mp ht).1, Option.bind_some,
    follow_one (Command.ne_fault_of_failure? (by rw [hset]; simp)) (fun h => by cases h)] at hend
  rw [← Option.some.inj hend] at hrenames hfollow
  exact ⟨m₀, _, _, hm₀, hfollow, hrenames, rfl, hfirst, hsecond, hthird, Command.run_of_node? hnode⟩

end Manager

end DecisionDiagram
