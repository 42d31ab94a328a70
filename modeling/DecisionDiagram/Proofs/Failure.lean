/-
An exchange that fails changes nothing.

Room for all nodes that an exchange may make is reserved before a node is touched, and afterwards
nothing can fail.  So a session whose work breaks off can be closed.

* `Session.Sound.vardown_cases` — a variable moves down, or there is no room and all is as it was;
* `Manager.Settled.failure_harmless` — the failure and the end of the session.
-/
import DecisionDiagram.Proofs.Canonicity
import DecisionDiagram.Proofs.Sessions

namespace DecisionDiagram

open Reordering (Starved)

theorem Session.Sound.vardown_cases {s : Session} (h : s.Sound) {v : Var}
    (hv : v < s.manager.varNum) :
    (∃ s', Reordering.vardown v s = .ok () s') ∨
      ∃ s', Reordering.vardown v s = .error (.error .nodeLimit) s' ∧ Starved s v s' := by
  obtain ⟨level, hl, -⟩ := h.order.getD_levelOf hv
  rcases (Reordering.Achieves.vardown h hl).cases with ⟨⟨⟩, s', hx, -⟩ | hfail
  · exact .inl ⟨s', hx⟩
  · exact .inr hfail

namespace Manager

variable {m m₀ m' : Manager}

/-- A session whose work fails for want of room reports this, and it stands from then on. -/
theorem session_eq_nodeLimit {body : Reordering Unit} {s s' : Session} {stats : ReorderStats}
    (hs : Session.start m m.rootNodes = some s) (hbody : body s = .error (.error .nodeLimit) s')
    (hf : s'.finish = some (stats, m')) :
    session body m = .error (.error .nodeLimit) { m' with error := some .nodeLimit } := by
  rw [session, hs]
  simp only [hbody, hf]
  rfl

/-- If a session reports that there is no room, its work has failed, and then it was closed. -/
theorem of_session_nodeLimit {body : Reordering Unit}
    (h : session body m = .error (.error .nodeLimit) m') :
    ∃ s s' stats m₁, Session.start m m.rootNodes = some s ∧
      body s = .error (.error .nodeLimit) s' ∧ s'.finish = some (stats, m₁) ∧
      m' = { m₁ with error := some .nodeLimit } := by
  rw [session] at h
  rcases hs : Session.start m m.rootNodes with _ | s
  · rw [hs] at h
    cases h
  · rw [hs] at h
    dsimp only at h
    rcases hbody : body s with ⟨_, s'⟩ | ⟨e | _, s'⟩
    · rw [hbody] at h
      dsimp only at h
      split at h <;> cases h
    · rw [hbody] at h
      rcases hf : s'.finish with _ | ⟨stats, m₁⟩
      · simp only [hf] at h
        cases h
      · simp only [hf] at h
        obtain ⟨he, rfl⟩ := EStateM.Result.error.inj h
        cases he
        exact ⟨s, s', stats, m₁, rfl, hbody, hf, rfl⟩
    · rw [hbody] at h
      cases h

/-- At every point of a session, whatever order the roots were traced in, a variable can be moved down,
unless there is no room for the nodes that this may make.  Then the session is the one that the vain
attempt to make room has left: the records, the live nodes, the counts, the table, the order and the
pairings are as before.  It can be closed, with all nodes that the manager names as they were, and a
session that breaks off there reports that there is no room. -/
theorem Settled.failure_harmless (hm : m.Settled) (hb : m.Begins m₀) {roots : List NodeId}
    (hroots : ∀ r, r ∈ roots ↔ r ∈ m₀.rootNodes) {s s₁ : Session}
    (hs : Session.start m₀ roots = some s) (hw : s.Walk s₁) {v : Var}
    (hv : v < s₁.manager.varNum) :
    ((∃ s₂, Reordering.vardown v s₁ = .ok () s₂) ∨
      ∃ s₂, Reordering.vardown v s₁ = .error (.error .nodeLimit) s₂) ∧
    (∀ n s₂, s₁.table.count? v = some n → Reordering.reserve (2 * n) s₁ = .ok () s₂ →
      ∃ s₃, Reordering.vardown v s₁ = .ok () s₃) ∧
    ∀ e s₂, Reordering.vardown v s₁ = .error e s₂ → Starved s₁ v s₂ ∧
      ∃ stats m', s₂.finish = some (stats, m') ∧ m₀.Rearranged m' ∧ m'.validateAll = .ok () ∧
        ∀ body : Reordering Unit, roots = m₀.rootNodes → body s = .error e s₂ →
          session body m₀ = .error e { m' with error := some .nodeLimit } := by
  have hm₀ := hm.begins hb
  have hsound := (hm₀.start hroots hs).1
  have h₁ := (hw.advances hsound).sound
  have hcases := h₁.vardown_cases hv
  refine ⟨hcases.imp_right fun ⟨s₂, hx, _⟩ => ⟨s₂, hx⟩, fun n s₂ hn hreserve => ?_,
    fun e s₂ hfail => ?_⟩
  · refine hcases.resolve_right ?_
    rintro ⟨s₃, -, -, n', hn', hfull⟩
    obtain rfl := Option.some.inj (hn.symm.trans hn')
    rw [hreserve] at hfull
    cases hfull
  · obtain ⟨s₃, hx, hstarved⟩ := hcases.resolve_left fun ⟨s₃, hx⟩ => by
      rw [hfail] at hx
      cases hx
    obtain ⟨rfl, rfl⟩ := EStateM.Result.error.inj (hfail.symm.trans hx)
    have ha := hstarved.roomier.advances h₁
    obtain ⟨stats, m', hfinish, hsound', -⟩ := ha.sound.exists_finish
    refine ⟨hstarved, stats, m', hfinish, ?_, hsound'.validateAll_eq_ok, ?_⟩
    · exact hm₀.rearranged hroots hs (fun h => (hw.advances h).trans ha) hfinish
    · rintro body rfl hbody
      exact session_eq_nodeLimit hs hbody hfinish

/-- The store grows to its limit of twelve nodes, but eight more might be needed. -/
theorem failure_harmless_crowded :
    ∃ m s s₂ m', after (.small 10 12) [.setVarNum 3, .apply .and 2 4, .protect 8, .apply .or 2 4,
        .protect 9] = some m ∧
      m.openSession = some s ∧ s.table.count? 0 = some 4 ∧
      Reordering.reserve 8 s = .error (.error .nodeLimit) s₂ ∧ s₂.table = s.table ∧
      session (Reordering.vardown 0) { m with pending := [] } = .error (.error .nodeLimit) m' ∧
      m'.validateAll = .ok () := by
  have hrun : (after (.small 10 12) [.setVarNum 3, .apply .and 2 4, .protect 8, .apply .or 2 4,
      .protect 9]).any fun m => m.openSession.any fun s =>
        s.table.count? 0 == some 4 && (s.moves [.down 0]).isNone && 0 < s.manager.varNum := by
    decide +kernel
  obtain ⟨m, hm, hrun⟩ := (Option.any_eq_true _ _).mp hrun
  obtain ⟨s, hs, hrun⟩ := (Option.any_eq_true _ _).mp hrun
  simp only [Bool.and_eq_true, beq_iff_eq, decide_eq_true_eq, Option.isNone_iff_eq_none] at hrun
  obtain ⟨⟨hcount, hfails⟩, hvar⟩ := hrun
  obtain ⟨hends, -, hfailure⟩ :=
    (settled_after hm).failure_harmless .asked (fun _ => .rfl) hs .refl hvar
  rcases hends with ⟨s₂, hx⟩ | ⟨s₂, hx⟩
  · simp [Session.moves, Move.run, hx] at hfails
  · obtain ⟨⟨hroom, n, hn, hreserve⟩, stats, m', -, hm', hvalid, hsession⟩ := hfailure _ s₂ hx
    obtain rfl := Option.some.inj (hcount.symm.trans hn)
    refine ⟨m, s, s₂, _, hm, hs, hcount, hreserve, hroom.table, hsession _ rfl hx, ?_⟩
    exact hm'.setError.sound.validateAll_eq_ok

end Manager

end DecisionDiagram
