/-
Sessions between and within calls, and what one move achieves in them.

* `Manager.Begins` — the managers in which a session is opened;
* `Manager.openSession`, `Session.moves`, `.search`, `.result?` — a session that is opened between two
  calls, and moves, a search or other work in it;
* `Manager.reorder_ok` — a search that is asked for is one in such a session;
* `Manager.Settled.move_sound` — a move exchanges two adjacent variables, if any, and leaves a reduced
  diagram in which all nodes that stay have their values.
-/
import DecisionDiagram.Proofs.Commands
import DecisionDiagram.Proofs.Runs

namespace DecisionDiagram

/-- The session after a list of moves, if none of them fails. -/
def Session.moves : List Move → Session → Option Session
  | [], s => some s
  | move :: rest, s =>
    match move.run s with
    | .ok _ s' => s'.moves rest
    | .error _ _ => none

theorem Session.moves_cons {move : Move} {rest : List Move} {s s' : Session}
    (h : s.moves (move :: rest) = some s') :
    ∃ s₁, move.run s = .ok () s₁ ∧ s₁.moves rest = some s' := by
  rw [Session.moves] at h
  split at h
  · exact ⟨_, by assumption, h⟩
  · cases h

/-- The session after a search, if that ends with a result. -/
def Session.search (method : ReorderMethod) (s : Session) : Option Session :=
  match Reordering.reorderAll method s with
  | .ok _ s' => some s'
  | .error _ _ => none

theorem Session.search_eq {method : ReorderMethod} {s s' : Session} (h : s.search method = some s') :
    Reordering.reorderAll method s = .ok () s' := by
  rw [search] at h
  split at h
  · obtain rfl := Option.some.inj h
    assumption
  · cases h

/-- The result of the work and the session after it, if it has a result. -/
def Session.result? {α : Type} (x : Reordering α) (s : Session) : Option (α × Session) :=
  match x s with
  | .ok a s' => some (a, s')
  | .error _ _ => none

theorem Session.exists_result {α : Type} {x : Reordering α} {p : α × Session → Bool} {s : Session}
    (h : (s.result? x).any p = true) : ∃ a s', x s = .ok a s' ∧ p (a, s') = true := by
  obtain ⟨⟨a, s'⟩, hx, hp⟩ := (Option.any_eq_true _ _).mp h
  rw [result?] at hx
  split at hx
  · cases hx
    exact ⟨_, _, by assumption, hp⟩
  · cases hx

namespace Manager

variable {m m₀ : Manager}

/-- A session that is opened between two calls. -/
def openSession (m : Manager) : Option Session :=
  Session.start { m with pending := [] } (rootNodes { m with pending := [] })

/-- A run leads to a manager in which a session can be opened. -/
theorem exists_openSession {config : Config} {commands : List Command} {p : Session → Bool}
    (h : ((after config commands).any fun m => m.openSession.any p) = true) :
    ∃ m s, after config commands = some m ∧ m.openSession = some s ∧ p s = true := by
  obtain ⟨m, hm, h⟩ := (Option.any_eq_true _ _).mp h
  obtain ⟨s, hs, hp⟩ := (Option.any_eq_true _ _).mp h
  exact ⟨m, s, hm, hs, hp⟩

/-- A search among two variables or more opens a session, does its work and closes the session. -/
theorem reorder_ok {method : ReorderMethod} {stats : ReorderStats} {m' : Manager}
    (hmethod : method ≠ .off) (hvar : 1 < m.varNum) :
    reorder method m = .ok stats m' ↔
      ∃ s s', m.openSession = some s ∧ Reordering.reorderAll method s = .ok () s' ∧
        s'.finish = some (stats, m') := by
  have hidle : ¬ (decide (method = .off) || decide (m.varNum < 2)) = true := by
    simp [hmethod, Nat.not_lt.mpr hvar]
  have hreorder : reorder method m =
      session (Reordering.reorderAll method) { m with pending := [] } := if_neg hidle
  rw [hreorder, session]
  rcases hs : m.openSession with _ | s
  · rw [show Session.start _ _ = none from hs]
    simp
  · rw [show Session.start _ _ = some s from hs]
    dsimp only
    rcases hx : Reordering.reorderAll method s with ⟨_, s'⟩ | ⟨e | _, s'⟩
    · dsimp only
      rcases hf : s'.finish with _ | ⟨stats', m''⟩
      · simp [hx, hf]
      · simp [hx, hf]
    · dsimp only
      rcases hf : s'.finish with _ | ⟨stats', m''⟩
      · simp [hx]
      · simp [hx]
    · simp [hx]

/-- A session that is opened in the manager `m` or in the course of an operator call in it: a change
of the order is asked for, or an operator is interrupted because one is due. -/
inductive Begins (m : Manager) : Manager → Prop
  | asked : Begins m { m with pending := [] }
  | due {c : Command} {r : Request} {operands : List NodeId} {p : Program NodeId} {exclusive : Bool}
    {m₁ : Manager} (hrequest : c.request? = some r) (hcheck : r.check m = .ok ())
    (htask : r.task = .perform operands p exclusive) (hnodes : m.checkNodes operands = .ok ())
    (hattempt : attempt operands p (m.barred exclusive) = .error .reorder m₁) :
    Begins m (m₁.equip operands)

theorem Settled.begins (hm : m.Settled) (hb : m.Begins m₀) : m₀.Sound := by
  have hready := hm.ready
  cases hb with
  | asked => exact (Action.completes_clear hready).ready.toSound
  | @due c r operands p exclusive m₁ hrequest hcheck htask hnodes hattempt =>
    have hr := Command.fulfilled hrequest m hready hcheck
    rw [htask] at hr
    have ho := checkNodes_ok hready.toSound hnodes
    obtain ⟨hc, he⟩ := completes_barred hready operands exclusive
    obtain ⟨-, hc₁, -⟩ := Action.attempt_error hc.ready (hc.live hready ho) (hr ho _ hc he) hattempt
    exact hc₁.ready.toSound.equip (hc₁.live hc.ready (hc.live hready ho))

/-- A session at some point of its work. -/
theorem Settled.walk (hm : m.Settled) (hb : m.Begins m₀) {s s' : Session}
    (hs : Session.start m₀ m₀.rootNodes = some s) (hw : s.Walk s') :
    s.Sound ∧ Reordering.Advances s s' := by
  have hsound := ((hm.begins hb).start (fun _ => .rfl) hs).1
  exact ⟨hsound, hw.advances hsound⟩

/-- A move exchanges the variable with its neighbour, if it has one, and nothing else in the order.
Every node that stays live has the values that it had.  The diagram is reduced and ordered by the new
levels, no record occurs twice, and every variable has a region of the table with its nodes. -/
theorem Settled.move_sound (hm : m.Settled) (hb : m.Begins m₀) {s s₁ s₂ : Session}
    (hs : Session.start m₀ m₀.rootNodes = some s) (hw : s.Walk s₁) {move : Move}
    (hmove : move.run s₁ = .ok () s₂) :
    move.Changes s₁.manager.order s₂.manager.order ∧
      (∀ id, s₁.diagram.Live id → s₂.diagram.Live id → ∀ a : Var → Bool,
        ∃ b, s₁.diagram.Eval a id b ∧ s₂.diagram.Eval a id b) ∧
      s₂.diagram.Reduced s₂.rank s₂.manager.varNum ∧
      s₂.table.regions.size = s₂.manager.varNum ∧
      (∀ v region, s₂.table.regions[v]? = some region → ∀ id,
        id ∈ s₂.table.members region ↔ ∃ n, s₂.diagram id = some n ∧ n.level = v) ∧
      s₂.table.Holds s₂.manager.store.nodes fun id => (s₂.diagram id).isSome = true := by
  have h₁ := (hm.walk hb hs hw).2.sound
  have hmoved := Reordering.Ensures.move h₁ move
  rw [Reordering.Ensures, hmove] at hmoved
  obtain ⟨hswap, hchanges⟩ := hmoved
  have htable : s₂.table.Holds s₂.manager.store.nodes fun id => (s₂.diagram id).isSome = true :=
    hswap.sound.table.congr fun id => by simp
  refine ⟨hchanges, fun id hid hid' a => ?_, hswap.sound.reduced, hswap.sound.regions, ?_, htable⟩
  · obtain ⟨b, hb⟩ := h₁.reduced.exists_eval h₁.rank_lt a hid
    exact ⟨b, hb, hswap.value hid' hb⟩
  · intro v region hr id
    rw [htable.mem_members hr]
    constructor
    · rintro ⟨hsome, hl⟩
      exact (Reordering.labelled_iff hsome).mp hl
    · rintro ⟨n, hn, hv⟩
      have hsome : (s₂.diagram id).isSome = true := by rw [hn]; rfl
      exact ⟨hsome, (Reordering.labelled_iff hsome).mpr ⟨n, hn, hv⟩⟩

/-- Of two conjunctions, one branches on the first and the last variable after the move, and has the
same values. -/
theorem move_sound_conjunctions :
    ∃ m s s₂, after (.small 32 32) [.setVarNum 4, .apply .and 2 4, .apply .and 6 8,
        .apply .or 10 11, .protect 13] = some m ∧
      m.openSession = some s ∧ (Move.down 1).run s = .ok () s₂ ∧
      s.diagram 12 = some ⟨1, 11, 1⟩ ∧ s₂.diagram 12 = some ⟨2, 4, 10⟩ ∧
      ∀ a : Var → Bool, ∃ b, s.diagram.Eval a 12 b ∧ s₂.diagram.Eval a 12 b := by
  have hrun : (after (.small 32 32) [.setVarNum 4, .apply .and 2 4, .apply .and 6 8,
      .apply .or 10 11, .protect 13]).any fun m => m.openSession.any fun s =>
        s.diagram 12 == some ⟨1, 11, 1⟩ && (s.moves [.down 1]).any fun s₂ =>
          s₂.diagram 12 == some ⟨2, 4, 10⟩ := by
    decide +kernel
  obtain ⟨m, hm, hrun⟩ := (Option.any_eq_true _ _).mp hrun
  obtain ⟨s, hs, hrun⟩ := (Option.any_eq_true _ _).mp hrun
  rw [Bool.and_eq_true, beq_iff_eq] at hrun
  obtain ⟨hbefore, hrun⟩ := hrun
  obtain ⟨s₂, hmoves, hafter⟩ := (Option.any_eq_true _ _).mp hrun
  rw [beq_iff_eq] at hafter
  obtain ⟨s', hmove, hs'⟩ := Session.moves_cons hmoves
  obtain rfl := Option.some.inj hs'
  have hmoved := (settled_after hm).move_sound .asked hs .refl hmove
  exact ⟨m, s, s', hm, hs, hmove, hbefore, hafter,
    hmoved.2.1 12 (Diagram.live_of_eq_some hbefore) (Diagram.live_of_eq_some hafter)⟩

end Manager

end DecisionDiagram
