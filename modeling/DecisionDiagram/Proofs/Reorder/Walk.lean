/-
Sequences of moves in a session.

* `Session.Walk` — variables move up and down in turn, and some moves fail for want of room;
* `Walk.stays` — what no move touches, whatever the session it starts from;
* `Walk.advances` — a walk in a sound session leads to sound ones only.
-/
import DecisionDiagram.Proofs.Reorder.Swap

namespace DecisionDiagram

/-- A move of a variable by one level. -/
inductive Move
  | down (v : Var)
  | up (v : Var)

/-- The work that a move takes. -/
def Move.run : Move → Reordering Unit
  | down v => Reordering.vardown v
  | up v => Reordering.varup v

/-- How the order changes with a move. -/
def Move.Changes (o : VarOrder) : Move → VarOrder → Prop
  | down v => o.Lowers v
  | up v => o.Raises v

theorem Move.Changes.unique {move : Move} {o o₁ o₂ : VarOrder} (h₁ : move.Changes o o₁)
    (h₂ : move.Changes o o₂) (ho : o.Valid) : o₂ = o₁ := by
  cases move with
  | down v => exact VarOrder.Lowers.unique h₁ h₂ ho
  | up v => exact VarOrder.Raises.unique h₁ h₂ ho

namespace Session

/-- Moves in turn.  A move may fail, and others may follow. -/
inductive Walk (s : Session) : Session → Prop
  | refl : Walk s s
  | step {s' s'' : Session} {move : Move} (h : Walk s s') (hm : move.run s' = .ok () s'') : Walk s s''
  | fail {s' s'' : Session} {move : Move} (h : Walk s s')
      (hm : move.run s' = .error (.error .nodeLimit) s'') : Walk s s''

/-- What no move touches. -/
structure Stays (s s' : Session) : Prop where
  manager : s'.manager = { s.manager with
    store := s'.manager.store, order := s'.manager.order, pairings := s'.manager.pairings,
    counters := s'.manager.counters }
  reorders : s'.manager.counters.reorders = s.manager.counters.reorders
  updates : s'.manager.pairings.updates = s.manager.pairings.updates
  interactions : s'.interactions = s.interactions
  initialSize : s'.initialSize = s.initialSize

variable {s s' s'' : Session}

theorem Stays.refl (s : Session) : s.Stays s := ⟨rfl, rfl, rfl, rfl, rfl⟩

theorem Stays.trans (h : s.Stays s') (h' : s'.Stays s'') : s.Stays s'' :=
  ⟨by rw [h'.manager, h.manager], h'.reorders.trans h.reorders, h'.updates.trans h.updates,
    h'.interactions.trans h.interactions, h'.initialSize.trans h.initialSize⟩

theorem Walk.trans (h : s.Walk s') (h' : s'.Walk s'') : s.Walk s'' := by
  induction h' with
  | refl => exact h
  | step _ hm ih => exact .step ih hm
  | fail _ hm ih => exact .fail ih hm

end Session

namespace Reordering

open Session (Stays Walk)

variable {α β : Type} {s s' : Session}

/-! ### What no move touches -/

/-- However the work ends, it has left most of the session as it was.  It fails for want of room
only. -/
def Stable (x : Reordering α) : Prop :=
  ∀ s : Session, Ensures s x (fun _ s' => s.Stays s') fun s' => s.Stays s'

theorem Stable.pure (a : α) : Stable (Pure.pure a) := fun s => Ensures.pure (.refl s)

theorem Stable.nodeLimit : Stable (throw (Failure.error .nodeLimit) : Reordering α) := fun s =>
  ⟨rfl, .refl s⟩

theorem Stable.bind {x : Reordering α} {f : α → Reordering β} (hx : Stable x)
    (hf : ∀ a, Stable (f a)) : Stable (x >>= f) := fun s =>
  (hx s).bind fun a s' h => (hf a s').mono (fun _ _ h' => h.trans h') fun _ h' => h.trans h'

theorem Stable.get : Stable (MonadState.get : Reordering Session) := fun s => Stays.refl s

theorem Stable.expect (f : Session → Option α) : Stable (Reordering.expect f) := by
  intro s
  unfold Ensures Reordering.expect
  rcases f s with _ | a
  · trivial
  · exact .refl s

theorem Stable.update {f : Session → Session} (hf : ∀ s : Session, s.Stays (f s)) :
    Stable (modify f : Reordering Unit) := hf

theorem Stable.update_bind {f : Session → Session} {k : Unit → Reordering β}
    (hf : ∀ s : Session, s.Stays (f s)) (hk : Stable (k ())) :
    Stable ((modify f : Reordering Unit) >>= k) := (Stable.update hf).bind fun _ => hk

theorem Stable.forM {f : α → Reordering Unit} (hf : ∀ a, Stable (f a)) (l : List α) :
    Stable (l.forM f) := by
  induction l with
  | nil => exact .pure _
  | cons a l ih =>
    rw [List.forM_eq_forM, List.forM_cons]
    exact (hf a).bind fun _ => ih

theorem Stable.index (id : NodeId) : Stable (index id) := by
  refine (Stable.expect _).bind fun n => Stable.get.bind fun s => ?_
  have place : Stable ((Reordering.expect fun s => s.table.vacancy? s.manager.store.nodes id) >>=
      fun p => (modify fun s => { s with table := s.table.insertAt p.2 p.1 id } :
        Reordering Unit)) :=
    (Stable.expect _).bind fun _ => .update fun _ => ⟨rfl, rfl, rfl, rfl, rfl⟩
  dsimp only
  split
  · exact (Stable.expect _).bind fun t => .update_bind (fun _ => ⟨rfl, rfl, rfl, rfl, rfl⟩) place
  · exact place

theorem Stable.takeAll (v : Var) : Stable (takeAll v) :=
  (Stable.expect _).bind fun _ => Stable.get.bind fun _ =>
    .update_bind (fun _ => ⟨rfl, rfl, rfl, rfl, rfl⟩) (.pure _)

theorem Stable.grow : Stable grow := by
  refine Stable.get.bind fun s => ?_
  dsimp only
  split
  · exact .nodeLimit
  · exact .update fun _ => ⟨rfl, rfl, rfl, rfl, rfl⟩

theorem Stable.reserveWithin (n needed : Nat) : Stable (reserveWithin n needed) := by
  induction n with
  | zero => exact .pure _
  | succ n ih =>
    refine Stable.get.bind fun s => ?_
    split
    · exact Stable.grow.bind fun _ => ih
    · exact .pure _

theorem Stable.addRef (id : NodeId) : Stable (addRef id) := .update fun _ => ⟨rfl, rfl, rfl, rfl, rfl⟩

theorem Stable.dropRef (id : NodeId) : Stable (dropRef id) := .update fun _ => ⟨rfl, rfl, rfl, rfl, rfl⟩

theorem Stable.create (id : NodeId) (n : Node) : Stable (create id n) :=
  .update_bind (fun _ => ⟨rfl, rfl, rfl, rfl, rfl⟩) <| (Stable.index id).bind fun _ =>
    (Stable.addRef _).bind fun _ => .addRef _

theorem Stable.make (v : Var) (low high : NodeId) : Stable (make v low high) := by
  unfold Reordering.make
  split
  · exact (Stable.addRef low).bind fun _ => .pure _
  · refine (Stable.expect _).bind fun outcome => ?_
    split
    · exact (Stable.addRef _).bind fun _ => .pure _
    · refine Stable.get.bind fun s => ?_
      split
      · exact .nodeLimit
      · exact (Stable.create _ _).bind fun _ => .pure _

theorem Stable.rebuild (upper lower : Var) (id : NodeId) : Stable (rebuild upper lower id) :=
  (Stable.expect _).bind fun _ => (Stable.expect _).bind fun _ => (Stable.expect _).bind fun _ =>
    (Stable.make _ _ _).bind fun _ => (Stable.make _ _ _).bind fun _ =>
      (Stable.dropRef _).bind fun _ => (Stable.dropRef _).bind fun _ =>
        .update_bind (fun _ => ⟨rfl, rfl, rfl, rfl, rfl⟩) (.index id)

theorem Stable.reclaim (id : NodeId) : Stable (reclaim id) := by
  refine Stable.get.bind fun s => ?_
  split
  · exact .index id
  · exact (Stable.expect _).bind fun _ => (Stable.dropRef _).bind fun _ =>
      (Stable.dropRef _).bind fun _ => .update fun _ => ⟨rfl, rfl, rfl, rfl, rfl⟩

theorem Stable.swapNodes (upper lower : Var) : Stable (swapNodes upper lower) :=
  (Stable.expect _).bind fun _ => (Stable.reserveWithin _ _).bind fun _ =>
    (Stable.takeAll upper).bind fun _ => (Stable.expect _).bind fun p =>
      (Stable.forM Stable.index p.2).bind fun _ =>
        (Stable.forM (Stable.rebuild upper lower) p.1).bind fun _ =>
          (Stable.takeAll lower).bind fun ids => .forM Stable.reclaim ids

theorem Stable.vardown (v : Var) : Stable (vardown v) := by
  refine (Stable.expect _).bind fun level => Stable.get.bind fun s => ?_
  split
  · refine (Stable.expect _).bind fun w => Stable.get.bind fun s => ?_
    have place : Stable (modify fun s =>
        { s with
          manager := { s.manager with
            order := s.manager.order.exchange level v w
            pairings := s.manager.pairings.swapDown level }
          swaps := s.swaps + 1 } : Reordering Unit) := .update fun _ => ⟨rfl, rfl, rfl, rfl, rfl⟩
    split
    · exact (Stable.swapNodes v w).bind fun _ => place
    · exact place
  · exact .pure _

theorem Stable.move (move : Move) : Stable move.run := by
  cases move with
  | down v => exact .vardown v
  | up v =>
    refine (Stable.expect _).bind fun level => ?_
    split
    · exact .pure _
    · exact (Stable.expect _).bind fun w => .vardown w

/-! ### What moves achieve -/

theorem Ensures.move (h : s.Sound) (move : Move) :
    Ensures s move.run
      (fun _ s' => Swaps s s' ∧ move.Changes s.manager.order s'.manager.order)
      (fun s' => Advances s s' ∧ s'.manager.order = s.manager.order) := by
  cases move with
  | down v => exact .vardown h v
  | up v => exact .varup h v

end Reordering

namespace Session

variable {s s' : Session}

theorem Walk.stays (h : s.Walk s') : s.Stays s' := by
  induction h with
  | refl => exact .refl s
  | @step s₁ _ move _ hm ih =>
    have := Reordering.Stable.move move s₁
    rw [Reordering.Ensures, hm] at this
    exact ih.trans this
  | @fail s₁ _ move _ hm ih =>
    have := Reordering.Stable.move move s₁
    rw [Reordering.Ensures, hm] at this
    exact ih.trans this.2

theorem Walk.advances (hs : s.Sound) (h : s.Walk s') : Reordering.Advances s s' := by
  induction h with
  | refl => exact .refl hs
  | @step s₁ _ move _ hm ih =>
    have := Reordering.Ensures.move ih.sound move
    rw [Reordering.Ensures, hm] at this
    exact ih.trans this.1.toAdvances
  | @fail s₁ _ move _ hm ih =>
    have := Reordering.Ensures.move ih.sound move
    rw [Reordering.Ensures, hm] at this
    exact ih.trans this.2.1

end Session

end DecisionDiagram
