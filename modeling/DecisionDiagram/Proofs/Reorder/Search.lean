/-
No search for a better order does any harm, and its course depends on the order and the sizes only.

* `Walks` — the work consists of moves, whatever it looks at in between;
* `Agrees` — in sessions that are alike, the work has the same result and leaves them alike;
* `Guided` — both; `Guided.bind`, `.foldlM`, `.mapM`, `.untilSteady` are about work that is put together
  from such work;
* `Guided.reorderAll`, `.exchangeAcross`, `.imposeFrom` — the work in all sessions is of this kind;
* `Walks.safe` — so it leaves the session sound and the nodes that the manager names their values,
  however it ends.
-/
import DecisionDiagram.Ordering
import DecisionDiagram.Proofs.Reorder.Sizes

namespace DecisionDiagram.Reordering

variable {α β : Type}

/-- However the work ends, it has been a walk.  It fails for want of room only. -/
def Walks (x : Reordering α) : Prop :=
  ∀ s : Session, Ensures s x (fun _ s' => s.Walk s') fun s' => s.Walk s'

/-- However the work ends, the session stays sound and the nodes that the manager names keep their
values. -/
def Safe (x : Reordering α) : Prop :=
  ∀ s : Session, s.Sound → Ensures s x (fun _ s' => Advances s s') fun s' => Advances s s'

/-- In two sessions that are alike, the work comes to the same result and leaves them alike, if it has a
result in both and no count is saturated at its end. -/
def Agrees (x : Reordering α) : Prop :=
  ∀ {s t s' t' : Session} {a b : α}, s.Alike t → x s = .ok a s' → x t = .ok b t' → s'.Unsaturated →
    t'.Unsaturated → b = a ∧ s'.Alike t'

/-- The work is a walk whose course is determined by the order and the sizes. -/
structure Guided (x : Reordering α) : Prop where
  walks : Walks x
  agrees : Agrees x

theorem Walks.safe {x : Reordering α} (hx : Walks x) : Safe x := fun s h =>
  (hx s).mono (fun _ _ hw => hw.advances h) fun _ hw => hw.advances h

theorem Walks.walk {x : Reordering α} (hx : Walks x) {s s' : Session} {a : α} (h : x s = .ok a s') :
    s.Walk s' := by
  have hw := hx s
  rwa [Ensures, h] at hw

/-! ### Moves -/

theorem bind_ok {x : Reordering α} {f : α → Reordering β} {s s'' : Session} {b : β}
    (h : (x >>= f) s = .ok b s'') : ∃ a s', x s = .ok a s' ∧ f a s' = .ok b s'' := by
  have h : EStateM.bind x f s = .ok b s'' := h
  rw [EStateM.bind] at h
  split at h
  · exact ⟨_, _, by assumption, h⟩
  · cases h

theorem Walks.bind {x : Reordering α} {f : α → Reordering β} (hx : Walks x)
    (hf : ∀ a, Walks (f a)) : Walks (x >>= f) := fun s =>
  (hx s).bind fun a s' h => (hf a s').mono (fun _ _ h' => h.trans h') fun _ h' => h.trans h'

theorem Guided.pure (a : α) : Guided (Pure.pure a) := by
  refine ⟨fun _ => Ensures.pure .refl, fun h hx hy _ _ => ?_⟩
  obtain ⟨rfl, rfl⟩ := EStateM.Result.ok.inj hx
  obtain ⟨rfl, rfl⟩ := EStateM.Result.ok.inj hy
  exact ⟨rfl, h⟩

theorem Guided.fault : Guided (Reordering.fault : Reordering α) :=
  ⟨fun _ => Ensures.fault, fun _ hx => by cases hx⟩

theorem Guided.bind {x : Reordering α} {f : α → Reordering β} (hx : Guided x)
    (hf : ∀ a, Guided (f a)) : Guided (x >>= f) := by
  refine ⟨hx.walks.bind fun a => (hf a).walks, fun {s t s'' t'' c d} h hs ht hu hu' => ?_⟩
  obtain ⟨a, s', hs, hs'⟩ := bind_ok hs
  obtain ⟨b, t', ht, ht'⟩ := bind_ok ht
  have hsound := ((hx.walks.walk hs).advances h.left).sound
  have hsound' := ((hx.walks.walk ht).advances h.right).sound
  -- What is not saturated at the end was not saturated before.
  have hmid := (((hf a).walks.walk hs').advances hsound).unsaturated hu
  have hmid' := (((hf b).walks.walk ht').advances hsound').unsaturated hu'
  obtain ⟨rfl, h'⟩ := hx.agrees h hs ht hmid hmid'
  exact (hf b).agrees h' hs' ht' hu hu'

/-- The work may look at what is the same in sessions that are alike. -/
theorem Guided.get {k : Session → Reordering α} (hk : ∀ s, Guided (k s))
    (hsame : ∀ {s t : Session}, s.Alike t → s.Unsaturated → t.Unsaturated → k t = k s) :
    Guided (MonadState.get >>= k) := by
  refine ⟨fun s => .get ((hk s).walks s), fun {s t s' t' a b} h hs ht hu hu' => ?_⟩
  have hs : k s s = .ok a s' := hs
  have ht : k t t = .ok b t' := ht
  have hstart := (((hk s).walks.walk hs).advances h.left).unsaturated hu
  have hstart' := (((hk t).walks.walk ht).advances h.right).unsaturated hu'
  rw [hsame h hstart hstart'] at ht
  exact (hk s).agrees h hs ht hu hu'

theorem Guided.expect {f : Session → Option α}
    (hsame : ∀ {s t : Session}, s.Alike t → s.Unsaturated → t.Unsaturated → f t = f s) :
    Guided (Reordering.expect f) := by
  refine ⟨fun s => ?_, fun {s t s' t' a b} h hs ht hu hu' => ?_⟩
  · unfold Ensures Reordering.expect
    rcases f s with _ | a
    · trivial
    · exact .refl
  · unfold Reordering.expect at hs ht
    rcases hfs : f s with _ | a'
    · rw [hfs] at hs
      cases hs
    · rcases hft : f t with _ | b'
      · rw [hft] at ht
        cases ht
      · rw [hfs] at hs
        rw [hft] at ht
        obtain ⟨rfl, rfl⟩ := EStateM.Result.ok.inj hs
        obtain ⟨rfl, rfl⟩ := EStateM.Result.ok.inj ht
        exact ⟨Option.some.inj (hft.symm.trans ((hsame h hu hu').trans hfs)), h⟩

theorem Guided.size : Guided size :=
  .get (fun _ => .pure _) fun h hu hu' => by
    rw [h.toShares.size h.left h.right h.order hu hu']

theorem Guided.levelOf (v : Var) : Guided (levelOf v) := .expect fun h _ _ => by rw [h.order]

theorem Guided.varSize (v : Var) : Guided (varSize v) :=
  .expect fun h hu hu' => h.toShares.count? h.left h.right h.order hu hu' v

theorem Guided.move (move : Move) : Guided move.run := by
  refine ⟨fun s => ?_, fun {s t s' t' a b} h hs ht _ _ => ⟨rfl, ?_⟩⟩
  · have hstable := Stable.move move s
    unfold Ensures at hstable ⊢
    rcases hx : move.run s with ⟨_, s'⟩ | ⟨e | _, s'⟩
    · exact .step .refl hx
    · rw [hx] at hstable
      obtain rfl := hstable.1
      exact ⟨rfl, .fail .refl hx⟩
    · trivial
  · -- The new order is determined by the old one, which both sessions have.
    have hs' := Ensures.move h.left move
    rw [Ensures, hs] at hs'
    have ht' := Ensures.move h.right move
    rw [Ensures, ht] at ht'
    obtain ⟨hs', hchanges⟩ := hs'
    obtain ⟨ht', hchanges'⟩ := ht'
    have hstays := Stable.move move s
    rw [Ensures, hs] at hstays
    have hstays' := Stable.move move t
    rw [Ensures, ht] at hstays'
    rw [h.order] at hchanges'
    have horder := hchanges.unique hchanges' h.left.order
    have hshares := ((hs'.toAdvances.shares.symm h.left hs'.sound).trans h.toShares).trans
      ht'.toAdvances.shares
    refine ⟨hshares, hs'.sound, ht'.sound, horder, ?_, ?_, ?_, ?_⟩
    · rw [ht'.keeps.forest, hs'.keeps.forest, h.forest]
    · rw [ht'.keeps.config, hs'.keeps.config, h.config]
    · rw [ht'.swaps, hs'.swaps, horder, h.order, h.swaps]
    · rw [hstays'.initialSize, hstays.initialSize, h.initialSize]

theorem Guided.moveDown (v : Var) (n : Nat) : Guided (moveDown v n) := by
  induction n with
  | zero => exact .pure _
  | succ n ih => exact (Guided.move (.down v)).bind fun _ => ih

theorem Guided.lowerTo (v : Var) (bottom : Level) (n : Nat) : Guided (lowerTo v bottom n) := by
  induction n with
  | zero => exact .fault
  | succ n ih =>
    refine (Guided.levelOf v).bind fun level => ?_
    split
    · exact (Guided.move (.down v)).bind fun _ => ih
    · exact .pure _

theorem Guided.raiseTo (v : Var) (top : Level) (n : Nat) : Guided (raiseTo v top n) := by
  induction n with
  | zero => exact .fault
  | succ n ih =>
    refine (Guided.levelOf v).bind fun level => ?_
    split
    · exact (Guided.move (.up v)).bind fun _ => ih
    · exact .pure _

/-! ### Lists -/

theorem Guided.forM {f : α → Reordering Unit} (hf : ∀ a, Guided (f a)) (l : List α) :
    Guided (l.forM f) := by
  induction l with
  | nil => exact .pure _
  | cons a l ih =>
    rw [List.forM_eq_forM, List.forM_cons]
    exact (hf a).bind fun _ => ih

theorem Guided.foldlM {f : β → α → Reordering β} (hf : ∀ b a, Guided (f b a)) (l : List α) (b : β) :
    Guided (l.foldlM f b) := by
  induction l generalizing b with
  | nil => exact .pure _
  | cons a l ih =>
    rw [List.foldlM_cons]
    exact (hf b a).bind fun b => ih b

theorem Guided.mapM {f : α → Reordering β} (hf : ∀ a, Guided (f a)) (l : List α) :
    Guided (l.mapM f) := by
  induction l with
  | nil => exact .pure _
  | cons a l ih =>
    rw [List.mapM_cons]
    exact (hf a).bind fun b => ih.bind fun bs => .pure _

/-- A pass may be repeated as long as the size changes. -/
theorem Guided.repeatWhile {pass : Array Block → Reordering (Array Block)}
    (h : ∀ row, Guided (pass row)) (n : Nat) (row : Array Block) : Guided (repeatWhile pass n row) := by
  induction n generalizing row with
  | zero => exact .fault
  | succ n ih =>
    refine Guided.size.bind fun before => (h row).bind fun row => Guided.size.bind fun after => ?_
    split
    · exact .pure _
    · exact ih row

theorem Guided.untilSteady {pass : Array Block → Reordering (Array Block)} (h : ∀ row, Guided (pass row))
    (row : Array Block) : Guided (untilSteady pass row) := .repeatWhile h _ row

/-! ### Blocks -/

theorem Guided.blockDown (i : Nat) (row : Array Block) : Guided (blockDown i row) := by
  unfold Reordering.blockDown
  split
  · exact (Guided.forM (fun v => .moveDown v _) _).bind fun _ => .pure _
  · exact .fault

theorem Guided.blocksDown (steps : List Nat) (row : Array Block) : Guided (blocksDown steps row) := by
  induction steps generalizing row with
  | nil => exact .pure _
  | cons i steps ih => exact (Guided.blockDown i row).bind fun row => ih row

theorem Guided.win2 (row : Array Block) : Guided (win2 row) := by
  refine Guided.foldlM (fun row i => ?_) _ _
  refine Guided.size.bind fun best => (Guided.blockDown i row).bind fun row =>
    Guided.size.bind fun now => ?_
  split
  · exact .blockDown i row
  · exact .pure _

theorem Guided.visit (i : Nat) (offsets : List Nat) (taken best bestStep : Nat) (row : Array Block) :
    Guided (visit i offsets taken best bestStep row) := by
  induction offsets generalizing taken best bestStep row with
  | nil => exact .pure _
  | cons offset offsets ih =>
    refine (Guided.blockDown (i + offset) row).bind fun row => Guided.size.bind fun now => ?_
    split
    · exact ih _ _ _ _
    · exact ih _ _ _ _

theorem Guided.win3 (row : Array Block) : Guided (win3 row) := by
  unfold Reordering.win3
  split
  · exact .win2 row
  · refine Guided.foldlM (fun row i => ?_) _ _
    exact Guided.size.bind fun now => (Guided.visit i _ _ now _ row).bind fun p => .blocksDown _ p.2

/-! ### Sifting -/

theorem Guided.maxAllowed (best : Nat) : Guided (maxAllowed best) := by
  refine Guided.get (fun s => ?_) fun h _ _ => by rw [h.config]
  dsimp only
  split
  · exact .pure _
  · exact .pure _

theorem Guided.shift (up : Bool) (s : Sifting) : Guided (shift up s) := by
  unfold Reordering.shift
  split
  · exact (Guided.blockDown _ _).bind fun _ => .pure _
  · exact (Guided.blockDown _ _).bind fun _ => .pure _

theorem Guided.sweep (up : Bool) (n : Nat) (s : Sifting) : Guided (sweep up n s) := by
  induction n generalizing s with
  | zero => exact .pure _
  | succ n ih =>
    have next : ∀ (s : Sifting) (now : Nat),
        Guided (if s.bound < now then Pure.pure s else Reordering.sweep up n s) := by
      intro s now
      split
      · exact .pure _
      · exact ih s
    refine (Guided.shift up s).bind fun s => Guided.size.bind fun now => ?_
    dsimp only
    split
    · exact (Guided.maxAllowed now).bind fun bound => next _ now
    · exact next s now

theorem Guided.shiftBy (up : Bool) (n : Nat) (s : Sifting) : Guided (shiftBy up n s) := by
  induction n generalizing s with
  | zero => exact .pure _
  | succ n ih => exact (Guided.shift up s).bind fun s => ih s

theorem Guided.siftBlock (row : Array Block) (key : Var) : Guided (siftBlock row key) := by
  unfold Reordering.siftBlock
  split
  · exact .pure _
  · refine Guided.size.bind fun best => (Guided.maxAllowed best).bind fun bound => ?_
    refine (Guided.sweep _ _ _).bind fun s => (Guided.sweep _ _ _).bind fun s => ?_
    exact (Guided.shiftBy _ _ _).bind fun s => (Guided.shiftBy _ _ _).bind fun s => .pure _

theorem Guided.weigh (b : Block) : Guided (weigh b) := by
  unfold Reordering.weigh
  split
  · exact .fault
  · refine (Guided.foldlM (fun n v => ?_) _ _).bind fun _ => .pure _
    exact (Guided.varSize _).bind fun _ => .pure _

theorem Guided.sift (row : Array Block) : Guided (sift row) :=
  (Guided.mapM Guided.weigh _).bind fun _ => .foldlM Guided.siftBlock _ _

/-! ### Whole sessions -/

theorem Guided.permute (method : ReorderMethod) (row : Array Block) : Guided (permute method row) := by
  cases method with
  | off => exact .pure _
  | win2 => exact .win2 row
  | win2ite => exact .untilSteady Guided.win2 row
  | win3 => exact .win3 row
  | win3ite => exact .untilSteady Guided.win3 row
  | sift => exact .sift row
  | siftite => exact .untilSteady Guided.sift row

theorem Guided.reorderBlock (method : ReorderMethod) (n : Nat) (b : Block) :
    Guided (reorderBlock method n b) := by
  induction n generalizing b with
  | zero => exact .fault
  | succ n ih =>
    have within : ∀ row : List Block, Guided (do
        let children ← row.mapM (Reordering.reorderBlock method n)
        return { b with children }.refresh) := fun row =>
      (Guided.mapM ih row).bind fun _ => .pure _
    unfold Reordering.reorderBlock
    split
    · exact (Guided.permute method _).bind fun row => within row.toList
    · exact within b.children

theorem Guided.reorderAll (method : ReorderMethod) : Guided (reorderAll method) := by
  refine Guided.get (fun s => ?_) fun {s t} h _ _ => ?_
  · dsimp only
    split
    · exact (Guided.reorderBlock method _ _).bind fun _ => .pure _
    · exact .pure _
  · have hvar : t.manager.varNum = s.manager.varNum := by rw [Manager.varNum, h.order]; rfl
    dsimp only
    rw [hvar, h.forest, h.order]

/-- The number of levels is the same in sessions that are alike. -/
theorem Guided.depth {k : Nat → Reordering α} (hk : ∀ n, Guided (k n)) :
    Guided (MonadState.get >>= fun s => k s.manager.depth) := by
  refine Guided.get (fun s => hk _) fun {s t} h _ _ => ?_
  have hvar : t.manager.varNum = s.manager.varNum := by rw [Manager.varNum, h.order]; rfl
  rw [Manager.depth, Manager.depth, hvar]

theorem Guided.exchangeAcross (upper lower : Var) (top bottom : Level) :
    Guided (Manager.exchangeAcross upper lower top bottom) := by
  refine Guided.depth (k := fun steps => do
    Reordering.lowerTo upper bottom steps
    Reordering.raiseTo lower top steps) fun steps => ?_
  exact (Guided.lowerTo upper bottom steps).bind fun _ => .raiseTo lower top steps

theorem Guided.imposeFrom (level : Level) (vars : List Var) :
    Guided (Manager.imposeFrom level vars) := by
  induction vars generalizing level with
  | nil => exact .pure _
  | cons v vars ih =>
    refine Guided.depth (k := fun steps => do
      Reordering.raiseTo v level steps
      Manager.imposeFrom (level + 1) vars) fun steps => ?_
    exact (Guided.raiseTo v level steps).bind fun _ => ih (level + 1)

end DecisionDiagram.Reordering
