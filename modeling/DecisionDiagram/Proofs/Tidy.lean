/-
Programs that leave the pending nodes as they found them and name nothing out of scope.

* `Build.Robust.make` — making a node preserves what a collection, a growth step and a new record do;
  that the pending nodes stay as they are is a case of it;
* `Program.Balanced` — after the run, the same nodes are pending as before;
* `Program.Tidy` — a balanced program that names nodes in scope only; it is put together along the
  shape of the operators (`Tidy.memo`, `Tidy.branch`).
-/
import DecisionDiagram.Proofs.Program

namespace DecisionDiagram

/-! ### Steps -/

namespace Manager

variable {m m' : Manager}

@[simp] theorem pending_refreshComputed (m : Manager) : m.refreshComputed.pending = m.pending := by
  unfold refreshComputed
  split <;> rfl

theorem pending_collect {freed : Nat} (h : m.collect = some (freed, m')) :
    m'.pending = m.pending := by
  unfold collect at h
  split at h
  · cases h
  · dsimp only at h
    split at h
    · cases h
    · obtain ⟨-, rfl⟩ := Prod.mk.inj (Option.some.inj h)
      exact pending_refreshComputed _

theorem pending_grow (h : m.grow = some m') : m'.pending = m.pending := by
  unfold grow at h
  split at h
  · exact Option.some.inj h ▸ rfl
  · obtain ⟨m₁, hm₁, rfl⟩ := Option.map_eq_some_iff.mp h
    obtain ⟨table, -, rfl⟩ := Option.map_eq_some_iff.mp hm₁
    rcases fitComputed_eq _ with h | ⟨bits, h⟩
    · rw [h]
    · rw [h]

end Manager

namespace Build

variable {m m' : Manager} {id : NodeId} {n : Node}

/-- What a collection, a growth step and a new node in the store preserve. -/
structure Robust (P : Manager → Prop) : Prop where
  collect : ∀ {m m' : Manager} {freed : Nat}, P m → m.collect = some (freed, m') → P m'
  grow : ∀ {m m' : Manager}, P m → m.grow = some m' → P m'
  create : ∀ {m : Manager} (store table counters), P m → P { m with store, table, counters }

theorem Robust.createAnew {P : Manager → Prop} (hP : Robust P) (hm : P m)
    (h : createAnew n m = .ok id m') : P m' := by
  unfold Build.createAnew at h
  split at h
  · cases h
  · split at h
    · obtain ⟨-, rfl⟩ := EStateM.Result.ok.inj h
      exact hP.create _ _ _ hm
    · cases h

theorem Robust.createInFull {P : Manager → Prop} (hP : Robust P) (hm : P m)
    (h : createInFull n m = .ok id m') : P m' := by
  unfold Build.createInFull at h
  split at h
  · cases h
  · rename_i hcollect
    have hc := hP.collect hm hcollect
    split at h
    · cases h
    split at h
    · split at h
      · cases h
      · rename_i hgrow
        exact hP.createAnew (hP.grow hc hgrow) h
    · exact hP.createAnew hc h

/-- So does making a node. -/
theorem Robust.make {P : Manager → Prop} (hP : Robust P) (hm : P m) {level : Level} {l r : NodeId}
    (h : Build.mk level l r m = .ok id m') : P m' := by
  unfold Build.mk at h
  split at h
  · exact (EStateM.Result.ok.inj h).2 ▸ hm
  split at h
  · cases h
  · exact (EStateM.Result.ok.inj h).2 ▸ hm
  split at h
  · cases h
  split at h
  · obtain ⟨-, rfl⟩ := EStateM.Result.ok.inj h
    exact hP.create _ _ _ hm
  · exact hP.createInFull hm h

theorem robust_pending (pending : List NodeId) : Robust (·.pending = pending) where
  collect hm h := (Manager.pending_collect h).trans hm
  grow hm h := (Manager.pending_grow h).trans hm
  create _ _ _ hm := hm

theorem pending_mk {level : Level} {l r : NodeId} (h : mk level l r m = .ok id m') :
    m'.pending = m.pending := (robust_pending m.pending).make rfl h

theorem eq_of_read {α : Type} {f : Manager → Except Failure α} {a : α}
    (h : read f m = .ok a m') : m' = m := by
  unfold read at h
  split at h
  · exact (EStateM.Result.ok.inj h).2.symm
  · cases h

end Build

namespace Step

/-- Whether the step changes what is pending. -/
def changesPending : Step → Bool
  | push _ => true
  | pop => true
  | keepOnly _ => true
  | _ => false

theorem pending_exec {s : Step} (hs : s.changesPending = false) {m m' : Manager} {a : s.Answer}
    (h : s.exec m = .ok a m') : m'.pending = m.pending := by
  cases s with
  | fault => cases h
  | fail => cases h
  | push => cases hs
  | pop => cases hs
  | keepOnly => cases hs
  | mk => exact Build.pending_mk h
  | lookup => exact (EStateM.Result.ok.inj h).2 ▸ rfl
  | lookupCount => exact (EStateM.Result.ok.inj h).2 ▸ rfl
  | remember => exact (EStateM.Result.ok.inj h).2 ▸ rfl
  | rememberCount => exact (EStateM.Result.ok.inj h).2 ▸ rfl
  | _ =>
    simp only [exec] at h
    rw [Build.eq_of_read h]

end Step

namespace Program

variable {α β : Type} {S S' : Scope} {m m' m'' : Manager} {f l h : NodeId}

/-! ### Balance -/

/-- After the run, the same nodes are pending as before. -/
def Balanced (p : Program α) : Prop :=
  ∀ (m m' : Manager) (a : α), p.run m = .ok a m' → m'.pending = m.pending

theorem Balanced.done (a : α) : Balanced (pure a : Program α) := fun _ _ _ h =>
  (EStateM.Result.ok.inj h).2 ▸ rfl

theorem Balanced.one {s : Step} (hs : s.changesPending = false) : Balanced (one s) :=
  fun _ _ _ => Step.pending_exec hs

/-- A run of two parts comes from runs of each. -/
theorem run_bind_eq_ok {p : Program α} {next : α → Program β} {b : β}
    (h : (p >>= next).run m = .ok b m') :
    ∃ a m₁, p.run m = .ok a m₁ ∧ (next a).run m₁ = .ok b m' := by
  rcases hp : p.run m with ⟨a, m₁⟩ | ⟨i, m₁⟩
  · exact ⟨a, m₁, rfl, (run_bind_ok hp).symm.trans h⟩
  · have herror := (run_bind p next).trans (Build.bind_error hp)
    cases herror.symm.trans h

theorem Balanced.bind {p : Program α} {next : α → Program β} (hp : p.Balanced)
    (hn : ∀ a, (next a).Balanced) : (p >>= next).Balanced := by
  intro m m' b h
  obtain ⟨a, m₁, h₁, h₂⟩ := run_bind_eq_ok h
  exact (hn a m₁ m' b h₂).trans (hp m m₁ a h₁)

theorem Balanced.fault : Balanced (fault : Program α) := .bind (.one rfl) nofun

theorem Balanced.fail (e : Error) : Balanced (fail e : Program α) := .bind (.one rfl) nofun

theorem Balanced.memo {q : Query} {p : Program NodeId} (hp : p.Balanced) : (memo q p).Balanced := by
  refine .bind (.one rfl) fun res => ?_
  cases res
  · exact .bind hp fun _ => .bind (.one rfl) fun _ => .done _
  · exact .done _

theorem run_push (f : NodeId) (m : Manager) :
    (push f).run m = .ok () { m with pending := f :: m.pending } := rfl

theorem pending_pop (h : pop.run m = .ok () m') : ∃ f, m.pending = f :: m'.pending := by
  rcases hp : m.pending with _ | ⟨f, rest⟩
  · have hfault : pop.run m = .error .fault m := by
      refine (Build.bind_ok (x := get) (a := m) rfl).trans ?_
      rw [hp]
      rfl
    cases hfault.symm.trans h
  · have hpop : pop.run m = .ok () { m with pending := rest } := Build.pop_eq hp
    obtain ⟨-, rfl⟩ := EStateM.Result.ok.inj (hpop.symm.trans h)
    exact ⟨f, rfl⟩

theorem Balanced.hold {p : Program NodeId} (hp : p.Balanced) (f : NodeId) : (hold f p).Balanced := by
  intro m m' res h
  obtain ⟨_, m₁, h₁, h⟩ := run_bind_eq_ok h
  obtain ⟨res', m₂, h₂, h⟩ := run_bind_eq_ok h
  obtain ⟨_, m₃, h₃, h⟩ := run_bind_eq_ok h
  obtain ⟨-, rfl⟩ := EStateM.Result.ok.inj h
  obtain ⟨-, rfl⟩ := EStateM.Result.ok.inj ((run_push f m).symm.trans h₁)
  obtain ⟨_, hpop⟩ := pending_pop h₃
  exact (List.cons.inj (hpop.symm.trans (hp _ _ _ h₂))).2

/-! ### Tidy programs -/

/-- The program is balanced, and it names nodes in scope only. -/
structure Tidy (S : Scope) (p : Program NodeId) : Prop where
  uses : p.Uses S
  balanced : p.Balanced

theorem Tidy.mono {p : Program NodeId} (h : Tidy S p) (hS : S ≤ S') : Tidy S' p :=
  ⟨h.uses.mono hS, h.balanced⟩

theorem Tidy.pure (h : f ∈ S) : Tidy S (pure f) := ⟨h, .done f⟩

theorem Tidy.fault : Tidy S fault := ⟨⟨by simp [Step.reads], nofun⟩, .fault⟩

theorem Tidy.fail (e : Error) : Tidy S (fail e) := ⟨⟨by simp [Step.reads], nofun⟩, .fail e⟩

theorem Tidy.node {next : Node → Program NodeId} (hf : f ∈ S)
    (h : ∀ {S'} n, S ≤ S' → n.low ∈ S' → n.high ∈ S' → Tidy S' (next n)) :
    Tidy S (node f >>= next) := by
  have hn : ∀ n, Tidy (S.add [n.low, n.high]) (next n) := fun n =>
    h n (Scope.le_add _ _) (Scope.mem_add_of_mem (by simp)) (Scope.mem_add_of_mem (by simp))
  refine ⟨⟨?_, fun n => (hn n).uses⟩, .bind (.one rfl) fun n => (hn n).balanced⟩
  simpa [Step.reads] using hf

theorem Tidy.depth {next : Nat → Program NodeId} (h : ∀ n, Tidy S (next n)) :
    Tidy S (depth >>= next) :=
  ⟨⟨by simp [Step.reads], fun n => (h n).uses.mono (Scope.le_add _ _)⟩,
    .bind (.one rfl) fun n => (h n).balanced⟩

theorem Tidy.make (level : Level) (hl : l ∈ S) (hh : h ∈ S) : Tidy S (Program.mk level l h) := by
  refine ⟨⟨?_, fun _ => Scope.mem_add_of_mem List.mem_cons_self⟩, .one rfl⟩
  simpa [Step.reads] using ⟨hl, hh⟩

theorem Uses.bind {p : Program NodeId} {next : NodeId → Program α} {T : Scope → α → Prop}
    (h : p.Uses S) (hn : ∀ {S'} res, S ≤ S' → res ∈ S' → (next res).Names S' T) :
    (p >>= next).Names S T :=
  Names.mono (p := p) h (Scope.le_refl S) fun hU hS hres => hn _ hS (hU _ hres)

theorem Uses.andThen {p : Program NodeId} {next : NodeId → Program NodeId} (h : p.Uses S)
    (hn : ∀ {S'} res, S ≤ S' → res ∈ S' → (next res).Uses S') : (p >>= next).Uses S :=
  Uses.bind h hn

/-- One program after another; the second names what is in scope, and the answer of the first. -/
theorem Tidy.bind {p : Program NodeId} {next : NodeId → Program NodeId} (hp : Tidy S p)
    (hn : ∀ {S'} res, S ≤ S' → res ∈ S' → Tidy S' (next res)) : Tidy S (p >>= next) := by
  refine ⟨hp.uses.bind fun res hS hres => (hn res hS hres).uses, hp.balanced.bind fun res => ?_⟩
  have htidy : Tidy (S.add [res]) (next res) :=
    hn res (Scope.le_add _ _) (Scope.mem_add_of_mem List.mem_cons_self)
  exact htidy.balanced

theorem Tidy.memo {q : Query} {p : Program NodeId} (hq : ∀ x ∈ q.nodes, x ∈ S) (hp : Tidy S p) :
    Tidy S (memo q p) := by
  refine ⟨⟨hq, fun res => ?_⟩, hp.balanced.memo⟩
  rcases res with _ | res
  · refine Uses.bind (hp.uses.mono (Scope.le_add _ _)) fun res hS hres => ⟨?_, fun _ => .inl hres⟩
    intro x hx
    rcases List.mem_cons.mp hx with rfl | hx
    · exact hres
    · exact hS x (.inl (hq x hx))
  · exact Scope.mem_add_of_mem (by simp [Step.brings])

theorem Tidy.hold {p : Program NodeId} (hf : f ∈ S) (hp : Tidy S p) : Tidy S (hold f p) := by
  refine ⟨⟨by simpa [Step.reads] using hf, fun _ => ?_⟩, hp.balanced.hold f⟩
  exact (hp.uses.mono (Scope.le_add _ _)).bind fun res _ hres =>
    ⟨by simp [Step.reads], fun _ => .inl hres⟩

theorem Tidy.branch {low high : Program NodeId} {join : NodeId → NodeId → Program NodeId}
    (hl : Tidy S low) (hh : Tidy S high)
    (hj : ∀ {S'} l h, S ≤ S' → l ∈ S' → h ∈ S' → Tidy S' (join l h)) :
    Tidy S (branch low high join) :=
  hl.bind fun l hS hlS => .hold hlS ((hh.mono hS).bind fun h hS' hhS =>
    .hold hhS (hj l h (Scope.le_trans hS hS') (hS' l hlS) hhS))

end Program

end DecisionDiagram
