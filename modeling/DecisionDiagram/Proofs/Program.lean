/-
What holds of a program.

A program goes from step to step, and is suspended at each; what is left to do after the step is the
rest. Making a node may collect garbage, and then the rest must not name a node that is freed.

* `Program.At` — a run comes to a step, with a rest;
* `Program.Names` — the nodes that a program names are in a given scope, or it learns of them on the
  way, whatever the answers to its steps are;
* `Program.Ensures` — the specification of a program: whatever step the run comes to, the manager has
  evolved and is coherent, and if the step makes a node, a collection keeps all nodes that the
  step and the rest name; at the end, the result satisfies a postcondition;
* `Program.Ensures.at` — what this says of each step that the run comes to.
-/
import DecisionDiagram.Program
import DecisionDiagram.Proofs.Construction

namespace DecisionDiagram

/-! ### Steps -/

namespace Step

/-- The nodes that a step is given. -/
def reads : Step → List NodeId
  | check f => [f]
  | levelsBelow f => [f]
  | node f => [f]
  | lookup q => q.nodes
  | remember q res => res :: q.nodes
  | lookupCount q => [q.node]
  | rememberCount q _ => [q.node]
  | push f => [f]
  | keepOnly f => [f]
  | mk _ low high => [low, high]
  | _ => []

/-- The nodes that the answer to a step names. -/
def brings : (s : Step) → s.Answer → List NodeId
  | pairing _, e => e.result.toList
  | node _, n => [n.low, n.high]
  | lookup _, res => res.toList
  | mk _ _ _, id => [id]
  | _, _ => []

/-- Whether the step may collect garbage. -/
def collects : Step → Bool
  | mk _ _ _ => true
  | _ => false

theorem read_ne_reorder {α : Type} {f : Manager → Except Failure α} {m m' : Manager} :
    Build.read f m ≠ .error .reorder m' := by
  unfold Build.read
  split <;> nofun

theorem pop_ne_reorder {m m' : Manager} : Build.pop m ≠ .error .reorder m' := by
  rcases hp : m.pending with _ | ⟨id, rest⟩
  · rw [Build.pop_eq_fault hp]
    nofun
  · rw [Build.pop_eq hp]
    nofun

/-- No step but that of making a node is interrupted by a reordering. -/
theorem reorderReady_of_exec {s : Step} {m m' : Manager} {bound : Nat} (hc : m.Coherent bound)
    (h : s.exec m = .error .reorder m') : m.reorderReady = true := by
  cases s with
  | mk level low high =>
    rcases Build.mk_error hc h with hi | hi | ⟨-, hi⟩
    · cases hi
    · cases hi
    · exact hi
  | pop => exact absurd h pop_ne_reorder
  | fault => cases h
  | fail => cases h
  | lookup => cases h
  | remember => cases h
  | lookupCount => cases h
  | rememberCount => cases h
  | push => cases h
  | keepOnly => cases h
  | _ =>
    simp only [exec] at h
    exact absurd h read_ne_reorder

end Step

/-! ### Scopes -/

/-- A set of nodes, among them the terminals. -/
structure Scope where
  mem : NodeId → Prop
  terminal : ∀ {id : NodeId}, id.isTerminal = true → mem id

namespace Scope

variable {S S' : Scope}

instance : Membership NodeId Scope := ⟨fun S id => S.mem id⟩

instance : LE Scope := ⟨fun S S' => ∀ id, id ∈ S → id ∈ S'⟩

theorem le_refl (S : Scope) : S ≤ S := fun _ h => h

theorem le_trans {S'' : Scope} (h : S ≤ S') (h' : S' ≤ S'') : S ≤ S'' := fun id hid =>
  h' id (h id hid)

/-- The scope with some more nodes. -/
def add (S : Scope) (ids : List NodeId) : Scope where
  mem id := id ∈ S ∨ id ∈ ids
  terminal h := .inl (S.terminal h)

theorem le_add (S : Scope) (ids : List NodeId) : S ≤ S.add ids := fun _ h => .inl h

theorem mem_add_of_mem {ids : List NodeId} {id : NodeId} (h : id ∈ ids) : id ∈ S.add ids := .inr h

theorem add_mono (h : S ≤ S') (ids : List NodeId) : S.add ids ≤ S'.add ids := fun id hid =>
  hid.imp_left (h id)

end Scope

/-- The nodes that a collection keeps. -/
def Manager.scope (m : Manager) : Scope := ⟨m.Kept, Manager.kept_of_terminal⟩

namespace Program

open Manager

variable {α β : Type} {S S' : Scope} {m m₀ m₁ m' : Manager} {bound : Nat}

/-! ### Runs -/

/-- The run of a program from a manager comes to a step in the manager `m'`; `rest` is what is left
to do after the step. -/
inductive At : {α : Type} → Program α → Manager → (s : Step) → (s.Answer → Program α) → Manager →
    Prop
  /-- A single step. -/
  | one (s : Step) (m : Manager) : At (one s) m s done m
  /-- The run of a first part. -/
  | first {α β : Type} {p : Program α} {next : α → Program β} {m m' : Manager} {s : Step}
      {rest : s.Answer → Program α} (h : At p m s rest m') :
      At (bind p next) m s (fun a => bind (rest a) next) m'
  /-- The run of a second part, after the first part has ended. -/
  | second {α β : Type} {p : Program α} {next : α → Program β} {m m₁ m' : Manager} {a : α} {s : Step}
      {rest : s.Answer → Program β} (hp : p.run m = .ok a m₁) (h : At (next a) m₁ s rest m') :
      At (bind p next) m s rest m'

theorem run_bind (p : Program α) (next : α → Program β) :
    (bind p next).run m = (p.run >>= fun a => (next a).run) m := by
  rcases hp : p.run m with ⟨a, m₁⟩ | ⟨i, m₁⟩
  · rw [Build.bind_ok hp]
    simp only [run, hp]
  · rw [Build.bind_error hp]
    simp only [run, hp]

theorem run_bind_ok {p : Program α} {next : α → Program β} {a : α} (h : p.run m = .ok a m₁) :
    (bind p next).run m = (next a).run m₁ := (run_bind p next).trans (Build.bind_ok h)

/-- A run that breaks off does so at a step. -/
theorem exists_of_run_error {p : Program α} {i : Interrupt} (h : p.run m = .error i m') :
    ∃ s rest m₁, p.At m s rest m₁ ∧ s.exec m₁ = .error i m' := by
  induction p generalizing m with
  | done a => cases h
  | one s => exact ⟨s, _, m, .one s m, h⟩
  | bind p next ihp ihn =>
    simp only [run] at h
    split at h
    · rename_i hp
      obtain ⟨s, rest, m₂, hs, hexec⟩ := ihn _ h
      exact ⟨s, rest, m₂, .second hp hs, hexec⟩
    · rename_i hp
      obtain ⟨rfl, rfl⟩ := EStateM.Result.error.inj h
      obtain ⟨s, rest, m₂, hs, hexec⟩ := ihp hp
      exact ⟨s, _, m₂, .first hs, hexec⟩

/-- Every step that the program may take is one of those. -/
def Only (P : Step → Prop) : {α : Type} → Program α → Prop
  | _, done _ => True
  | _, one s => P s
  | _, bind p next => p.Only P ∧ ∀ a, (next a).Only P

theorem Only.at {P : Step → Prop} {p : Program α} (h : p.Only P) {s : Step}
    {rest : s.Answer → Program α} (hs : p.At m s rest m') : P s := by
  induction hs with
  | one s m => exact h
  | first _ ih => exact ih h.1
  | second _ _ ih => exact ih (h.2 _)

/-! ### Names -/

/-- All nodes that the program names are in the scope, apart from those that it learns of on the
way. At its end, `T` holds of the result, with what is in scope by then. -/
def Names : {α : Type} → Program α → Scope → (Scope → α → Prop) → Prop
  | _, done a, S, T => T S a
  | _, one s, S, T => (∀ x ∈ s.reads, x ∈ S) ∧ ∀ a, T (S.add (s.brings a)) a
  | _, bind p next, S, T => p.Names S fun S a => (next a).Names S T

/-- A larger scope does as well. The scope never becomes smaller on the way. -/
theorem Names.mono {p : Program α} {T T' : Scope → α → Prop} (h : p.Names S T) (hS : S ≤ S')
    (hT : ∀ {U U' a}, U ≤ U' → S' ≤ U' → T U a → T' U' a) : p.Names S' T' := by
  induction p generalizing S S' with
  | done a => exact hT hS (Scope.le_refl _) h
  | one s =>
    refine ⟨fun x hx => hS x (h.1 x hx), fun a => ?_⟩
    exact hT (Scope.add_mono hS _) (Scope.le_add _ _) (h.2 a)
  | bind p next ihp ihn =>
    refine ihp h hS fun {U U' a} hU hS' ha => ?_
    exact ihn a ha hU fun hV hU' hT' => hT hV (Scope.le_trans hS' hU') hT'

/-- The program names nodes in scope only, and so is its result. -/
def Uses (p : Program NodeId) (S : Scope) : Prop := p.Names S fun U res => res ∈ U

/-- The property holds of every node that is in scope, whatever comes into scope besides. -/
def Frames (S : Scope) (T : Scope → NodeId → Prop) : Prop := ∀ {U id}, S ≤ U → id ∈ U → T U id

theorem Frames.mono {T : Scope → NodeId → Prop} (h : Frames S T) (hS : S ≤ S') : Frames S' T :=
  fun hU hid => h (Scope.le_trans hS hU) hid

theorem Uses.mono {p : Program NodeId} (h : p.Uses S) (hS : S ≤ S') : p.Uses S' :=
  Names.mono h hS fun hU _ hid => hU _ hid

theorem Uses.names {p : Program NodeId} {T : Scope → NodeId → Prop} (h : p.Uses S) (hS : S ≤ S')
    (hT : Frames S' T) : p.Names S' T :=
  Names.mono h hS fun hU hS' hid => hT hS' (hU _ hid)

/-! ### Specifications -/

/-- A step that may collect garbage is given kept nodes only, and `T` holds of its answer, when all
that is in scope then is what is kept and what the answer brings. -/
def Guards (m : Manager) (s : Step) (T : Scope → s.Answer → Prop) : Prop :=
  s.collects = true → (∀ x ∈ s.reads, m.Kept x) ∧ ∀ a, T (m.scope.add (s.brings a)) a

/-- At each step that the run from `m` comes to, the manager has evolved from `m₀` and is coherent,
and a collection keeps what is named from then on until `T` holds. No step ends in a fault, and at the
end of the run `Q` holds. -/
def Ensures (bound : Nat) (m₀ : Manager) : {α : Type} → Program α → (Scope → α → Prop) → Manager →
    (α → Manager → Prop) → Prop
  | _, done a, _, m, Q => m₀.Evolves m ∧ m.Coherent bound ∧ Q a m
  | _, one s, T, m, Q =>
    (m₀.Evolves m ∧ m.Coherent bound) ∧ Guards m s T ∧ Build.Ensures bound m₀ m s.exec Q
  | _, bind p next, T, m, Q =>
    Ensures bound m₀ p (fun S a => (next a).Names S T) m fun a m' =>
      Ensures bound m₀ (next a) T m' Q

variable {p : Program α} {T : Scope → α → Prop} {Q R : α → Manager → Prop}

theorem Ensures.run (h : Ensures bound m₀ p T m Q) : Build.Ensures bound m₀ m p.run Q := by
  induction p generalizing m with
  | done a => exact h
  | one s => exact h.2.2
  | bind p next ihp ihn =>
    refine (Build.Ensures.bind (ihp h) fun a m' _ _ hn => ihn a hn).congr ?_
    exact run_bind p next

/-- What holds at the end may be weakened, and the run ends there. -/
theorem Ensures.mono_run (h : Ensures bound m₀ p T m Q)
    (hQR : ∀ a m', p.run m = .ok a m' → m₀.Evolves m' → m'.Coherent bound → Q a m' → R a m') :
    Ensures bound m₀ p T m R := by
  induction p generalizing m with
  | done a => exact ⟨h.1, h.2.1, hQR a m rfl h.1 h.2.1 h.2.2⟩
  | one s =>
    refine ⟨h.1, h.2.1, ?_⟩
    have hs := h.2.2
    unfold Build.Ensures at hs ⊢
    split
    · rename_i a m' hx
      rw [hx] at hs
      exact ⟨hs.1, hs.2.1, hQR a m' hx hs.1 hs.2.1 hs.2.2⟩
    · rename_i i m' hx
      rw [hx] at hs
      exact hs
  | bind p next ihp ihn =>
    refine ihp h fun a m' hp _ _ hn => ihn a hn fun b m'' hb he hc hQ => ?_
    exact hQR b m'' ((run_bind_ok hp).trans hb) he hc hQ

theorem Ensures.mono (h : Ensures bound m₀ p T m Q)
    (hQR : ∀ a m', m₀.Evolves m' → m'.Coherent bound → Q a m' → R a m') :
    Ensures bound m₀ p T m R := h.mono_run fun a m' _ => hQR a m'

theorem Ensures.bind {next : α → Program β} {T : Scope → β → Prop} {R : β → Manager → Prop}
    (h : Ensures bound m₀ p (fun S a => (next a).Names S T) m Q)
    (hn : ∀ a m', m₀.Evolves m' → m'.Coherent bound → Q a m' →
      Ensures bound m₀ (next a) T m' R) : Ensures bound m₀ (p.bind next) T m R :=
  Ensures.mono (p := p) h hn

/-- What is ensured from the current manager is ensured from an earlier one. -/
theorem Ensures.rebase (h : Ensures bound m₁ p T m Q) (he : m₀.Evolves m₁) :
    Ensures bound m₀ p T m fun a m' => m₁.Evolves m' ∧ Q a m' := by
  induction p generalizing m with
  | done a => exact ⟨he.trans h.1, h.2.1, h.1, h.2.2⟩
  | one s =>
    refine ⟨⟨he.trans h.1.1, h.1.2⟩, h.2.1, ?_⟩
    have hs := h.2.2
    unfold Build.Ensures at hs ⊢
    split
    · rename_i a m' hx
      rw [hx] at hs
      exact ⟨he.trans hs.1, hs.2.1, hs.1, hs.2.2⟩
    · rename_i i m' hx
      rw [hx] at hs
      exact ⟨hs.1, he.trans hs.2.1, hs.2.2⟩
  | bind p next ihp ihn =>
    exact (ihp h).mono fun a m' _ _ hn => ihn a hn.2

/-- A run is interrupted only when a reordering may start. -/
theorem Ensures.interrupted (h : Ensures bound m₀ p T m Q) (hx : p.run m = .error .reorder m') :
    m₀.reorderReady = true := by
  induction p generalizing m with
  | done a => cases hx
  | one s =>
    obtain ⟨he, hc⟩ := h.1
    have hm := Step.reorderReady_of_exec hc hx
    rwa [reorderReady, Manager.varNum, he.order, he.auto] at hm
  | bind p next ihp ihn =>
    have hn := Ensures.run (p := p) h
    rw [Build.Ensures] at hn
    simp only [Program.run] at hx
    split at hx
    · rename_i a m₁ hp
      rw [hp] at hn
      exact ihn a hn.2.2 hx
    · rename_i i m₁ hp
      obtain ⟨rfl, rfl⟩ := EStateM.Result.error.inj hx
      exact ihp h hp

/-- What is ensured of a program holds at each step that its run comes to. -/
theorem Ensures.at {s : Step} {rest : s.Answer → Program α} (h : Ensures bound m₀ p T m Q)
    (hs : p.At m s rest m') :
    m₀.Evolves m' ∧ m'.Coherent bound ∧ Guards m' s (fun S a => (rest a).Names S T) ∧
      Build.Ensures bound m₀ m' s.exec fun _ _ => True := by
  induction hs with
  | one s m => exact ⟨h.1.1, h.1.2, h.2.1, h.2.2.mono fun _ _ _ _ _ => trivial⟩
  | first hs ih => exact ih h
  | @second α β p next m m₁ m' a s rest hp hs ih =>
    have hn := Ensures.run (p := p) h
    rw [Build.Ensures, hp] at hn
    exact ih hn.2.2

end Program

end DecisionDiagram
