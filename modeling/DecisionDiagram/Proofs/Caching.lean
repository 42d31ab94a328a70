/-
What the computed tables hold is what the recursions would answer without them.

* `ComputedTable.bare` — tables without any slot, which no look-up finds anything in;
* `Query.Computes` — the recursion that a query stands for;
* `Manager.Cached` — every entry mentions live nodes only, and its value is what the recursion answers
  on the same graph with bare tables;
* `Manager.Settled.cached` — so it is between two calls, and at each step of an operator.
-/
import DecisionDiagram.Proofs.Commands
import DecisionDiagram.Proofs.Runs

namespace DecisionDiagram

open Manager Program

/-! ### Bare tables -/

namespace ComputedTable

/-- Tables without any slot. -/
def bare : ComputedTable := ⟨#[], ⟨#[], 0, 0, 0⟩, 0⟩

theorem Sound.bare (g : Diagram) (p : Pairings) (ground : Level → Prop) :
    ComputedTable.bare.Sound g p ground :=
  .of_empty (fun hcache => by simp [ComputedTable.bare] at hcache)
    fun ⟨_, hi⟩ => by simp [ComputedTable.bare] at hi

end ComputedTable

namespace Manager

variable {m m' : Manager} {q : Query} {p : Program NodeId} {res res' : NodeId}

/-- The manager with bare tables. -/
def uncached (m : Manager) : Manager := { m with computed := .bare }

/-- The tables have no slot for results. -/
def Bare (m : Manager) : Prop := m.computed.results.size = 0

/-- In bare tables, every look-up is in vain. -/
theorem Bare.find? (h : m.Bare) (q : Query) : m.computed.find? q = none := by
  rw [ComputedTable.find?, Array.getElem?_eq_none (by rw [h]; exact Nat.zero_le _)]

theorem robust_bare : Build.Robust Bare where
  collect {m m' freed} hm h := by
    unfold collect at h
    split at h
    · cases h
    · dsimp only at h
      split at h
      · cases h
      · obtain ⟨-, rfl⟩ := Prod.mk.inj (Option.some.inj h)
        unfold Bare refreshComputed
        dsimp only
        split
        · exact Array.size_map.trans hm
        · exact Array.size_mapIdx.trans hm
  grow {m m'} hm h := by
    unfold grow at h
    split at h
    · exact Option.some.inj h ▸ hm
    · obtain ⟨m₁, hm₁, rfl⟩ := Option.map_eq_some_iff.mp h
      obtain ⟨table, -, rfl⟩ := Option.map_eq_some_iff.mp hm₁
      rcases fitComputed_eq _ with h | ⟨bits, h⟩
      · rw [h]
        exact hm
      · rw [h]
        exact Array.size_map.trans hm
  create _ _ _ hm := hm

theorem Bare.exec (hm : m.Bare) {s : Step} {a : s.Answer} (h : s.exec m = .ok a m') : m'.Bare := by
  cases s with
  | mk => exact robust_bare.make hm h
  | pop =>
    rcases hp : m.pending with _ | ⟨id, rest⟩
    · cases (Build.pop_eq_fault hp).symm.trans h
    · obtain ⟨-, rfl⟩ := EStateM.Result.ok.inj ((Build.pop_eq hp).symm.trans h)
      exact hm
  | fault => cases h
  | fail => cases h
  | lookup => exact (EStateM.Result.ok.inj h).2 ▸ Array.size_modify.trans hm
  | remember => exact (EStateM.Result.ok.inj h).2 ▸ Array.size_modify.trans hm
  | lookupCount => exact (EStateM.Result.ok.inj h).2 ▸ hm
  | rememberCount => exact (EStateM.Result.ok.inj h).2 ▸ hm
  | push => exact (EStateM.Result.ok.inj h).2 ▸ hm
  | keepOnly => exact (EStateM.Result.ok.inj h).2 ▸ hm
  | _ =>
    simp only [Step.exec] at h
    rwa [Build.eq_of_read h]

theorem Bare.run {α : Type} {p : Program α} {a : α} (hm : m.Bare) (h : p.run m = .ok a m') :
    m'.Bare := by
  induction p generalizing m m' with
  | done a => exact (EStateM.Result.ok.inj h).2 ▸ hm
  | one s => exact hm.exec h
  | bind p next ihp ihn =>
    obtain ⟨a, m₁, h₁, h₂⟩ := run_bind_eq_ok h
    exact ihn a (ihp hm h₁) h₂

/-- A run that starts with bare tables has bare tables at each step. -/
theorem Bare.at {α : Type} {p : Program α} (hm : m.Bare) {s : Step} {rest : s.Answer → Program α}
    (h : p.At m s rest m') : m'.Bare := by
  induction h with
  | one => exact hm
  | first _ ih => exact ih hm
  | second hp _ ih => exact ih (hm.run hp)

theorem Sound.uncached (hm : m.Sound) : m.uncached.Sound :=
  hm.evolves (evolves_setComputed m .bare) (Coherent.setComputed hm.toCoherent (.bare _ _ _))

end Manager

/-! ### The recursions behind the queries -/

/-- The recursion that answers a query. A substitution stands for a pairing that has the stamp by
now. -/
inductive Query.Computes (m : Manager) : Query → Program NodeId → Prop
  | not (f : NodeId) : Computes m (.not f) (Program.not f m.depth)
  | apply (op : Connective) (l r : NodeId) :
    Computes m (.apply op l r) (Program.apply op l r m.depth)
  | ite (f g h : NodeId) : Computes m (.ite f g h) (Program.ite f g h m.depth)
  | quantify (q : Quantifier) (f cube : NodeId) :
    Computes m (.quantify q f cube) (Program.quantifyCube q f cube m.depth)
  | restrict (f cube : NodeId) : Computes m (.restrict f cube) (Program.restrictCube f cube m.depth)
  | applyQuantify (q : Quantifier) (op : Connective) (l r cube : NodeId) :
    Computes m (.applyQuantify q op l r cube) (Program.applyQuantifyCube q op l r cube m.depth)
  | rename {number : Nat} {e : Pairing} (h : m.pairings.tables[number]? = some e) (f : NodeId) :
    Computes m (.rename e.stamp f) (Program.renameBy f number m.depth)
  | vecCompose {number : Nat} {e : Pairing} (h : m.pairings.tables[number]? = some e)
    (f : NodeId) : Computes m (.vecCompose e.stamp f) (Program.vecComposeBy f number m.depth)
  | constrain (f care : NodeId) : Computes m (.constrain f care) (Program.constrain f care m.depth)
  | simplify (f care : NodeId) : Computes m (.simplify f care) (Program.simplify f care m.depth)
  | compose {level : Level} (h : level < m.varNum) (f g : NodeId) :
    Computes m (.compose level f g) (Program.compose level f g m.depth)

/-- The recursion that answers a count. -/
def CountQuery.recursion : CountQuery → Nat → Program Float
  | sat f => Program.satCountFrom f
  | path f => Program.pathCountFrom f

namespace Manager

variable {m m' : Manager} {q : Query} {p : Program NodeId} {res res' : NodeId}

/-- A right answer is the one that the recursion yields. -/
theorem Sound.yields_right (hm : m.Sound) (hu : m.pairings.updates < 2 ^ 32)
    (h : q.Right m.diagram m.pairings res) (hp : q.Computes m p) (hk : ∀ x ∈ q.nodes, m.Kept x) :
    Yields m p (· = m.diagram.tree res) := by
  have htells := h.tells
  cases hp <;> simp only [Query.nodes, List.mem_cons, List.not_mem_nil, or_false, forall_eq_or_imp,
    forall_eq] at hk
  case not => exact htells ▸ .not_depth hm hk
  case apply => exact htells ▸ .apply_depth hm hk.1 hk.2
  case ite => exact htells ▸ .ite_depth hm hk.1 hk.2.1 hk.2.2
  case quantify q f cube => exact htells ▸ .quantifyCube q hm hk.1 hk.2
  case restrict => exact htells ▸ .restrictCube hm hk.1 hk.2
  case applyQuantify q op l r cube => exact htells ▸ .applyQuantifyCube q op hm hk.1 hk.2.1 hk.2.2
  case rename number e he f =>
    -- The pairing has changed something, and with its stamp there is one result only.
    obtain ⟨last, hlast, hres⟩ := (htells hu).2 e (Array.mem_of_getElem? he) rfl
    refine (Yields.renameBy hm (by rw [pairing, he]) hk).mono fun t ht => ?_
    obtain ⟨last', hlast', hres'⟩ := (ht last hlast hu).2 e (Array.mem_of_getElem? he) rfl
    obtain rfl := Option.some.inj (hlast.symm.trans hlast')
    exact Option.some.inj (hres'.symm.trans hres)
  case vecCompose number e he f =>
    obtain ⟨last, hlast, hres⟩ := (htells hu).2 e (Array.mem_of_getElem? he) rfl
    refine (Yields.vecComposeBy hm (by rw [pairing, he]) hk).mono fun t ht => ?_
    obtain ⟨last', hlast', hres'⟩ := (ht last hlast hu).2 e (Array.mem_of_getElem? he) rfl
    obtain rfl := Option.some.inj (hlast.symm.trans hlast')
    exact hres'.symm.trans hres
  case constrain => exact htells ▸ .constrain_depth hm hk.1 hk.2
  case simplify => exact htells ▸ .simplify_depth hm hk.1 hk.2
  case compose level hlevel f g => exact htells ▸ .compose_depth hm hlevel hk.1 hk.2

/-- Without tables, the recursion ends with the right answer, while this is kept. -/
theorem Sound.recomputes (hm : m.Sound) (hu : m.pairings.updates < 2 ^ 32)
    (h : q.Right m.diagram m.pairings res) (hp : q.Computes m p)
    (hrun : p.run (m.uncached.equip (res :: q.nodes)) = .ok res' m') : res' = res := by
  have hlive : ∀ x ∈ res :: q.nodes, m.uncached.diagram.Live x :=
    List.forall_mem_cons.mpr ⟨h.live, h.operands⟩
  obtain ⟨e, he⟩ : ∃ e, e = m.uncached.equip (res :: q.nodes) := ⟨_, rfl⟩
  have hsound : e.Sound := he ▸ hm.uncached.equip hlive
  have hkept : ∀ x ∈ res :: q.nodes, e.Kept x := fun x hx => he ▸ kept_equip hx
  have hright : q.Right e.diagram e.pairings res := he ▸ h
  have hcomputes : q.Computes e p := by
    rw [he]
    cases hp <;> constructor <;> assumption
  have hyields := hsound.yields_right (he ▸ hu) hright hcomputes fun x hx =>
    hkept x (List.mem_cons_of_mem _ hx)
  have hends := Ensures.run (hyields (fun _ _ => True) fun _ _ => trivial)
  rw [Build.Ensures, he, hrun] at hends
  obtain ⟨hev, hc, hlive', htree⟩ := hends
  rw [← he] at hev htree
  have hres := hkept res List.mem_cons_self
  refine hc.reduced.tree_injective hlive' (hc.kept_live (hev.of_kept hres)) ?_
  rw [htree, hev.tree hsound.toCoherent hc hres]

/-- A right count is the one that the recursion answers without tables. -/
theorem Sound.recounts (hm : m.Sound) {q : CountQuery} (hq : m.diagram.Live q.node) {x : Float}
    (hrun : (q.recursion m.depth).run m.uncached = .ok x m') :
    x = q.count m.varNum (m.diagram.tree q.node) := by
  have hdepth : m.depth = m.varNum + 2 := rfl
  have hr : m.uncached.Recomputed m.uncached := .refl _
  have hc : Counts m.uncached (q.recursion m.depth)
      (q.count m.uncached.varNum (m.uncached.diagram.tree q.node)) := by
    have hunder : m.uncached.diagram.Under id 0 q.node := hq.under.mono (Nat.zero_le _)
    have hbound : m.uncached.varNum < m.depth + 0 := by
      show m.varNum < m.depth + 0
      lia
    cases q with
    | sat f => exact .satCountFrom hr hm.uncached hm.uncached hunder (Nat.zero_le _) hbound
    | path f => exact .pathCountFrom hr hm.uncached hm.uncached hunder (Nat.zero_le _) hbound
  have hends := Ensures.run (hc.ensures fun _ _ => True)
  rw [Build.Ensures, hrun] at hends
  exact hends.2.2

/-! ### All entries -/

/-- Every entry of the computed tables mentions live nodes only, and its value is what the recursion
for its key answers without the tables. -/
structure Cached (m : Manager) : Prop where
  results : ∀ {family : Nat} {cache : Cache Key NodeId} {key : Key} {res : NodeId},
    m.computed.results[family]? = some cache → cache.Holds key res →
      (∀ x ∈ key.nodes family, m.store.isLive x = true) ∧ m.store.isLive res = true ∧
      ∃ q : Query, q.family = family ∧ q.key = key ∧ m.Tells q (m.diagram.tree res) ∧
        ∀ p, q.Computes m p → ∀ res' m',
          p.run (m.uncached.equip (res :: q.nodes)) = .ok res' m' → res' = res
  counts : ∀ {key : Key} {x : Float}, m.computed.counts.Holds key x →
      m.store.isLive key.counted = true ∧
      ∃ q : CountQuery, q.key = key ∧ x = q.count m.varNum (m.diagram.tree q.node) ∧
        ∀ y m', (q.recursion m.depth).run m.uncached = .ok y m' → y = x

theorem Sound.caches_right (hm : m.Sound) (hu : m.pairings.updates < 2 ^ 32) : m.Cached where
  results {family cache key res} hcache hres := by
    obtain ⟨q, rfl, rfl, hright⟩ := hm.computed.results hcache hres
    refine ⟨fun x hx => ?_, hm.store.live_iff.mp hright.live, q, rfl, rfl, hright.tells,
      fun p hp res' m' hrun => hm.recomputes hu hright hp hrun⟩
    rw [Query.nodes_key] at hx
    exact hm.store.live_iff.mp (hright.operands x hx)
  counts {key x} hx := by
    obtain ⟨q, rfl, hlive, hcount⟩ := hm.computed.counts hx
    have hcount := hcount m.varNum hm.terminals
    rw [CountQuery.counted_key]
    exact ⟨hm.store.live_iff.mp hlive, q, rfl, hcount, fun y m' hrun =>
      (hm.recounts hlive hrun).trans hcount.symm⟩

end Manager

/-! ### Steps of a run -/

namespace Program

variable {α : Type} {p : Program α} {T : Scope → α → Prop} {Q : α → Manager → Prop} {m m' : Manager}

/-- A program that does its work finds a sound manager at each step, and leaves a sound one. -/
theorem Ensures.sound_at (h : Ensures m.varNum m p T m Q) (hm : m.Sound) {s : Step}
    {rest : s.Answer → Program α} (hs : p.At m s rest m') :
    m'.Sound ∧ ∀ a m'', s.exec m' = .ok a m'' → m''.Sound := by
  obtain ⟨he, hc, -, hx⟩ := h.at hs
  refine ⟨hm.evolves he hc, fun a m'' hexec => ?_⟩
  rw [Build.Ensures, hexec] at hx
  exact hm.evolves hx.1 hx.2.1

end Program

namespace Manager

variable {m m' : Manager}

/-- The same for a count, which may be declined. -/
theorem Sound.sound_at (hm : m.Sound) {p : Program Float}
    (h : p.Declines m ∨ ∃ x, p.Counts m x) {s : Step} {rest : s.Answer → Program Float}
    (hs : p.At m s rest m') : m'.Sound ∧ ∀ a m'', s.exec m' = .ok a m'' → m''.Sound := by
  rcases h with h | ⟨x, hx⟩
  · obtain ⟨rfl, hexec⟩ := h.at hs
    exact ⟨hm, fun a m'' ha => hexec a m'' ha ▸ hm⟩
  · exact (hx.ensures fun _ _ => True).sound_at hm hs

/-- The computed tables are sound: between two calls, and before and after each step of the program
of an operator or a count, so in particular at each look-up and after each node that is made. -/
theorem Settled.cached (hm : m.Settled) :
    (m.pairings.updates < 2 ^ 32 → m.Cached) ∧
    (∀ (c : Command) (r : Request) (p : Program NodeId) (m₀ : Manager), c.request? = some r →
      Action.Attempts r m p m₀ → ∀ (s : Step) (rest : s.Answer → Program NodeId) (m' : Manager),
        p.At m₀ s rest m' →
          (m'.pairings.updates < 2 ^ 32 → m'.Cached) ∧
          ∀ a m'', s.exec m' = .ok a m'' → m''.pairings.updates < 2 ^ 32 → m''.Cached) ∧
    (∀ (c : Command) (p : Program Float), c.count? = some p →
      ∀ (s : Step) (rest : s.Answer → Program Float) (m' : Manager), p.At m s rest m' →
        (m'.pairings.updates < 2 ^ 32 → m'.Cached) ∧
        ∀ a m'', s.exec m' = .ok a m'' → m''.pairings.updates < 2 ^ 32 → m''.Cached) := by
  have hready := hm.ready
  refine ⟨hready.toSound.caches_right, ?_, ?_⟩
  · intro c r p m₀ hc hp s rest m' hs
    obtain ⟨hm₀, hens⟩ := hp.ensures hready (Command.fulfilled hc m hready)
    obtain ⟨hbefore, hafter⟩ := hens.sound_at hm₀ hs
    exact ⟨hbefore.caches_right, fun a m'' hx => (hafter a m'' hx).caches_right⟩
  · intro c p hc s rest m' hs
    obtain ⟨hbefore, hafter⟩ := hready.toSound.sound_at (Command.counts hc hready.toSound) hs
    exact ⟨hbefore.caches_right, fun a m'' hx => (hafter a m'' hx).caches_right⟩

/-- Under the policy that cleans the tables, an entry outlasts a collection. The node that took the
slot of a freed one has an entry of its own. -/
theorem cached_after_collection :
    ∃ m, after (.small 16 16) [.setVarNum 2, .setCachePolicy .clean, .apply .and 2 4, .gc,
        .apply .or 2 4, .protect 6, .gc] = some m ∧
      m.computed.find? (.apply .or 2 4) = some 6 ∧ m.computed.find? (.apply .and 2 4) = none ∧
      m.store.isLive 6 = true ∧
      m.diagram.tree 6 = Tree.apply .or (m.diagram.tree 2) (m.diagram.tree 4) := by
  have hrun : (after (.small 16 16) [.setVarNum 2, .setCachePolicy .clean, .apply .and 2 4, .gc,
      .apply .or 2 4, .protect 6, .gc]).any fun m =>
        m.computed.find? (.apply .or 2 4) == some 6 && m.computed.find? (.apply .and 2 4) == none &&
        m.pairings.updates == 0 := by
    decide +kernel
  obtain ⟨m, hm, hfacts⟩ := (Option.any_eq_true _ _).mp hrun
  simp only [Bool.and_eq_true, beq_iff_eq] at hfacts
  obtain ⟨⟨hfind, hnone⟩, hupdates⟩ := hfacts
  have hcached := (settled_after hm).cached.1 (by rw [hupdates]; decide)
  obtain ⟨cache, hcache, hholds⟩ := ComputedTable.holds_of_find? hfind
  obtain ⟨-, hlive, q, hfamily, hkey, htells, -⟩ := hcached.results hcache hholds
  obtain rfl := Query.key_injective hfamily hkey
  exact ⟨m, hm, hfind, hnone, hlive, htells⟩

end Manager

end DecisionDiagram
