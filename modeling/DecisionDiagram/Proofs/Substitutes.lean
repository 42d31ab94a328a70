/-
What is substituted for each variable, from one manager to another.

* `Manager.substitute?` — the entry of a pairing for a variable, which stands at the variable's level;
* `Manager.Plain` — past the last level that was set, every variable stands for itself;
* `Manager.Carries` — what a call leaves of the pairings that it does not edit;
* `Manager.Carries.of_carried`, `.settle`, `.create`, `.update` — the order changes, the pairings get
  entries for new variables, there is a new pairing, or one is edited.
-/
import DecisionDiagram.Proofs.Pairings
import DecisionDiagram.Variables

namespace DecisionDiagram

namespace Pairings

variable {p p' : Pairings} {number i : Nat} {f : Pairing → Pairing}

theorem getElem?_update_of_ne (h : p.update? number f = some p') (hi : i ≠ number) :
    p'.tables[i]? = p.tables[i]? := by
  unfold update? at h
  split at h
  · obtain rfl := Option.some.inj h
    rw [Array.getElem?_modify, if_neg (Ne.symm hi)]
  · cases h

theorem size_update (h : p.update? number f = some p') : p'.tables.size = p.tables.size := by
  unfold update? at h
  split at h
  · obtain rfl := Option.some.inj h
    exact Array.size_modify
  · cases h

/-- An entry of a table that has been extended is an old one or one of the identity. -/
theorem getElem?_extended (old identity : Array NodeId) (l : Level) :
    (old ++ identity.extract old.size identity.size)[l]? =
      if l < old.size then old[l]? else identity[l]? := by
  split
  · rename_i hl
    exact Array.getElem?_append_left hl
  · rename_i hl
    rw [Array.getElem?_append_right (Nat.not_lt.mp hl), Array.getElem?_extract,
      Nat.add_sub_cancel' (Nat.not_lt.mp hl)]
    split
    · rfl
    · rename_i hlt
      exact (Array.getElem?_eq_none (by lia)).symm

end Pairings

namespace Manager

variable {m m' m'' : Manager} {edited : Option Nat}

/-- What a pairing substitutes for a variable. -/
def substitute? (m : Manager) (number : Nat) (v : Var) : Option NodeId :=
  m.pairings.substitute? m.order number v

/-- The positive literal of a variable. -/
def positive? (m : Manager) (v : Var) : Option NodeId := (m.literals[v]?).map Prod.fst

/-- Past the last level that was set, every variable stands for itself. -/
def Plain (m : Manager) : Prop := m.pairings.Plain m.order m.positive?

/-- The entry of the identity for a level is the literal of the variable there. -/
theorem getElem?_identity (ho : m.order.Valid) (hl : m.literals.size = m.varNum) {l : Level}
    {f : NodeId} (h : m.identity[l]? = some f) :
    ∃ v, m.order.varAt[l]? = some v ∧ m.positive? v = some f := by
  rw [identity, Array.getElem?_map] at h
  obtain ⟨v, hv, rfl⟩ := Option.map_eq_some_iff.mp h
  have hlt : v < m.literals.size := by
    rw [hl]
    exact ho.mem_toList.mp (VarOrder.mem_toList_iff.mpr ⟨l, hv⟩)
  refine ⟨v, hv, ?_⟩
  rw [positive?, Array.getD_eq_getD_getElem?, Array.getElem?_eq_getElem hlt]
  rfl

/-- What is indexed by variables or levels has an entry for each variable, and the order is a
permutation. -/
structure Aligned (m : Manager) : Prop where
  order : m.order.Valid
  literals_size : m.literals.size = m.varNum
  pairings : m.pairings.Fits m.varNum

/-- What a piece of a call leaves of the pairings, but for the one that it edits: variables keep what
is substituted for them, and new ones stand for themselves. -/
structure Carries (edited : Option Nat) (m m' : Manager) : Prop where
  tables : m.pairings.tables.size ≤ m'.pairings.tables.size
  kept : ∀ {number v f}, edited ≠ some number → m.substitute? number v = some f →
    m'.substitute? number v = some f
  fresh : ∀ {number v f}, edited ≠ some number → number < m.pairings.tables.size →
    m.substitute? number v = none → m'.substitute? number v = some f → m'.positive? v = some f
  plain : m.Plain → m'.Plain

theorem Carries.of_carried (h : Pairings.Carried m.order m.pairings m'.order m'.pairings)
    (hl : m'.literals = m.literals) : m.Carries edited m' := by
  refine ⟨Nat.le_of_eq h.tables.symm, fun {number v f} _ hf => ?_,
    fun {number v f} _ _ hnone hf => ?_, fun hplain => ?_⟩
  · exact (h.substitute number v).trans hf
  · have := (h.substitute number v).symm.trans hf
    cases hnone.symm.trans this
  · have hpositive : m'.positive? = m.positive? := by
      funext v
      rw [positive?, positive?, hl]
    rw [Plain, hpositive]
    exact h.plain hplain

theorem Carries.of_eq (ho : m'.order = m.order) (hp : m'.pairings = m.pairings)
    (hl : m'.literals = m.literals) : m.Carries edited m' :=
  .of_carried (by rw [ho, hp]; exact .refl _ _) hl

theorem Carries.refl (edited : Option Nat) (m : Manager) : m.Carries edited m := .of_eq rfl rfl rfl

theorem Carries.trans (h : m.Carries edited m') (h' : m'.Carries edited m'')
    (hl : ∀ {v : Var} {p}, m'.literals[v]? = some p → m''.literals[v]? = some p) :
    m.Carries edited m'' where
  tables := Nat.le_trans h.tables h'.tables
  kept hne hf := h'.kept hne (h.kept hne hf)
  fresh {number v f} hne hlt hnone hf := by
    rcases hmid : m'.substitute? number v with _ | g
    · exact h'.fresh hne (Nat.lt_of_lt_of_le hlt h.tables) hmid hf
    · obtain rfl := Option.some.inj ((h'.kept hne hmid).symm.trans hf)
      obtain ⟨p, hp, rfl⟩ := Option.map_eq_some_iff.mp (h.fresh hne hlt hnone hmid)
      rw [positive?, hl hp]
      rfl
  plain hplain := h'.plain (h.plain hplain)

theorem Carries.congr (h : m.Carries edited m') (ho : m''.order = m'.order)
    (hp : m''.pairings = m'.pairings) (hl : m''.literals = m'.literals) : m.Carries edited m'' :=
  h.trans (.of_eq ho hp hl) fun hp => by rwa [hl]

theorem Carries.mono (h : m.Carries none m') (edited : Option Nat) : m.Carries edited m' :=
  ⟨h.tables, fun _ => h.kept nofun, fun _ => h.fresh nofun, h.plain⟩

theorem substitute?_eq_some {number : Nat} {v : Var} {f : NodeId} :
    m.substitute? number v = some f ↔ ∃ t l, m.pairings.tables[number]? = some t ∧
      m.order.levelOf[v]? = some l ∧ t.result[l]? = some f := by
  simp only [substitute?, Pairings.substitute?, Option.bind_eq_bind, Option.bind_eq_some_iff]
  grind

/-! ### New variables -/

/-- The pairings get entries for the variables that they have none for. -/
theorem Carries.settle (ho : m.order.Valid) (hl : m.literals.size = m.varNum) :
    m.Carries edited m.settle := by
  have htables : ∀ number : Nat, m.settle.pairings.tables[number]? =
      (m.pairings.tables[number]?).map fun t =>
        { t with result := t.result ++ m.identity.extract t.result.size m.identity.size } :=
    fun _ => Array.getElem?_map
  refine ⟨Nat.le_of_eq Array.size_map.symm, fun _ hf => ?_, fun {number v f} _ _ hnone hf => ?_,
    fun hplain t' ht' l f hf hlast => ?_⟩
  · obtain ⟨t, l, ht, hv, hf⟩ := substitute?_eq_some.mp hf
    refine substitute?_eq_some.mpr ⟨_, l, (htables _).trans (by rw [ht]; rfl), hv, ?_⟩
    rw [Pairings.getElem?_extended, if_pos (Array.getElem?_eq_some_iff.mp hf).1]
    exact hf
  · obtain ⟨t', l, ht', hv, hf⟩ := substitute?_eq_some.mp hf
    obtain ⟨t, ht, rfl⟩ := Option.map_eq_some_iff.mp ((htables number).symm.trans ht')
    rw [Pairings.getElem?_extended] at hf
    split at hf
    · cases hnone.symm.trans (substitute?_eq_some.mpr ⟨t, l, ht, hv, hf⟩)
    · obtain ⟨w, hw, hpositive⟩ := getElem?_identity ho hl hf
      obtain rfl := Option.some.inj (hw.symm.trans (ho.varAt_levelOf hv))
      exact hpositive
  · obtain ⟨t, ht, rfl⟩ := Array.mem_map.mp ht'
    rw [Pairings.getElem?_extended] at hf
    split at hf
    · exact hplain t ht hf hlast
    · exact getElem?_identity ho hl hf

/-! ### Edited pairings -/

/-- In a new pairing every variable stands for itself. -/
theorem Carries.create (ho : m.order.Valid) (hl : m.literals.size = m.varNum) :
    m.Carries edited { m with pairings := m.pairings.create m.identity } := by
  have hold : ∀ {number : Nat}, number < m.pairings.tables.size →
      (m.pairings.create m.identity).tables[number]? = m.pairings.tables[number]? := fun hlt => by
    rw [Pairings.create, Array.getElem?_push, if_neg (Nat.ne_of_lt hlt)]
  refine ⟨?_, fun _ hf => ?_, fun {number v f} _ hlt hnone hf => ?_, fun hplain t ht l f hf hlast => ?_⟩
  · show _ ≤ (m.pairings.tables.push _).size
    rw [Array.size_push]
    exact Nat.le_succ _
  · obtain ⟨t, l, ht, hv, hf⟩ := substitute?_eq_some.mp hf
    exact substitute?_eq_some.mpr
      ⟨t, l, (hold (Array.getElem?_eq_some_iff.mp ht).1).trans ht, hv, hf⟩
  · obtain ⟨t, l, ht, hv, hf⟩ := substitute?_eq_some.mp hf
    cases hnone.symm.trans (substitute?_eq_some.mpr ⟨t, l, (hold hlt).symm.trans ht, hv, hf⟩)
  · rcases Array.mem_push.mp ht with ht | rfl
    · exact hplain t ht hf hlast
    · exact getElem?_identity ho hl hf

/-- A pairing is edited in such a way that variables past the last level that was set still stand for
themselves. -/
theorem Carries.update {number : Nat} {g : Pairing → Pairing} {p : Pairings}
    (hp : m.pairings.update? number g = some p)
    (hg : ∀ t ∈ m.pairings.tables, m.Plain → ∀ {l : Level} {f : NodeId}, (g t).result[l]? = some f →
      (∀ last, (g t).last = some last → last < l) →
      ∃ v, m.order.varAt[l]? = some v ∧ m.positive? v = some f) :
    m.Carries (some number) { m with pairings := p } := by
  have hother : ∀ {i : Nat}, some number ≠ some i → p.tables[i]? = m.pairings.tables[i]? := fun hne =>
    Pairings.getElem?_update_of_ne hp fun heq => hne (congrArg some heq.symm)
  refine ⟨Nat.le_of_eq (Pairings.size_update hp).symm, fun hne hf => ?_,
    fun {i v f} hne _ hnone hf => ?_, fun hplain t ht l f hf hlast => ?_⟩
  · obtain ⟨t, l, ht, hv, hf⟩ := substitute?_eq_some.mp hf
    exact substitute?_eq_some.mpr ⟨t, l, (hother hne).trans ht, hv, hf⟩
  · obtain ⟨t, l, ht, hv, hf⟩ := substitute?_eq_some.mp hf
    cases hnone.symm.trans (substitute?_eq_some.mpr ⟨t, l, (hother hne).symm.trans ht, hv, hf⟩)
  · obtain ⟨i, hi⟩ := Array.mem_iff_getElem?.mp ht
    rcases Pairings.getElem?_update hp hi with ⟨-, hi⟩ | ⟨-, t', ht', rfl⟩
    · exact hplain t (Array.mem_of_getElem? hi) hf hlast
    · exact hg t' (Array.mem_of_getElem? ht') hplain hf hlast

end Manager

end DecisionDiagram
