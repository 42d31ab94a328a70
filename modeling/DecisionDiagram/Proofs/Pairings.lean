/-
Changes of the pairings between operators.

* `Pairings.Fits.create`, `.update`, `.extend` — the pairings go on fitting the variables;
* `Pairings.Renews` — a change that gives a new stamp to each pairing that it touches;
* `ComputedTable.Sound.renews` — by their stamps, the results by old pairings stay out of the way.
-/
import DecisionDiagram.Proofs.Order
import DecisionDiagram.Proofs.Queries

namespace DecisionDiagram

namespace Pairings

variable {p p' : Pairings} {n n' number : Nat} {identity : Array NodeId} {id : NodeId}
  {f : Pairing → Pairing}

/-! ### Entries -/

theorem mem_nodes_create : id ∈ (p.create identity).nodes ↔ id ∈ p.nodes ∨ id ∈ identity := by
  simp only [mem_nodes, create, Array.mem_push]
  grind

theorem mem_nodes_extend : id ∈ (p.extend identity).nodes → id ∈ p.nodes ∨ id ∈ identity := by
  simp only [mem_nodes, extend, Array.mem_map]
  rintro ⟨t, ⟨t', ht', rfl⟩, hid⟩
  rcases Array.mem_append.mp hid with hid | hid
  · exact .inl ⟨t', ht', hid⟩
  · obtain ⟨k, hk, rfl⟩ := Array.mem_extract_iff_getElem.mp hid
    exact .inr (Array.getElem_mem _)

theorem mem_nodes_extend_of_mem (identity : Array NodeId) (h : id ∈ p.nodes) :
    id ∈ (p.extend identity).nodes := by
  obtain ⟨t, ht, hid⟩ := mem_nodes.mp h
  exact mem_nodes.mpr ⟨_, Array.mem_map.mpr ⟨t, ht, rfl⟩, Array.mem_append.mpr (.inl hid)⟩

/-- An update changes one pairing. -/
theorem getElem?_update (h : p.update? number f = some p') {i : Nat} {t : Pairing}
    (ht : p'.tables[i]? = some t) :
    (i ≠ number ∧ p.tables[i]? = some t) ∨
      i = number ∧ ∃ t', p.tables[i]? = some t' ∧ t = { f t' with stamp := p.nextStamp } := by
  unfold update? at h
  split at h
  · obtain rfl := Option.some.inj h
    rw [Array.getElem?_modify] at ht
    split at ht
    · rename_i hi
      obtain ⟨t', ht', rfl⟩ := Option.map_eq_some_iff.mp ht
      exact .inr ⟨hi.symm, t', ht', rfl⟩
    · rename_i hi
      exact .inl ⟨fun heq => hi heq.symm, ht⟩
  · cases h

/-- A pairing can be updated if there is one. -/
theorem exists_update (h : number < p.tables.size) (f : Pairing → Pairing) :
    ∃ p', p.update? number f = some p' := ⟨_, if_pos h⟩

theorem updates_update (h : p.update? number f = some p') : p'.updates = p.updates + 1 := by
  unfold update? at h
  split at h
  · exact Option.some.inj h ▸ rfl
  · cases h

/-! ### Stamps -/

/-- A new stamp is larger than all before, as long as the stamps have not run out. -/
theorem toNat_nextStamp (h : p.updates + 1 < 2 ^ 32) : p.nextStamp.toNat = p.updates + 1 := by
  rw [nextStamp, UInt32.toNat_ofNat_of_lt' h]

/-- One pairing gets a new stamp, and the others keep theirs. -/
theorem Stamped.renew (h : p.Stamped) (number : Nat) (hupdates : p'.updates = p.updates + 1)
    (htables : ∀ {i t}, p'.tables[i]? = some t →
      (i ≠ number ∧ p.tables[i]? = some t) ∨ (i = number ∧ t.stamp = p.nextStamp)) :
    p'.Stamped := by
  intro hu
  rw [hupdates] at hu ⊢
  have hnext := toNat_nextStamp hu
  obtain ⟨hle, hinj⟩ := h (Nat.lt_of_succ_lt hu)
  have hold : ∀ {i : Nat} {t : Pairing}, p.tables[i]? = some t → t.stamp ≠ p.nextStamp := by
    intro i t ht heq
    have := hle t (Array.mem_of_getElem? ht)
    rw [heq, hnext] at this
    lia
  refine ⟨fun t ht => ?_, fun {i j t u} ht hu hs => ?_⟩
  · obtain ⟨i, hi⟩ := Array.mem_iff_getElem?.mp ht
    rcases htables hi with ⟨-, ht⟩ | ⟨-, ht⟩
    · exact Nat.le_succ_of_le (hle t (Array.mem_of_getElem? ht))
    · rw [ht]
      exact Nat.le_of_eq hnext
  · rcases htables ht with ⟨-, ht⟩ | ⟨rfl, ht⟩ <;> rcases htables hu with ⟨-, hu⟩ | ⟨rfl, hu⟩
    · exact hinj ht hu hs
    · exact absurd (hs.trans hu) (hold ht)
    · exact absurd (hs.symm.trans ht) (hold hu)
    · rfl

theorem Fits.create (h : p.Fits n) (hsize : identity.size = n) : (p.create identity).Fits n := by
  refine ⟨fun t ht => ?_, h.stamps.renew p.tables.size rfl fun {i t} ht => ?_⟩
  · rcases Array.mem_push.mp ht with ht | rfl
    · exact h.entries t ht
    · exact ⟨hsize, fun _ hl => by cases hl⟩
  · have ht : (p.tables.push ⟨identity, none, p.nextStamp⟩)[i]? = some t := ht
    rw [Array.getElem?_push] at ht
    split at ht
    · rename_i hi
      exact .inr ⟨hi, Option.some.inj ht ▸ rfl⟩
    · rename_i hi
      exact .inl ⟨hi, ht⟩

theorem Fits.update (h : p.Fits n) (hp : p.update? number f = some p')
    (hf : ∀ t : Pairing, (t.result.size = n ∧ ∀ last, t.last = some last → last < n) →
      (f t).result.size = n ∧ ∀ last, (f t).last = some last → last < n) : p'.Fits n := by
  refine ⟨fun t ht => ?_, h.stamps.renew number (updates_update hp) fun ht => ?_⟩
  · obtain ⟨i, hi⟩ := Array.mem_iff_getElem?.mp ht
    rcases getElem?_update hp hi with ⟨-, ht⟩ | ⟨-, t', ht', rfl⟩
    · exact h.entries t (Array.mem_of_getElem? ht)
    · exact hf t' (h.entries t' (Array.mem_of_getElem? ht'))
  · refine (getElem?_update hp ht).imp_right fun ⟨hi, t', _, heq⟩ => ⟨hi, ?_⟩
    rw [heq]

theorem Fits.extend (h : p.Fits n) (hle : n ≤ n') (hsize : identity.size = n') :
    (p.extend identity).Fits n' := by
  refine ⟨fun t ht => ?_, h.stamps.map fun _ => rfl⟩
  obtain ⟨t', ht', rfl⟩ := Array.mem_map.mp ht
  obtain ⟨hs, hl⟩ := h.entries t' ht'
  refine ⟨?_, fun last hlast => Nat.lt_of_lt_of_le (hl last hlast) hle⟩
  rw [Array.size_append, Array.size_extract, hs, hsize]
  lia

/-! ### Results by old pairings -/

/-- From `p` to `p'`, a pairing has a new stamp, or it is as before up to the last level that it
changes. -/
structure Renews (p p' : Pairings) : Prop where
  updates : p.updates ≤ p'.updates
  tables : p'.updates < 2 ^ 32 → ∀ e' ∈ p'.tables, p.updates < e'.stamp.toNat ∨
    ∃ e ∈ p.tables, e'.stamp = e.stamp ∧ e'.last = e.last ∧
      ∀ last, e.last = some last → ∀ k, k ≤ last → e'.entry k = e.entry k

theorem Renews.refl (p : Pairings) : p.Renews p :=
  ⟨Nat.le_refl _, fun _ e he => .inr ⟨e, he, rfl, rfl, fun _ _ _ _ => rfl⟩⟩

theorem Renews.create (p : Pairings) (identity : Array NodeId) : p.Renews (p.create identity) := by
  refine ⟨Nat.le_succ _, fun hu e he => ?_⟩
  rcases Array.mem_push.mp he with he | rfl
  · exact .inr ⟨e, he, rfl, rfl, fun _ _ _ _ => rfl⟩
  · refine .inl ?_
    rw [toNat_nextStamp hu]
    exact Nat.lt_succ_self _

theorem Renews.update (h : p.update? number f = some p') : p.Renews p' := by
  have hupdates := updates_update h
  refine ⟨hupdates ▸ Nat.le_succ _, fun hu e he => ?_⟩
  rw [hupdates] at hu
  obtain ⟨i, hi⟩ := Array.mem_iff_getElem?.mp he
  rcases getElem?_update h hi with ⟨-, he⟩ | ⟨-, t', -, rfl⟩
  · exact .inr ⟨e, Array.mem_of_getElem? he, rfl, rfl, fun _ _ _ _ => rfl⟩
  · refine .inl ?_
    rw [toNat_nextStamp hu]
    exact Nat.lt_succ_self _

theorem Renews.extend (h : p.Fits n) (identity : Array NodeId) : p.Renews (p.extend identity) := by
  refine ⟨Nat.le_refl _, fun _ e he => ?_⟩
  obtain ⟨e, hold, rfl⟩ := Array.mem_map.mp he
  obtain ⟨hsize, hlast⟩ := h.entries e hold
  refine .inr ⟨e, hold, rfl, rfl, fun last hl k hk => ?_⟩
  have hk : k < e.result.size := hsize ▸ Nat.lt_of_le_of_lt hk (hlast last hl)
  simp only [Pairing.entry, Array.getD_eq_getD_getElem?, Array.getElem?_append_left hk]

end Pairings

theorem Query.Tells.renews {tree : NodeId → Tree} {p p' : Pairings} {q : Query} {t : Tree}
    (h : q.Tells tree p t) (hp : p.Renews p') : q.Tells tree p' t := by
  -- A pairing with the stamp of the query is not a new one.
  have same : ∀ {stamp : UInt32}, stamp.toNat ≤ p.updates → p'.updates < 2 ^ 32 →
      ∀ e' ∈ p'.tables, e'.stamp = stamp → ∃ e ∈ p.tables, e.stamp = stamp ∧ e'.last = e.last ∧
        ∀ last, e.last = some last → ∀ k, k ≤ last → e'.entry k = e.entry k := by
    rintro _ hle hu e' he' rfl
    rcases hp.tables hu e' he' with hlt | ⟨e, he, hs, hsame⟩
    · exact absurd hle (Nat.not_le.mpr hlt)
    · exact ⟨e, he, hs.symm, hsame⟩
  cases q with
  | rename stamp f =>
    intro hu
    obtain ⟨hle, hall⟩ := h (Nat.lt_of_le_of_lt hp.updates hu)
    refine ⟨Nat.le_trans hle hp.updates, fun e' he' hs => ?_⟩
    obtain ⟨e, he, hs, hlast, hentry⟩ := same hle hu e' he' hs
    obtain ⟨last, hl, hres⟩ := hall e he hs
    refine ⟨last, hlast.trans hl, ?_⟩
    rw [← hres]
    exact Tree.rename_congr (fun k hk => by rw [hentry last hl k hk]) _
  | vecCompose stamp f =>
    intro hu
    obtain ⟨hle, hall⟩ := h (Nat.lt_of_le_of_lt hp.updates hu)
    refine ⟨Nat.le_trans hle hp.updates, fun e' he' hs => ?_⟩
    obtain ⟨e, he, hs, hlast, hentry⟩ := same hle hu e' he' hs
    obtain ⟨last, hl, hres⟩ := hall e he hs
    refine ⟨last, hlast.trans hl, ?_⟩
    rw [← hres]
    exact Tree.vecCompose_congr (fun k hk => by rw [hentry last hl k hk]) _
  | _ => exact h

/-- The tables stay right when touched pairings have new stamps. -/
theorem ComputedTable.Sound.renews {t : ComputedTable} {g : Diagram} {p p' : Pairings}
    {ground : Level → Prop} (h : t.Sound g p ground) (hp : p.Renews p') : t.Sound g p' ground where
  results hcache hres := by
    obtain ⟨q, hfamily, hkey, hright⟩ := h.results hcache hres
    exact ⟨q, hfamily, hkey, hright.operands, hright.live, hright.tells.renews hp⟩
  counts hx := h.counts hx

end DecisionDiagram
