/-
Open addressing is an exact index.

A stretch of slots is described by the set of nodes that it holds.  Each of them stands on the path
of its own record, that is, no slot that the search looks at before is empty (`Stretch.path`); and
each non-empty slot holds one of them (`Stretch.entry`).

* `Stretch.found`, `Stretch.vacant` — what the two outcomes of a search say;
* `Stretch.exists_probe` — a search in a stretch with a vacancy ends, because the odd stride leads
  to every slot (`bijOn_probePos`);
* `Stretch.found_iff`, `Stretch.exists_vacant` — which outcome it has;
* `Stretch.insert` — the vacancy is the right place for the node that was looked for.
-/
import Mathlib.Data.Finset.Card
import Mathlib.Data.Finset.Range
import Mathlib.Data.Int.ModEq
import Mathlib.Data.Nat.Prime.Basic
import Mathlib.Tactic.Common
import DecisionDiagram.Probe

namespace DecisionDiagram

/-- The position, relative to the start of a stretch, after `k` jumps. -/
def probePos (key : Node) (size k : Nat) : Nat :=
  ((key.hash % size.toUInt64).toNat + k * (key.stride % size.toUInt64).toNat) % size

theorem probePos_succ (key : Node) (size k : Nat) :
    probePos key size (k + 1) =
      (probePos key size k + (key.stride % size.toUInt64).toNat) % size := by
  rw [probePos, probePos, Nat.mod_add_mod, Nat.add_mul, Nat.one_mul, Nat.add_assoc]

theorem probePos_lt {size : Nat} (hs : 0 < size) (key : Node) (k : Nat) :
    probePos key size k < size :=
  Nat.mod_lt _ hs

theorem toNat_toUInt64 {n : Nat} (h : n < 2 ^ 64) : n.toUInt64.toNat = n := by
  simpa [Nat.toUInt64, UInt64.toNat_ofNat] using Nat.mod_eq_of_lt h

theorem probePos_zero {size : Nat} (h : size < 2 ^ 64) (key : Node) :
    probePos key size 0 = (key.hash % size.toUInt64).toNat := by
  rw [probePos, Nat.zero_mul, Nat.add_zero, UInt64.toNat_mod, toNat_toUInt64 h, Nat.mod_mod]

/-- The jump is odd, because the size is even. -/
theorem coprime_stride {e : Nat} (he : e + 1 < 64) (key : Node) :
    (2 ^ (e + 1)).Coprime (key.stride % (2 ^ (e + 1) : Nat).toUInt64).toNat := by
  have hlt : 2 ^ (e + 1) < 2 ^ 64 := Nat.pow_lt_pow_right (by decide) he
  refine Nat.Coprime.pow_left _ ?_
  have hdvd : 2 ∣ 2 ^ (e + 1) := Dvd.intro_left (2 ^ e) rfl
  rw [Nat.coprime_two_left, UInt64.toNat_mod, toNat_toUInt64 hlt, Nat.odd_iff,
    Nat.mod_mod_of_dvd _ hdvd]
  exact Hash.stride_odd _ _ _

/-- The jumps lead to every position once. -/
theorem bijOn_probePos {e : Nat} (he : e + 1 < 64) (key : Node) :
    Set.BijOn (probePos key (2 ^ (e + 1))) (Set.Iio (2 ^ (e + 1))) (Set.Iio (2 ^ (e + 1))) := by
  set size := 2 ^ (e + 1) with hsize
  have hmaps : Set.MapsTo (probePos key size) (Set.Iio size) (Set.Iio size) :=
    fun k _ => probePos_lt (Nat.two_pow_pos _) key k
  have hinj : Set.InjOn (probePos key size) (Set.Iio size) := by
    intro i hi j hj hij
    have hmod : i * (key.stride % size.toUInt64).toNat ≡ j * (key.stride % size.toUInt64).toNat
        [MOD size] := Nat.ModEq.add_left_cancel' _ hij
    have hij' := Nat.ModEq.cancel_right_of_coprime (coprime_stride he key) hmod
    exact Nat.ModEq.eq_of_lt_of_lt hij' hi hj
  refine ⟨hmaps, hinj, ?_⟩
  rw [← Finset.coe_range] at hmaps hinj ⊢
  exact Finset.surjOn_of_injOn_of_card_le _ hmaps hinj (Nat.le_refl _)

/-! ### The search -/

variable {slots : Array Nat} {nodes : Array Node} {key : Node} {start size : Nat}

/-- The slot `p` holds a node with another record. -/
def Passed (slots : Array Nat) (nodes : Array Node) (key : Node) (p : Nat) : Prop :=
  ∃ id n, slots[p]? = some id ∧ id ≠ 0 ∧ nodes[id]? = some n ∧ n ≠ key

/-- What an outcome says of the slot `p` at which the search ends. -/
def Outcome (slots : Array Nat) (nodes : Array Node) (key : Node) (p : Nat) : Probe → Prop
  | .found id => slots[p]? = some id ∧ id ≠ 0 ∧ nodes[id]? = some key
  | .vacant q => q = p ∧ slots[p]? = some 0

section Search

variable {stride : Nat} {pos : Nat → Nat} (hpos : ∀ k, pos (k + 1) = (pos k + stride) % size)

include hpos

theorem probeFrom_eq_some {n k : Nat} {r : Probe}
    (h : probeFrom slots nodes key start size stride n (pos k) = some r) :
    ∃ j, k ≤ j ∧ j < k + n ∧ (∀ i, k ≤ i → i < j → Passed slots nodes key (start + pos i)) ∧
      Outcome slots nodes key (start + pos j) r := by
  induction n generalizing k with
  | zero =>
    simp [probeFrom] at h
  | succ n ih =>
    unfold probeFrom at h
    split at h
    · cases h
    · rename_i hs
      obtain rfl := Option.some.inj h
      exact ⟨k, Nat.le_refl _, by omega, fun i hi hik => by omega, rfl, hs⟩
    · rename_i id hne hs
      split at h
      · cases h
      · rename_i node hn
        split at h
        · rename_i heq
          obtain rfl := Option.some.inj h
          exact ⟨k, Nat.le_refl _, by omega, fun i hi hik => by omega, hs, hne, heq ▸ hn⟩
        · -- Another record is passed, and the search goes on.
          rename_i hkey
          rw [← hpos] at h
          obtain ⟨j, hj, hjn, hpass, hout⟩ := ih h
          refine ⟨j, by omega, by omega, fun i hi hij => ?_, hout⟩
          rcases Nat.eq_or_lt_of_le hi with rfl | hi
          · exact ⟨id, node, hs, hne, hn, hkey⟩
          · exact hpass i hi hij

/-- A search without an outcome has seen no vacancy. -/
theorem probeFrom_eq_none {n k : Nat} (hlt : ∀ k, pos k < size)
    (hslot : ∀ p, p < size → ∃ id, slots[start + p]? = some id)
    (hnode : ∀ p id, p < size → slots[start + p]? = some id → id ≠ 0 → ∃ n, nodes[id]? = some n)
    (h : probeFrom slots nodes key start size stride n (pos k) = none) :
    ∀ j, k ≤ j → j < k + n → slots[start + pos j]? ≠ some 0 := by
  -- Slots and records are there, so the search gives up only when it has passed everything.
  induction n generalizing k with
  | zero =>
    intro j hj hjk
    omega
  | succ n ih =>
    intro j hj hjk
    unfold probeFrom at h
    split at h
    · rename_i hnone
      obtain ⟨id, hid⟩ := hslot _ (hlt k)
      rw [hnone] at hid
      cases hid
    · cases h
    · rename_i id hne hid
      split at h
      · rename_i hnone
        obtain ⟨n', hn'⟩ := hnode _ _ (hlt k) hid hne
        rw [hnone] at hn'
        cases hn'
      · split at h
        · cases h
        · rw [← hpos] at h
          rcases Nat.eq_or_lt_of_le hj with rfl | hj
          · rw [hid]
            exact fun h0 => hne (Option.some.inj h0)
          · exact ih h j hj (by omega)

end Search

theorem probe_eq_some (hs : size < 2 ^ 64) {r : Probe}
    (h : probe slots nodes key start size = some r) :
    ∃ j, j < size ∧ (∀ i, i < j → Passed slots nodes key (start + probePos key size i)) ∧
      Outcome slots nodes key (start + probePos key size j) r := by
  rw [probe, ← probePos_zero hs] at h
  obtain ⟨j, -, hj, hpass, hout⟩ := probeFrom_eq_some (probePos_succ key size) h
  exact ⟨j, by omega, fun i hi => hpass i (Nat.zero_le _) hi, hout⟩

/-! ### The index -/

/-- The stretch of `size` slots from `start` on is an index of the nodes in `P`. -/
structure Stretch (slots : Array Nat) (nodes : Array Node) (start size : Nat)
    (P : NodeId → Prop) : Prop where
  pow : ∃ e, e + 1 < 64 ∧ size = 2 ^ (e + 1)
  fits : start + size ≤ slots.size
  entry : ∀ {p id}, p < size → slots[start + p]? = some id → id ≠ 0 → P id
  path : ∀ {id}, P id → ∃ n k, nodes[id]? = some n ∧ k < size ∧
    slots[start + probePos n size k]? = some id ∧
    ∀ j, j < k → slots[start + probePos n size j]? ≠ some 0
  once : ∀ {p q id}, p < size → q < size → slots[start + p]? = some id →
    slots[start + q]? = some id → id ≠ 0 → p = q
  nonzero : ∀ {id}, P id → id ≠ 0

namespace Stretch

variable {P Q : NodeId → Prop}

theorem pos (h : Stretch slots nodes start size P) : 0 < size := by
  obtain ⟨e, -, rfl⟩ := h.pow
  exact Nat.two_pow_pos _

theorem lt (h : Stretch slots nodes start size P) : size < 2 ^ 64 := by
  obtain ⟨e, he, rfl⟩ := h.pow
  exact Nat.pow_lt_pow_right (by decide) he

theorem exists_slot (h : Stretch slots nodes start size P) {p : Nat} (hp : p < size) :
    ∃ id, slots[start + p]? = some id := by
  have := h.fits
  exact ⟨_, Array.getElem?_eq_getElem (show start + p < slots.size by omega)⟩

/-- A node that the search finds is in the index and has the record. -/
theorem found (h : Stretch slots nodes start size P) {id : NodeId}
    (hp : probe slots nodes key start size = some (.found id)) : P id ∧ nodes[id]? = some key := by
  obtain ⟨j, hj, -, hs, hne, hn⟩ := probe_eq_some h.lt hp
  exact ⟨h.entry (probePos_lt h.pos key j) hs hne, hn⟩

/-- If the search ends at a vacancy, no node of the index has the record. -/
theorem vacant (h : Stretch slots nodes start size P) {p : Nat}
    (hp : probe slots nodes key start size = some (.vacant p)) {id : NodeId} (hid : P id) :
    nodes[id]? ≠ some key := by
  intro hkey
  obtain ⟨j, hj, hpass, rfl, hzero⟩ := probe_eq_some h.lt hp
  obtain ⟨n, k, hn, hk, hs, hbefore⟩ := h.path hid
  obtain rfl := Option.some.inj (hkey.symm.trans hn)
  rcases Nat.lt_trichotomy j k with hlt | rfl | hgt
  · exact hbefore j hlt hzero
  · rw [hzero] at hs
    exact h.nonzero hid (Option.some.inj hs).symm
  · obtain ⟨id', n', hs', -, hn', hne⟩ := hpass k hgt
    rw [hs] at hs'
    obtain rfl := Option.some.inj hs'
    exact hne (Option.some.inj (hn'.symm.trans hkey))

/-- A search ends if the stretch has a vacancy. -/
theorem exists_probe (h : Stretch slots nodes start size P) (key : Node) {p : Nat} (hp : p < size)
    (hzero : slots[start + p]? = some 0) : ∃ r, probe slots nodes key start size = some r := by
  by_contra hnone
  have hnone : probe slots nodes key start size = none := by
    rw [Option.eq_none_iff_forall_ne_some]
    exact fun r hr => hnone ⟨r, hr⟩
  rw [probe, ← probePos_zero h.lt] at hnone
  have hall := probeFrom_eq_none (probePos_succ key size) (probePos_lt h.pos key)
    (fun q hq => h.exists_slot hq) (fun q id hq hs hne => by
      obtain ⟨n, -, hn, -⟩ := h.path (h.entry hq hs hne)
      exact ⟨n, hn⟩) hnone
  obtain ⟨e, he, hsize⟩ := h.pow
  subst hsize
  obtain ⟨k, hk, rfl⟩ := (bijOn_probePos he key).surjOn hp
  rw [Set.mem_Iio] at hk
  exact hall k (Nat.zero_le _) (by omega) hzero

section Answers

variable {p : Nat} (hp : p < size) (hzero : slots[start + p]? = some 0)
include hp hzero

/-- As long as there is a vacancy, a search finds the only node of the index with the record. -/
theorem found_iff (h : Stretch slots nodes start size P)
    (hunique : ∀ {i j}, P i → P j → nodes[i]? = some key → nodes[j]? = some key → i = j)
    {id : NodeId} :
    probe slots nodes key start size = some (.found id) ↔ P id ∧ nodes[id]? = some key := by
  refine ⟨h.found, fun ⟨hid, hn⟩ => ?_⟩
  obtain ⟨r, hr⟩ := h.exists_probe key hp hzero
  cases r with
  | found j =>
    obtain ⟨hj, hnj⟩ := h.found hr
    rw [hr, hunique hj hid hnj hn]
  | vacant q => exact absurd hn (h.vacant hr hid)

/-- A search for a record that no node of the index has ends at an empty slot. -/
theorem exists_vacant (h : Stretch slots nodes start size P)
    (hnone : ∀ id, P id → nodes[id]? ≠ some key) :
    ∃ q : Nat, probe slots nodes key start size = some (.vacant q) ∧ slots[q]? = some 0 := by
  obtain ⟨r, hr⟩ := h.exists_probe key hp hzero
  cases r with
  | found j =>
    obtain ⟨hj, hnj⟩ := h.found hr
    exact absurd hnj (hnone j hj)
  | vacant q =>
    obtain ⟨k, -, -, rfl, hq⟩ := probe_eq_some h.lt hr
    exact ⟨_, hr, hq⟩

end Answers

/-- If fewer ids than slots can be in the index, there is a vacancy. -/
theorem exists_vacancy (h : Stretch slots nodes start size P) {l : List NodeId}
    (hl : ∀ id, P id → id ∈ l) (hlt : l.length < size) :
    ∃ p, p < size ∧ slots[start + p]? = some 0 := by
  by_contra hnone
  have hfull : ∀ p, p < size → ∃ id, slots[start + p]? = some id ∧ id ≠ 0 := by
    intro p hp
    obtain ⟨id, hid⟩ := h.exists_slot hp
    exact ⟨id, hid, fun h0 => hnone ⟨p, hp, h0 ▸ hid⟩⟩
  choose! f hf hf0 using hfull
  have hcard := Finset.card_le_card_of_injOn (s := Finset.range size) (t := l.toFinset) f
    (fun p hp => by
      rw [Finset.coe_range, Set.mem_Iio] at hp
      exact List.mem_toFinset.mpr (hl _ (h.entry hp (hf p hp) (hf0 p hp))))
    (fun p hp q hq hpq => by
      rw [Finset.coe_range, Set.mem_Iio] at hp hq
      exact h.once hp hq (hf p hp) (hpq ▸ hf q hq) (hf0 p hp))
  rw [Finset.card_range] at hcard
  have := l.toFinset_card_le
  omega

/-- The node that was looked for may take the vacancy.  Its record may have been written after the
search. -/
theorem insert (h : Stretch slots nodes start size P) {nodes' : Array Node} {id p : Nat}
    (hn : ∀ j n, P j → nodes[j]? = some n → nodes'[j]? = some n) (hid0 : id ≠ 0)
    (hid : ¬ P id) (hkey : nodes'[id]? = some key)
    (hp : probe slots nodes key start size = some (.vacant p)) :
    Stretch (slots.setIfInBounds p id) nodes' start size fun j => j = id ∨ P j := by
  obtain ⟨k, hk, hpass, rfl, hzero⟩ := probe_eq_some h.lt hp
  have hpos := probePos_lt h.pos key k
  have hin : start + probePos key size k < slots.size := by
    have := h.fits
    omega
  -- The slots after the insertion.
  have hset : ∀ q, (slots.setIfInBounds (start + probePos key size k) id)[start + q]? =
      if q = probePos key size k then some id else slots[start + q]? := by
    intro q
    rw [Array.getElem?_setIfInBounds]
    by_cases hq : q = probePos key size k
    · rw [if_pos (by omega), if_pos hq, if_pos hin]
    · rw [if_neg (by omega), if_neg hq]
  have hkeep : ∀ q, slots[start + q]? ≠ some 0 →
      (slots.setIfInBounds (start + probePos key size k) id)[start + q]? ≠ some 0 := by
    intro q hq
    rw [hset]
    split
    · exact fun h0 => hid0 (Option.some.inj h0)
    · exact hq
  have hother : ∀ {q j}, (slots.setIfInBounds (start + probePos key size k) id)[start + q]? =
      some j → j ≠ id → slots[start + q]? = some j := by
    intro q j hq hne
    rw [hset] at hq
    split at hq
    · exact absurd (Option.some.inj hq).symm hne
    · exact hq
  have hself : ∀ {q}, q < size →
      (slots.setIfInBounds (start + probePos key size k) id)[start + q]? = some id →
      q = probePos key size k := by
    intro q hq hs
    rw [hset] at hs
    split at hs
    · assumption
    · exact absurd (h.entry hq hs hid0) hid
  refine ⟨h.pow, ?_, ?_, ?_, ?_, ?_⟩
  · rw [Array.size_setIfInBounds]
    exact h.fits
  · intro q j hq hs hne
    by_cases hj : j = id
    · exact .inl hj
    · exact .inr (h.entry hq (hother hs hj) hne)
  · rintro j (rfl | hj)
    · refine ⟨key, k, hkey, hk, ?_, fun i hi => ?_⟩
      · rw [hset, if_pos rfl]
      · obtain ⟨id', n', hs, hne, -, -⟩ := hpass i hi
        refine hkeep _ ?_
        rw [hs]
        exact fun h0 => hne (Option.some.inj h0)
    · obtain ⟨n, i, hnode, hi, hs, hbefore⟩ := h.path hj
      refine ⟨n, i, hn j n hj hnode, hi, ?_, fun i' hi' => hkeep _ (hbefore i' hi')⟩
      rw [hset, if_neg, hs]
      intro heq
      rw [heq, hzero] at hs
      exact h.nonzero hj (Option.some.inj hs).symm
  · intro q r j hq hr hsq hsr hne
    by_cases hj : j = id
    · subst hj
      rw [hself hq hsq, hself hr hsr]
    · exact h.once hq hr (hother hsq hj) (hother hsr hj) hne
  · rintro j (rfl | hj)
    · exact hid0
    · exact h.nonzero hj

/-- A stretch does not depend on the slots outside. -/
theorem set_outside (h : Stretch slots nodes start size P) {p : Nat}
    (hp : p < start ∨ start + size ≤ p) (x : Nat) :
    Stretch (slots.setIfInBounds p x) nodes start size P := by
  have hset : ∀ q, q < size → (slots.setIfInBounds p x)[start + q]? = slots[start + q]? := by
    intro q hq
    rw [Array.getElem?_setIfInBounds, if_neg (by omega)]
  refine ⟨h.pow, ?_, ?_, ?_, ?_, h.nonzero⟩
  · rw [Array.size_setIfInBounds]
    exact h.fits
  · intro q id hq hs
    rw [hset q hq] at hs
    exact h.entry hq hs
  · intro id hid
    obtain ⟨n, k, hn, hk, hs, hbefore⟩ := h.path hid
    refine ⟨n, k, hn, hk, ?_, fun j hj => ?_⟩
    · rw [hset _ (probePos_lt h.pos n k)]
      exact hs
    · rw [hset _ (probePos_lt h.pos n j)]
      exact hbefore j hj
  · intro q r id hq hr hsq hsr
    rw [hset q hq] at hsq
    rw [hset r hr] at hsr
    exact h.once hq hr hsq hsr

/-- A stretch depends on the records of its own nodes only. -/
theorem congr_nodes (h : Stretch slots nodes start size P) {nodes' : Array Node}
    (hn : ∀ id n, P id → nodes[id]? = some n → nodes'[id]? = some n) :
    Stretch slots nodes' start size P := by
  refine ⟨h.pow, h.fits, h.entry, fun {id} hid => ?_, h.once, h.nonzero⟩
  obtain ⟨n, k, hnode, rest⟩ := h.path hid
  exact ⟨n, k, hn id n hid hnode, rest⟩

theorem congr (h : Stretch slots nodes start size P) (hPQ : ∀ id, P id ↔ Q id) :
    Stretch slots nodes start size Q := by
  obtain rfl : P = Q := funext fun id => propext (hPQ id)
  exact h

/-- A stretch of empty slots holds no node. -/
theorem of_zero {e : Nat} (he : e + 1 < 64) (hsize : size = 2 ^ (e + 1))
    (hfits : start + size ≤ slots.size) (hzero : ∀ p, p < size → slots[start + p]? = some 0) :
    Stretch slots nodes start size fun _ => False := by
  refine ⟨⟨e, he, hsize⟩, hfits, ?_, fun h => h.elim, ?_, fun h => h.elim⟩
  · intro p id hp hs hne
    rw [hzero p hp] at hs
    exact hne (Option.some.inj hs).symm
  · intro p q id hp hq hs _ hne
    rw [hzero p hp] at hs
    exact absurd (Option.some.inj hs).symm hne

end Stretch

/-! ### The size of a stretch -/

theorem two_mul_le_slotsFor (count : Nat) : 2 * max count 4 ≤ slotsFor count := by
  have h : 2 * max count 4 - 1 < slotsFor count := by
    rw [slotsFor, Nat.one_shiftLeft]
    exact Nat.lt_log2_self
  omega

theorem slotsFor_lt {count : Nat} (h : count < 2 ^ 61) : slotsFor count < 2 ^ 64 := by
  have hne : 2 * max count 4 - 1 ≠ 0 := by omega
  have hle : 2 ^ (2 * max count 4 - 1).log2 ≤ 2 * max count 4 - 1 := Nat.log2_self_le hne
  rw [slotsFor, Nat.one_shiftLeft, Nat.pow_succ]
  omega

theorem exists_slotsFor {count : Nat} (h : slotsFor count < 2 ^ 64) :
    ∃ e, e + 1 < 64 ∧ slotsFor count = 2 ^ (e + 1) := by
  refine ⟨(2 * max count 4 - 1).log2, ?_, Nat.one_shiftLeft _⟩
  rw [slotsFor, Nat.one_shiftLeft] at h
  exact (Nat.pow_lt_pow_iff_right (by decide)).mp h

end DecisionDiagram
