/-
The allocator of node slots is a set.

Beside the allocator stands `SlotSet`: a capacity and the finite set of the slots in use, with a step
for each thing that can be asked for.  The allocator takes the same steps with the same answers.

* `FreeSlots.Represents.step` — one step, by cases on what is asked for;
* `FreeSlots.refines_set` — a run from an empty allocator, as long as it names no slot past the
  capacity;
* `FreeSlots.Valid.offers_padding` — what keeps such slots out is the caller: the padding of the last
  bucket can be freed, and is handed out then.
-/
import DecisionDiagram.Proofs.Slots

namespace DecisionDiagram

/-- What an allocator can be asked for. -/
inductive SlotCommand
  | alloc
  | claim (id : Nat)
  | release (id : Nat)
  | grow (capacity : Nat)
deriving DecidableEq, Repr

/-- What it answers. -/
inductive SlotReply
  | offered (id : Option Nat)
  | claimed (fresh : Bool)
  | done
deriving DecidableEq, Repr

namespace SlotCommand

/-- The slot that is named, if there is one, is below the capacity. -/
def Within (capacity : Nat) : SlotCommand → Prop
  | alloc | grow _ => True
  | claim id | release id => id < capacity

/-- The capacity that comes after. -/
def after (capacity : Nat) : SlotCommand → Nat
  | grow n => max capacity n
  | _ => capacity

/-- No command names a slot past the capacity of its moment. -/
def AllWithin : Nat → List SlotCommand → Prop
  | _, [] => True
  | capacity, c :: cs => c.Within capacity ∧ AllWithin (c.after capacity) cs

instance (capacity : Nat) : (c : SlotCommand) → Decidable (c.Within capacity)
  | alloc | grow _ => isTrue trivial
  | claim id | release id => inferInstanceAs (Decidable (id < capacity))

instance decidableAllWithin : (capacity : Nat) → (cs : List SlotCommand) →
    Decidable (AllWithin capacity cs)
  | _, [] => isTrue trivial
  | capacity, c :: cs =>
    have := decidableAllWithin (c.after capacity) cs
    inferInstanceAs (Decidable (c.Within capacity ∧ AllWithin (c.after capacity) cs))

end SlotCommand

/-- The slots in use, among the first `capacity`. -/
structure SlotSet where
  capacity : Nat
  used : Finset Nat

namespace SlotSet

/-- What is asked of a set of slots, what it answers, and the set that it is then. -/
inductive Step : SlotSet → SlotCommand → SlotReply → SlotSet → Prop
  | alloc {u : SlotSet} {id : Nat} (least : IsLeast {i | i < u.capacity ∧ i ∉ u.used} id) :
    Step u .alloc (.offered (some id)) { u with used := insert id u.used }
  | exhausted {u : SlotSet} (all : ∀ i, i < u.capacity → i ∈ u.used) :
    Step u .alloc (.offered none) u
  | claim {u : SlotSet} {id : Nat} :
    Step u (.claim id) (.claimed (decide (id ∉ u.used))) { u with used := insert id u.used }
  | release {u : SlotSet} {id : Nat} :
    Step u (.release id) .done { u with used := u.used.erase id }
  | grow {u : SlotSet} {n : Nat} :
    Step u (.grow n) .done { u with capacity := max u.capacity n }

/-- A run of steps. -/
inductive Steps : SlotSet → List SlotCommand → List SlotReply → SlotSet → Prop
  | nil {u : SlotSet} : Steps u [] [] u
  | cons {u u' u'' : SlotSet} {c : SlotCommand} {cs : List SlotCommand} {r : SlotReply}
    {rs : List SlotReply} (first : Step u c r u') (rest : Steps u' cs rs u'') :
    Steps u (c :: cs) (r :: rs) u''

end SlotSet

namespace FreeSlots

/-- Asks the allocator. There is no answer to a claim past the capacity and to a release past the
storage. -/
def perform? (s : FreeSlots) : SlotCommand → Option (SlotReply × FreeSlots)
  | .alloc =>
    match s.alloc? with
    | none => some (.offered none, s)
    | some (id, s) => some (.offered (some id), s)
  | .claim id => (s.claim? id).map fun (fresh, s) => (.claimed fresh, s)
  | .release id => (s.release? id).map fun s => (.done, s)
  | .grow capacity => some (.done, s.grow capacity)

/-- Asks the allocator one thing after another, up to the first without an answer. -/
def run? : FreeSlots → List SlotCommand → Option (List SlotReply × FreeSlots)
  | s, [] => some ([], s)
  | s, c :: cs => do
    let (r, s) ← s.perform? c
    let (rs, s) ← s.run? cs
    return (r :: rs, s)

/-- The slots in use are those of the set. -/
structure Represents (s : FreeSlots) (u : SlotSet) : Prop where
  valid : s.Valid
  capacity : s.capacity = u.capacity
  isUsed_iff : ∀ i, s.isUsed i = true ↔ i ∈ u.used

variable {s s' : FreeSlots} {u : SlotSet} {id : Nat}

theorem Represents.isUsed_eq (h : Represents s u) (i : Nat) : s.isUsed i = decide (i ∈ u.used) := by
  rw [Bool.eq_iff_iff, decide_eq_true_eq, h.isUsed_iff]

/-- The free slots and those in use make up the capacity. -/
theorem Represents.free_add_card (h : Represents s u) : s.free + u.used.card = u.capacity := by
  have hused : (Finset.range s.capacity).filter (fun i => ¬ s.isUsed i = false) = u.used := by
    ext i
    rw [Finset.mem_filter, Finset.mem_range, Bool.not_eq_false, h.isUsed_iff]
    exact ⟨fun hi => hi.2, fun hi => ⟨lt_of_isUsed ((h.isUsed_iff i).mpr hi), hi⟩⟩
  have hsum := Finset.card_filter_add_card_filter_not (s := Finset.range s.capacity)
    fun i => s.isUsed i = false
  rw [hused, Finset.card_range] at hsum
  rw [h.valid.free_eq, vacancies, hsum, h.capacity]

/-- A slot that is in use already can be claimed without effect. -/
theorem claim?_of_isUsed (h : s.isUsed id = true) : s.claim? id = some (false, s) := by
  have hlt := lt_of_isUsed h
  rw [isUsed_eq hlt] at h
  rw [claim?, if_pos hlt, if_pos h]

/-- A slot that is free already can be freed without effect. -/
theorem release?_of_not_isUsed (hs : s.Valid) (hid : id < s.capacity) (h : s.isUsed id = false) :
    s.release? id = some s := by
  rw [isUsed_eq hid] at h
  rw [release?, if_pos (Nat.lt_of_lt_of_le hid hs.capacity_le), release, if_neg]
  rw [h]
  exact Bool.false_ne_true

theorem exists_claim (hid : id < s.capacity) :
    ∃ s', s.claim? id = some (!s.isUsed id, s') := by
  by_cases hused : s.isUsed id = true
  · exact ⟨s, by rw [claim?_of_isUsed hused, hused]; rfl⟩
  · rw [Bool.not_eq_true] at hused
    refine ⟨s.occupy id, ?_⟩
    rw [claim?, if_pos hid, ← isUsed_eq hid, hused, if_neg Bool.false_ne_true]
    rfl

/-- The allocator answers as the set does. -/
theorem Represents.step (h : Represents s u) {c : SlotCommand} (hc : c.Within u.capacity) :
    ∃ r s' u', s.perform? c = some (r, s') ∧ u.Step c r u' ∧ Represents s' u' ∧
      u'.capacity = c.after u.capacity := by
  have hv := h.valid
  cases c with
  | alloc =>
    rcases hnext : s.next? with _ | id
    · refine ⟨.offered none, s, u, ?_, .exhausted fun i hi => ?_, h, rfl⟩
      · rw [perform?, alloc?, hnext]
        rfl
      · rw [← h.capacity] at hi
        exact (h.isUsed_iff i).mp (hv.isUsed_of_next?_eq_none hnext hi)
    · have hlt := hv.next?_lt hnext
      refine ⟨.offered (some id), s.take id, { u with used := insert id u.used }, ?_,
        .alloc ⟨⟨?_, ?_⟩, ?_⟩, ⟨hv.take hnext, h.capacity, fun i => ?_⟩, rfl⟩
      · rw [perform?, alloc?, hnext]
        rfl
      · rw [← h.capacity]
        exact hlt
      · rw [← h.isUsed_iff, isUsed_next? hnext]
        exact Bool.false_ne_true
      · -- Whatever is below the slot that is offered is in use.
        rintro i ⟨-, hi⟩
        rw [← h.isUsed_iff] at hi
        exact Nat.le_of_not_lt fun hlow => hi (hv.isUsed_of_lt_next? hnext hlow)
      · rw [isUsed_take hv.capacity_le hlt, Bool.or_eq_true, beq_iff_eq, h.isUsed_iff,
          Finset.mem_insert]
  | claim id =>
    change id < u.capacity at hc
    rw [← h.capacity] at hc
    obtain ⟨s', hs'⟩ := exists_claim hc
    obtain ⟨hv', hcap, hused⟩ := hv.claim? hs'
    refine ⟨.claimed (decide (id ∉ u.used)), s', { u with used := insert id u.used }, ?_, .claim,
      ⟨hv', hcap.trans h.capacity, fun i => ?_⟩, rfl⟩
    · rw [perform?, hs', h.isUsed_eq, decide_not]
      rfl
    · rw [hused, Bool.or_eq_true, beq_iff_eq, h.isUsed_iff, Finset.mem_insert]
  | release id =>
    change id < u.capacity at hc
    rw [← h.capacity] at hc
    refine ⟨.done, s.release id, { u with used := u.used.erase id }, ?_, .release,
      ⟨hv.release hc, (s.capacity_release id).trans h.capacity, fun i => ?_⟩, rfl⟩
    · rw [perform?, release?, if_pos (Nat.lt_of_lt_of_le hc hv.capacity_le)]
      rfl
    · rw [isUsed_release, Bool.and_eq_true, bne_iff_ne, h.isUsed_iff, Finset.mem_erase]
  | grow n =>
    refine ⟨.done, s.grow n, { u with capacity := max u.capacity n }, rfl, .grow,
      ⟨hv.grow n, ?_, fun i => ?_⟩, rfl⟩
    · rw [← h.capacity, grow]
      split
      · exact (Nat.max_eq_left ‹_›).symm
      · exact (Nat.max_eq_right (Nat.le_of_not_le ‹_›)).symm
    · rw [hv.isUsed_grow, h.isUsed_iff]

theorem Represents.run (h : Represents s u) {cs : List SlotCommand}
    (hcs : SlotCommand.AllWithin u.capacity cs) :
    ∃ rs s' u', s.run? cs = some (rs, s') ∧ u.Steps cs rs u' ∧ Represents s' u' := by
  induction cs generalizing s u with
  | nil => exact ⟨[], s, u, rfl, .nil, h⟩
  | cons c cs ih =>
    obtain ⟨r, s₁, u₁, hs₁, hu₁, h₁, hcap⟩ := h.step hcs.1
    obtain ⟨rs, s₂, u₂, hs₂, hu₂, h₂⟩ := ih h₁ (hcap ▸ hcs.2)
    refine ⟨r :: rs, s₂, u₂, ?_, .cons hu₁ hu₂, h₂⟩
    rw [run?, hs₁]
    simp only [Option.bind_eq_bind, Option.bind_some, hs₂]
    rfl

theorem represents_ofCapacity (capacity : Nat) : Represents (ofCapacity capacity) ⟨capacity, ∅⟩ := by
  obtain ⟨hv, hcap, hused⟩ := valid_ofCapacity capacity
  refine ⟨hv, hcap, fun i => ?_⟩
  rw [hused]
  exact ⟨fun h => absurd h Bool.false_ne_true, fun h => absurd h (Finset.notMem_empty i)⟩

/-- A run of the allocator has all its answers, and they are those of the set of slots in use.  A claim
and a release that change nothing in the set change nothing in the allocator. -/
theorem refines_set (capacity : Nat) {cs : List SlotCommand}
    (h : SlotCommand.AllWithin capacity cs) :
    ∃ rs s u, (ofCapacity capacity).run? cs = some (rs, s) ∧
      SlotSet.Steps ⟨capacity, ∅⟩ cs rs u ∧ s.capacity = u.capacity ∧
      (∀ i, s.isUsed i = decide (i ∈ u.used)) ∧ s.free + u.used.card = u.capacity ∧
      (∀ i, i ∈ u.used → s.claim? i = some (false, s)) ∧
      ∀ i, i < u.capacity → i ∉ u.used → s.release? i = some s := by
  obtain ⟨rs, s, u, hrun, hsteps, hrep⟩ := (represents_ofCapacity capacity).run h
  refine ⟨rs, s, u, hrun, hsteps, hrep.capacity, hrep.isUsed_eq, hrep.free_add_card,
    fun i hi => claim?_of_isUsed ((hrep.isUsed_iff i).mpr hi), fun i hi hnot => ?_⟩
  refine release?_of_not_isUsed hrep.valid (hrep.capacity ▸ hi) ?_
  rw [hrep.isUsed_eq, decide_eq_false hnot]

/-- Three slots fill up, one of them is freed twice, and the allocator grows into a second bucket. -/
theorem refines_set_across_buckets :
    SlotCommand.AllWithin 3 [.claim 1, .claim 1, .alloc, .alloc, .alloc, .release 0, .release 0,
        .grow 66, .claim 65, .alloc, .alloc] ∧
      ((ofCapacity 3).run? [.claim 1, .claim 1, .alloc, .alloc, .alloc, .release 0, .release 0,
        .grow 66, .claim 65, .alloc, .alloc]).map Prod.fst =
      some [.claimed true, .claimed false, .offered (some 0), .offered (some 2), .offered none, .done,
        .done, .done, .claimed true, .offered (some 0), .offered (some 3)] ∧
      ∃ rs s u, (ofCapacity 3).run? [.claim 1, .claim 1, .alloc, .alloc, .alloc, .release 0,
          .release 0, .grow 66, .claim 65, .alloc, .alloc] = some (rs, s) ∧
        SlotSet.Steps ⟨3, ∅⟩ [.claim 1, .claim 1, .alloc, .alloc, .alloc, .release 0, .release 0,
          .grow 66, .claim 65, .alloc, .alloc] rs u ∧ s.capacity = u.capacity ∧
        (∀ i, s.isUsed i = decide (i ∈ u.used)) ∧ s.free + u.used.card = u.capacity ∧
        (∀ i, i ∈ u.used → s.claim? i = some (false, s)) ∧
        ∀ i, i < u.capacity → i ∉ u.used → s.release? i = some s :=
  ⟨by decide, by decide +kernel, refines_set 3 (by decide)⟩

/-! ### Slots past the capacity -/

theorem Exact.perform (h : s.Exact) {c : SlotCommand} {r : SlotReply}
    (hs : s.perform? c = some (r, s')) : s'.Exact ∧ s.capacity ≤ s'.capacity ∧
      ∀ id, r = .offered (some id) → id < s'.occupied.capacity := by
  -- Only `alloc` offers a slot; the others have to keep the bitmap exact and its capacity.
  cases c with
  | alloc =>
    rw [perform?, alloc?] at hs
    rcases hnext : s.next? with _ | id
    · rw [hnext] at hs
      obtain ⟨rfl, rfl⟩ := Prod.mk.inj (Option.some.inj hs)
      exact ⟨h, Nat.le_refl _, fun _ heq => nomatch heq⟩
    · rw [hnext] at hs
      obtain ⟨rfl, rfl⟩ := Prod.mk.inj (Option.some.inj hs)
      refine ⟨h.take hnext, Nat.le_refl _, ?_⟩
      rintro _ ⟨rfl⟩
      rw [(h.take hnext).capacity_eq, capacity_take, ← h.capacity_eq]
      exact next?_lt_capacity hnext
  | claim id =>
    obtain ⟨⟨fresh, t⟩, ht, heq⟩ := Option.map_eq_some_iff.mp hs
    obtain ⟨rfl, rfl⟩ := Prod.mk.inj heq
    rw [claim?] at ht
    split at ht
    · rename_i hid
      split at ht
      · obtain ⟨-, rfl⟩ := Prod.mk.inj (Option.some.inj ht)
        exact ⟨h, Nat.le_refl _, fun _ heq => nomatch heq⟩
      · obtain ⟨-, rfl⟩ := Prod.mk.inj (Option.some.inj ht)
        exact ⟨h.claim hid, Nat.le_refl _, fun _ heq => nomatch heq⟩
    · cases ht
  | release id =>
    obtain ⟨t, ht, heq⟩ := Option.map_eq_some_iff.mp hs
    obtain ⟨rfl, rfl⟩ := Prod.mk.inj heq
    rw [release?] at ht
    split at ht
    · obtain rfl := Option.some.inj ht
      exact ⟨h.release id, Nat.le_of_eq (capacity_release s id).symm, fun _ heq => nomatch heq⟩
    · cases ht
  | grow n =>
    obtain ⟨rfl, rfl⟩ := Prod.mk.inj (Option.some.inj hs)
    refine ⟨h.grow n, ?_, fun _ heq => nomatch heq⟩
    rw [FreeSlots.grow]
    split
    · exact Nat.le_refl _
    · exact Nat.le_of_not_le ‹_›

/-- Whatever slots are named, none is offered that lies past the last bucket. -/
theorem Exact.offered_lt (h : s.Exact) {cs : List SlotCommand} {rs : List SlotReply}
    (hs : s.run? cs = some (rs, s')) : s'.Exact ∧ s.capacity ≤ s'.capacity ∧
      ∀ id, .offered (some id) ∈ rs → id < Bitmap.wordsFor s'.capacity * Bitmap.width := by
  induction cs generalizing s rs with
  | nil =>
    obtain ⟨rfl, rfl⟩ := Prod.mk.inj (Option.some.inj hs)
    exact ⟨h, Nat.le_refl _, fun _ hid => absurd hid List.not_mem_nil⟩
  | cons c cs ih =>
    obtain ⟨⟨r, s₁⟩, hfirst, hs⟩ := Option.bind_eq_some_iff.mp hs
    obtain ⟨⟨rs', s₂⟩, hrest, hs⟩ := Option.bind_eq_some_iff.mp hs
    obtain ⟨rfl, rfl⟩ := Prod.mk.inj (Option.some.inj hs)
    obtain ⟨h₁, hle, hoffered⟩ := h.perform hfirst
    obtain ⟨h₂, hle', hrest'⟩ := ih h₁ hrest
    refine ⟨h₂, hle.trans hle', fun id hid => ?_⟩
    rcases List.mem_cons.mp hid with heq | hid
    · have hlt := hoffered id heq.symm
      rw [h₁.capacity_eq] at hlt
      refine Nat.lt_of_lt_of_le hlt (Nat.mul_le_mul_right _ (Nat.div_le_div_right ?_))
      omega
    · exact hrest' id hid

/-- The padding of the last bucket can be freed.  It counts as a free slot then, and is handed out when
the slots below the capacity are in use. -/
theorem Valid.offers_padding (h : s.Valid) (hid : s.capacity ≤ id) (hlt : id < s.occupied.capacity) :
    ∃ s', s.release? id = some s' ∧ s'.free = s.free + 1 ∧ (s.free = 0 → s'.next? = some id) := by
  have hused := h.padding id hid hlt
  have hrel : (s.release id).free = s.free + 1 := by
    rw [FreeSlots.release, if_pos hused]
    rfl
  refine ⟨s.release id, by rw [release?, if_pos hlt], hrel, fun hfree => ?_⟩
  have hexact := h.toExact.release id
  have hopen : (s.release id).occupied.contains id = false := by simp
  -- No other index is off the record.
  have hothers : ∀ j, j < s.occupied.capacity → j ≠ id →
      (s.release id).occupied.contains j = true := by
    intro j hj hne
    rw [contains_release, bne_iff_ne.mpr hne, Bool.true_and]
    by_cases hjc : j < s.capacity
    · rw [h.free_eq, Finset.card_eq_zero] at hfree
      have hnot : j ∉ s.vacancies := hfree ▸ Finset.notMem_empty j
      rw [mem_vacancies, not_and, Bool.not_eq_false, isUsed_eq hjc] at hnot
      exact hnot hjc
    · exact h.padding j (Nat.le_of_not_lt hjc) hj
  have hcap : (s.release id).occupied.capacity = s.occupied.capacity := by
    rw [hexact.capacity_eq, capacity_release, h.capacity_eq]
  rcases hnext : (s.release id).next? with _ | j
  · have := hexact.contains_of_next?_eq_none hnext (by omega) (hcap ▸ hlt)
    rw [hopen] at this
    cases this
  · by_cases hj : j = id
    · rw [hj]
    · have := hothers j (hcap ▸ next?_lt_capacity hnext) hj
      rw [contains_next? hnext] at this
      cases this

/-- An allocator of three slots hands out a fourth one. -/
theorem offers_padding_three :
    ((ofCapacity 3).run? [.release 3, .alloc, .alloc, .alloc, .alloc]).map Prod.fst =
      some [.done, .offered (some 0), .offered (some 1), .offered (some 2), .offered (some 3)] := by
  decide +kernel

end FreeSlots

end DecisionDiagram
