/-
What a cache remembers.

A cache forgets.  Keys with the same slot drive each other out, a selection drops entries, and a new
number of slots drops them all.  But it makes nothing up: the value of a key comes from an insertion,
and the list of the requests tells from which one (`Stands`).

* `Cache.stands_append_singleton` — what one more request does to the values that stand;
* `Cache.Recalls.serve` — what one request preserves, by cases on the request;
* `Cache.Recalls.run` — what a sequence of requests preserves;
* `Cache.recalls_latest` — every look-up of a run gives the value that stands, and the counters tell
  how many did.
-/
import Mathlib.Algebra.Group.Nat.Defs
import DecisionDiagram.Cache

namespace DecisionDiagram

namespace Cache

variable {κ ν : Type}

/-- What can be asked of a cache. -/
inductive Request (κ ν : Type)
  | lookup (k : κ)
  | insert (k : κ) (v : ν)
  | retain (keep : κ → ν → Bool)
  | clear
  | resize (bits : Nat)

namespace Request

/-- No more slots are asked for than a cache may have. -/
def Within : Request κ ν → Prop
  | resize bits => bits ≤ maxBits
  | _ => True

/-- A cache of `2 ^ bits` slots has two to this power afterwards. -/
def after (bits : Nat) : Request κ ν → Nat
  | resize bits => bits
  | _ => bits

/-- The same after a sequence of requests. -/
def afterAll (bits : Nat) (rs : List (Request κ ν)) : Nat := rs.foldl after bits

def isLookup : Request κ ν → Bool
  | lookup _ => true
  | _ => false

/-- The value `v` of `k` outlasts the request, where `slot` gives the slots of the keys. -/
def Spares (slot : κ → Nat) (k : κ) (v : ν) : Request κ ν → Prop
  | lookup _ => True
  | insert j _ => slot j ≠ slot k
  | retain keep => keep k v = true
  | clear | resize _ => False

instance : (r : Request κ ν) → Decidable r.Within
  | resize bits => inferInstanceAs (Decidable (bits ≤ maxBits))
  | lookup _ | insert _ _ | retain _ | clear => isTrue trivial

instance (slot : κ → Nat) (k : κ) (v : ν) : (r : Request κ ν) → Decidable (r.Spares slot k v)
  | lookup _ => isTrue trivial
  | insert j _ => inferInstanceAs (Decidable (slot j ≠ slot k))
  | retain keep => inferInstanceAs (Decidable (keep k v = true))
  | clear | resize _ => isFalse id

end Request

/-- By the requests, `k` has the value `v`: it was inserted, and nothing that came later put another
value into the slot or dropped the entry. -/
def Stands (slot : κ → Nat) (past : List (Request κ ν)) (k : κ) (v : ν) : Prop :=
  ∃ earlier later, past = earlier ++ .insert k v :: later ∧ ∀ r ∈ later, r.Spares slot k v

theorem not_stands_nil {slot : κ → Nat} {k : κ} {v : ν} : ¬ Stands slot [] k v := by
  rintro ⟨earlier, later, heq, -⟩
  exact List.append_ne_nil_of_right_ne_nil earlier (List.cons_ne_nil _ later) heq.symm

/-- One more request makes a value stand by inserting it, and leaves standing what it spares. -/
theorem stands_append_singleton {slot : κ → Nat} {past : List (Request κ ν)} {r : Request κ ν} {k : κ}
    {v : ν} : Stands slot (past ++ [r]) k v ↔
      r = .insert k v ∨ (Stands slot past k v ∧ r.Spares slot k v) := by
  constructor
  · rintro ⟨earlier, later, heq, hlater⟩
    rcases List.eq_nil_or_concat later with rfl | ⟨later, r', rfl⟩
    · exact .inl (List.singleton_inj.mp (List.append_inj' heq rfl).2)
    · rw [List.concat_eq_append] at heq hlater
      rw [← List.cons_append, ← List.append_assoc] at heq
      obtain ⟨hpast, hlast⟩ := List.append_inj' heq rfl
      obtain rfl := List.singleton_inj.mp hlast
      rw [List.forall_mem_append, List.forall_mem_singleton] at hlater
      exact .inr ⟨⟨earlier, later, hpast, hlater.1⟩, hlater.2⟩
  · rintro (rfl | ⟨⟨earlier, later, rfl, hlater⟩, hr⟩)
    · exact ⟨past, [], rfl, List.forall_mem_nil _⟩
    · refine ⟨earlier, later ++ [r], by rw [List.append_assoc, List.cons_append], ?_⟩
      rw [List.forall_mem_append, List.forall_mem_singleton]
      exact ⟨hlater, hr⟩

section Keys

variable [CacheKey κ]

/-- The slot of a key among `2 ^ bits`. -/
def slotAmong (bits : Nat) (k : κ) : Nat := (CacheKey.word k).toNat % 2 ^ bits

/-- The answers are those to the look-ups among the requests, each of them the value that stood at
that time, in a cache that had `2 ^ bits` slots at first. -/
inductive Answered (bits : Nat) : List (Request κ ν) → List (Option ν) → Prop
  | nil : Answered bits [] []
  | lookup {past : List (Request κ ν)} {answers : List (Option ν)} {k : κ} {answer : Option ν}
    (before : Answered bits past answers)
    (stands : ∀ v, answer = some v ↔ Stands (slotAmong (Request.afterAll bits past)) past k v) :
    Answered bits (past ++ [.lookup k]) (answers ++ [answer])
  | other {past : List (Request κ ν)} {answers : List (Option ν)} {r : Request κ ν}
    (before : Answered bits past answers) (silent : r.isLookup = false) :
    Answered bits (past ++ [r]) answers

theorem Answered.length_eq {bits : Nat} {past : List (Request κ ν)} {answers : List (Option ν)}
    (h : Answered bits past answers) : answers.length = past.countP Request.isLookup := by
  induction h with
  | nil => rfl
  | lookup _ _ ih =>
    rw [List.length_append, List.countP_append, ih]
    rfl
  | other _ silent ih =>
    rw [List.countP_append, ih, List.countP_singleton, silent]
    rfl

end Keys

variable [CacheKey κ] [DecidableEq κ] {c c' : Cache κ ν} {bits : Nat} {past rs : List (Request κ ν)}
  {r : Request κ ν} {answers : List (Option ν)}

/-- Makes a request. There is no cache afterwards if too many slots are asked for. -/
def serve? (c : Cache κ ν) : Request κ ν → Option (Cache κ ν)
  | .lookup k => some (c.lookup k).2
  | .insert k v => some (c.insert k v)
  | .retain keep => some (c.retain keep)
  | .clear => some c.clear
  | .resize bits => c.resize? bits

/-- What is answered to a request: something to a look-up, and nothing to the others. -/
def reply (c : Cache κ ν) : Request κ ν → List (Option ν)
  | .lookup k => [(c.lookup k).1]
  | _ => []

/-- Makes one request after the other, and collects the answers. -/
def run? : Cache κ ν → List (Request κ ν) → Option (List (Option ν) × Cache κ ν)
  | c, [] => some ([], c)
  | c, r :: rs => do
    let c' ← c.serve? r
    let (answers, c'') ← c'.run? rs
    return (c.reply r ++ answers, c'')

/-! ### What a request preserves -/

/-- The cache had `2 ^ bits` slots at first. Since then these requests were made, with these answers. -/
structure Recalls (c : Cache κ ν) (bits : Nat) (past : List (Request κ ν))
    (answers : List (Option ν)) : Prop where
  small : Request.afterAll bits past ≤ maxBits
  capacity_eq : c.capacity = 2 ^ Request.afterAll bits past
  find?_iff : ∀ k v, c.find? k = some v ↔ Stands (slotAmong (Request.afterAll bits past)) past k v
  answered : Answered bits past answers
  hits_eq : c.hits = answers.countP Option.isSome
  misses_eq : c.misses = answers.countP Option.isNone
  faults_le : c.faults ≤ c.misses

theorem recalls_ofBits (h : bits ≤ maxBits) : (ofBits bits : Cache κ ν).Recalls bits [] [] where
  small := h
  capacity_eq := (capacity_ofBits bits).trans (Nat.one_shiftLeft bits)
  find?_iff k v := iff_of_false (by simp) not_stands_nil
  answered := .nil
  hits_eq := rfl
  misses_eq := rfl
  faults_le := Nat.le_refl 0

omit [CacheKey κ] [DecidableEq κ] in
theorem afterAll_append_singleton (bits : Nat) (past : List (Request κ ν)) (r : Request κ ν) :
    Request.afterAll bits (past ++ [r]) = r.after (Request.afterAll bits past) := by
  rw [Request.afterAll, List.foldl_append]
  rfl

theorem Recalls.capacity_pos (h : c.Recalls bits past answers) : 0 < c.capacity := by
  rw [h.capacity_eq]
  exact Nat.two_pow_pos _

theorem Recalls.capacity_lt (h : c.Recalls bits past answers) : c.capacity < UInt64.size := by
  rw [h.capacity_eq]
  exact Nat.pow_lt_pow_right (n := 64) (by decide) (Nat.lt_of_le_of_lt h.small (by decide))

theorem Recalls.slot_eq (h : c.Recalls bits past answers) (k : κ) :
    c.slot k = slotAmong (Request.afterAll bits past) k := by
  rw [Cache.slot_eq k h.capacity_lt, h.capacity_eq, slotAmong]

/-- It is enough to say what the request does to the values that the cache holds. -/
theorem Recalls.stands_iff (h : c.Recalls bits past answers)
    (hfind : ∀ k v, c'.find? k = some v ↔ r = .insert k v ∨
      (c.find? k = some v ∧ r.Spares (slotAmong (Request.afterAll bits past)) k v)) (k : κ) (v : ν) :
    c'.find? k = some v ↔
      Stands (slotAmong (Request.afterAll bits (past ++ [r]))) (past ++ [r]) k v := by
  rw [hfind, h.find?_iff, stands_append_singleton, afterAll_append_singleton]
  -- A new number of slots gives the keys other slots, but then nothing stands.
  cases r <;> simp [Request.after, Request.Spares]

/-- A request that is no look-up leaves the counters as they are. -/
theorem Recalls.silent (h : c.Recalls bits past answers) (hr : r.Within) (hsilent : r.isLookup = false)
    (hcap : c'.capacity = 2 ^ r.after (Request.afterAll bits past))
    (hcounters : c'.hits = c.hits ∧ c'.misses = c.misses ∧ c'.faults = c.faults)
    (hfind : ∀ k v, c'.find? k = some v ↔ r = .insert k v ∨
      (c.find? k = some v ∧ r.Spares (slotAmong (Request.afterAll bits past)) k v)) :
    c'.Recalls bits (past ++ [r]) answers := by
  obtain ⟨hhits, hmisses, hfaults⟩ := hcounters
  have hsmall := h.small
  refine ⟨?_, ?_, h.stands_iff hfind, .other h.answered hsilent, hhits.trans h.hits_eq,
    hmisses.trans h.misses_eq, ?_⟩
  · rw [afterAll_append_singleton]
    cases r <;> assumption
  · rw [afterAll_append_singleton, hcap]
  · rw [hfaults, hmisses]
    exact h.faults_le

theorem Recalls.lookup (h : c.Recalls bits past answers) (k : κ) :
    (c.record k).Recalls bits (past ++ [.lookup k]) (answers ++ [c.find? k]) := by
  refine ⟨?_, ?_, h.stands_iff fun j v => ?_, .lookup h.answered (h.find?_iff k), ?_, ?_, ?_⟩
  · rw [afterAll_append_singleton]
    exact h.small
  · rw [afterAll_append_singleton]
    exact (capacity_record c k).trans h.capacity_eq
  · simp [Request.Spares]
  · rw [hits_record, h.hits_eq, List.countP_append, List.countP_singleton]
  · rw [misses_record, h.misses_eq, List.countP_append, List.countP_singleton]
  · rw [misses_record]
    exact Nat.le_trans (faults_record_le c k) (Nat.add_le_add_right h.faults_le _)

theorem Recalls.insert (h : c.Recalls bits past answers) (k : κ) (v : ν) :
    (c.insert k v).Recalls bits (past ++ [.insert k v]) answers := by
  refine h.silent trivial rfl ((capacity_insert c k v).trans h.capacity_eq) ⟨rfl, rfl, rfl⟩
    fun j w => ?_
  rw [find?_insert k j v h.capacity_pos h.capacity_lt, h.slot_eq, h.slot_eq]
  by_cases hj : k = j
  · subst hj
    simp [Request.Spares]
  · by_cases hslot : slotAmong (Request.afterAll bits past) j = slotAmong (Request.afterAll bits past) k
    · simp [hj, hslot, Request.Spares]
    · simp [hj, hslot, Ne.symm hslot, Request.Spares]

theorem Recalls.retain (h : c.Recalls bits past answers) (keep : κ → ν → Bool) :
    (c.retain keep).Recalls bits (past ++ [.retain keep]) answers := by
  refine h.silent trivial rfl ((capacity_retain c keep).trans h.capacity_eq) ⟨rfl, rfl, rfl⟩
    fun k v => ?_
  rw [find?_retain, Option.filter_eq_some_iff]
  simp [Request.Spares]

theorem Recalls.clear (h : c.Recalls bits past answers) :
    c.clear.Recalls bits (past ++ [.clear]) answers := by
  refine h.silent trivial rfl ((capacity_clear c).trans h.capacity_eq) ⟨rfl, rfl, rfl⟩ fun k v => ?_
  simp [Request.Spares]

theorem Recalls.resize (h : c.Recalls bits past answers) {n : Nat} (hn : n ≤ maxBits) :
    (c.resize n).Recalls bits (past ++ [.resize n]) answers := by
  refine h.silent hn rfl ((capacity_resize c n).trans (Nat.one_shiftLeft n)) ⟨rfl, rfl, rfl⟩
    fun k v => ?_
  simp [Request.Spares]

theorem Recalls.serve (h : c.Recalls bits past answers) (hr : r.Within) :
    ∃ c', c.serve? r = some c' ∧ c'.Recalls bits (past ++ [r]) (answers ++ c.reply r) := by
  cases r with
  | lookup k => exact ⟨c.record k, rfl, h.lookup k⟩
  | insert k v => exact ⟨c.insert k v, rfl, by simpa [reply] using h.insert k v⟩
  | retain keep => exact ⟨c.retain keep, rfl, by simpa [reply] using h.retain keep⟩
  | clear => exact ⟨c.clear, rfl, by simpa [reply] using h.clear⟩
  | resize n => exact ⟨c.resize n, if_pos hr, by simpa [reply] using h.resize hr⟩

theorem Recalls.run (h : c.Recalls bits past answers) (hrs : ∀ r ∈ rs, r.Within) :
    ∃ new c', c.run? rs = some (new, c') ∧ c'.Recalls bits (past ++ rs) (answers ++ new) := by
  induction rs generalizing c past answers with
  | nil => exact ⟨[], c, rfl, by rwa [List.append_nil, List.append_nil]⟩
  | cons r rs ih =>
    obtain ⟨hr, hrs⟩ := List.forall_mem_cons.mp hrs
    obtain ⟨c₁, hserve, h₁⟩ := h.serve hr
    obtain ⟨new, c₂, hrun, h₂⟩ := ih h₁ hrs
    refine ⟨c.reply r ++ new, c₂, ?_, ?_⟩
    · rw [run?, hserve]
      simp only [Option.bind_eq_bind, Option.bind_some, hrun]
      rfl
    · rwa [List.append_assoc, List.append_assoc] at h₂

/-- **A look-up finds the value that the requests left for its key**: that of the latest insertion into
the slot, if this was for the key, and if since then every selection kept the entry, the cache was not
cleared, and the number of its slots stayed as it was.  The look-ups of a run are the hits, which are
those with a value, and the misses, which are the others; the faults are some of these. -/
theorem recalls_latest (hbits : bits ≤ maxBits) (hrs : ∀ r ∈ rs, r.Within) :
    ∃ answers c, (ofBits? bits : Option (Cache κ ν)).bind (·.run? rs) = some (answers, c) ∧
      Answered bits rs answers ∧
      (∀ k v, (c.lookup k).1 = some v ↔ Stands (slotAmong (Request.afterAll bits rs)) rs k v) ∧
      c.hits = answers.countP Option.isSome ∧ c.misses = answers.countP Option.isNone ∧
      c.hits + c.misses = rs.countP Request.isLookup ∧ c.faults ≤ c.misses := by
  have hstart : (ofBits bits : Cache κ ν).Recalls bits [] [] := recalls_ofBits hbits
  obtain ⟨answers, c, hrun, h⟩ := hstart.run hrs
  rw [List.nil_append, List.nil_append] at h
  refine ⟨answers, c, ?_, h.answered, h.find?_iff, h.hits_eq, h.misses_eq, ?_, h.faults_le⟩
  · rw [ofBits?, if_pos hbits]
    exact hrun
  · have hnone : answers.countP Option.isNone = answers.countP fun a => ¬ a.isSome = true :=
      List.countP_congr fun a _ => by simp
    rw [h.hits_eq, h.misses_eq, hnone, ← List.length_eq_countP_add_countP, h.answered.length_eq]

/-- Two keys drive each other out of the one slot, a selection drops the second, and a change to four
slots drops the first but leaves them apart afterwards. -/
theorem recalls_latest_after_resize :
    let requests : List (Request Key Nat) := [.insert (.one 1) 10, .lookup (.one 1),
      .insert (.one 3) 30, .lookup (.one 1), .lookup (.one 3), .retain fun _ v => v != 30,
      .lookup (.one 3), .insert (.one 1) 11, .resize 2, .lookup (.one 1), .insert (.one 1) 12,
      .insert (.one 3) 31]
    1 ≤ maxBits ∧ (∀ r ∈ requests, r.Within) ∧
      ∃ c, (ofBits? 1).bind (·.run? requests) = some ([some 10, none, some 30, none, none], c) ∧
        Answered 1 requests [some 10, none, some 30, none, none] ∧
        (c.lookup (.one 1)).1 = some 12 ∧ c.hits = 2 ∧ c.misses = 3 ∧ c.faults ≤ 3 := by
  intro requests
  have hrs : ∀ r ∈ requests, r.Within := by decide
  obtain ⟨answers, c, hrun, hanswered, hlookup, hhits, hmisses, -, hfaults⟩ :=
    recalls_latest (by decide : 1 ≤ maxBits) hrs
  have hanswers : ((ofBits? 1).bind (·.run? requests)).map Prod.fst =
      some [some 10, none, some 30, none, none] := by decide +kernel
  rw [hrun, Option.map_some, Option.some.injEq] at hanswers
  subst hanswers
  exact ⟨by decide, hrs, c, hrun, hanswered,
    (hlookup _ _).mpr ⟨requests.take 10, [.insert (.one 3) 31], rfl, by decide⟩, hhits, hmisses,
    Nat.le_trans hfaults (Nat.le_of_eq hmisses)⟩

end Cache

end DecisionDiagram
