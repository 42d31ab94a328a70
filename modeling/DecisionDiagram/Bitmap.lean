/-
One bit for each index, in words of 64.

A bitmap is a plain record: it does not count its members and does not grow by itself.  What is past
the last word is not a member, and cannot be made one.

* **`contains`** — membership, the view through which the updates are described (`contains_set`,
  `contains_clear`, `contains_extend`);
* **`isFull`**, **`lowestClear?`** — what can be told of a word at once: whether all of its indices
  are members, and which is the first that is not;
* **`firstWord?`** — the search for the first bit of a row of words (`bitFrom`), word by word.
-/

namespace DecisionDiagram

/-- A record of which indices are set. -/
structure Bitmap where
  words : Array UInt64
deriving DecidableEq, Inhabited

namespace Bitmap

/-- Number of indices that share a word. -/
def width : Nat := 64

/-- The word with all bits set. -/
def ones : UInt64 := 0xffffffffffffffff

/-- Number of words that it takes for `n` indices. -/
def wordsFor (n : Nat) : Nat := (n + (width - 1)) / width

theorem le_wordsFor (n : Nat) : n ≤ wordsFor n * width := by
  simp only [wordsFor, width]
  omega

/-- Without any word. -/
def empty : Bitmap := ⟨#[]⟩

/-- Without members, and with words for the indices below `n`. -/
def ofCapacity (n : Nat) : Bitmap := ⟨Array.replicate (wordsFor n) 0⟩

/-- Number of stored bits. -/
def capacity (m : Bitmap) : Nat := m.words.size * width

/-- The word `b`; none of its bits is set if it is past the last one. -/
def word (m : Bitmap) (b : Nat) : UInt64 := m.words.getD b 0

/-- Whether `i` is a member. -/
def contains (m : Bitmap) (i : Nat) : Bool := (m.word (i / width)).toNat.testBit (i % width)

/-- Makes `i` a member. -/
def set (m : Bitmap) (i : Nat) : Bitmap :=
  let ⟨words⟩ := m
  ⟨words.modify (i / width) fun w => w ||| 1 <<< (i % width).toUInt64⟩

/-- Removes `i`. -/
def clear (m : Bitmap) (i : Nat) : Bitmap :=
  let ⟨words⟩ := m
  ⟨words.modify (i / width) fun w => w &&& ~~~(1 <<< (i % width).toUInt64)⟩

/-- Appends empty words until there are `n` of them. -/
def extend (m : Bitmap) (n : Nat) : Bitmap :=
  let ⟨words⟩ := m
  ⟨words ++ Array.replicate (n - words.size) 0⟩

/-- Removes all members, and keeps the words. -/
def reset (m : Bitmap) : Bitmap :=
  let ⟨words⟩ := m
  ⟨Array.replicate words.size 0⟩

/-- Adds the members of another record. There are as many words as in the longer of the two. -/
def union (m m' : Bitmap) : Bitmap :=
  let ⟨words⟩ := m.extend m'.words.size
  ⟨words.mapIdx fun b w => w ||| m'.word b⟩

/-- Whether all indices of the word `b` are members. -/
def isFull (m : Bitmap) (b : Nat) : Bool := m.word b == ones

/-- The first index of the word `b` that is not a member. -/
def lowestClear? (m : Bitmap) (b : Nat) : Option Nat :=
  ((List.range width).find? fun i => !(m.word b).toNat.testBit i).map (b * width + ·)

/-! ### Single words -/

/-- The word with one bit set, that of the index `i`. -/
def mask (i : Nat) : UInt64 := 1 <<< (i % width).toUInt64

/-- Number of bits that are set. -/
def popCount (w : UInt64) : Nat := (List.range width).countP w.toNat.testBit

/-- Number of bits below the lowest one that is set; `width`, if none is. -/
def trailingZeros (w : UInt64) : Nat := ((List.range width).find? w.toNat.testBit).getD width

/-- Number of members: that of the bits set in the words. -/
def count (m : Bitmap) : Nat := m.words.foldl (fun n w => n + popCount w) 0

theorem testBit_mask {i : Nat} (hi : i < width) (j : Nat) :
    ((1 : UInt64) <<< i.toUInt64).toNat.testBit j = (j == i) := by
  have hlt : 2 ^ i < 2 ^ 64 := Nat.pow_lt_pow_right (by decide) hi
  have hi' : i % 2 ^ 64 % 64 = i := by
    simp only [width] at hi
    omega
  have h : ((1 : UInt64) <<< i.toUInt64).toNat = 2 ^ i := by
    rw [UInt64.toNat_shiftLeft, UInt64.toNat_ofNat', hi', UInt64.toNat_one, Nat.one_shiftLeft,
      Nat.mod_eq_of_lt hlt]
  rw [h, Nat.testBit_two_pow, Bool.eq_iff_iff, decide_eq_true_eq, beq_iff_eq]
  exact eq_comm

theorem testBit_or_mask (w : UInt64) {i : Nat} (hi : i < width) (j : Nat) :
    (w ||| 1 <<< i.toUInt64).toNat.testBit j = (j == i || w.toNat.testBit j) := by
  rw [UInt64.toNat_or, Nat.testBit_or, testBit_mask hi, Bool.or_comm]

theorem testBit_not (w : UInt64) {i : Nat} (hi : i < width) :
    (~~~w).toNat.testBit i = !w.toNat.testBit i := by
  have hsize : UInt64.size - 1 - w.toNat = 2 ^ 64 - (w.toNat + 1) := by
    rw [UInt64.size]
    omega
  have hi' : decide (i < 64) = true := decide_eq_true hi
  rw [UInt64.toNat_not, hsize, Nat.testBit_two_pow_sub_succ w.toNat_lt, hi', Bool.true_and]

theorem testBit_and_not_mask (w : UInt64) {i : Nat} (hi : i < width) {j : Nat} (hj : j < width) :
    (w &&& ~~~(1 <<< i.toUInt64)).toNat.testBit j = (j != i && w.toNat.testBit j) := by
  rw [UInt64.toNat_and, Nat.testBit_and, testBit_not _ hj, testBit_mask hi, Bool.and_comm]
  rfl

/-- The mask of an index singles out its bit. -/
theorem and_mask_bne_zero (w : UInt64) (i : Nat) :
    (w &&& mask i != 0) = w.toNat.testBit (i % width) := by
  have hi : i % width < width := Nat.mod_lt _ (by decide)
  have hbit : ∀ j, (w &&& mask i).toNat.testBit j = (w.toNat.testBit j && j == i % width) := by
    intro j
    rw [UInt64.toNat_and, Nat.testBit_and, mask, testBit_mask hi]
  rcases hw : w.toNat.testBit (i % width) with _ | _
  · -- The only bit that the mask lets through is not set.
    have hzero : w &&& mask i = 0 := by
      refine UInt64.toNat_inj.mp (Nat.eq_of_testBit_eq fun j => ?_)
      rw [hbit, UInt64.toNat_zero, Nat.zero_testBit, Bool.and_eq_false_iff]
      by_cases hj : j = i % width
      · exact .inl (hj ▸ hw)
      · exact .inr (beq_eq_false_iff_ne.mpr hj)
    rw [hzero]
    rfl
  · rw [bne_iff_ne]
    intro hzero
    have := hbit (i % width)
    rw [hzero, hw, UInt64.toNat_zero, Nat.zero_testBit, beq_self_eq_true] at this
    cases this

theorem testBit_eq_false (w : UInt64) {i : Nat} (hi : width ≤ i) : w.toNat.testBit i = false :=
  Nat.testBit_lt_two_pow (Nat.lt_of_lt_of_le w.toNat_lt (Nat.pow_le_pow_right (by decide) hi))

/-- Where a word is not zero, its lowest bit is that after the zeros. -/
theorem trailingZeros_spec {w : UInt64} (h : w ≠ 0) : trailingZeros w < width ∧
    w.toNat.testBit (trailingZeros w) = true ∧
    ∀ i, i < trailingZeros w → w.toNat.testBit i = false := by
  rcases hfind : (List.range width).find? w.toNat.testBit with _ | k
  · rw [List.find?_range_eq_none] at hfind
    refine absurd (UInt64.toNat_inj.mp (Nat.eq_of_testBit_eq fun i => ?_)) h
    rw [UInt64.toNat_zero, Nat.zero_testBit]
    by_cases hi : i < width
    · simpa using hfind i hi
    · exact testBit_eq_false w (Nat.le_of_not_lt hi)
  · have hk : trailingZeros w = k := by rw [trailingZeros, hfind, Option.getD_some]
    obtain ⟨hset, hlt, hbelow⟩ := List.find?_range_eq_some.mp hfind
    rw [hk]
    exact ⟨List.mem_range.mp hlt, hset, fun i hi => by simpa using hbelow i hi⟩

/-- What is common to a word and the number before it are the bits other than the lowest. -/
theorem testBit_and_pred {w : UInt64} (h : w ≠ 0) (i : Nat) :
    (w &&& (w - 1)).toNat.testBit i = (w.toNat.testBit i && i != trailingZeros w) := by
  obtain ⟨-, hset, hbelow⟩ := trailingZeros_spec h
  generalize trailingZeros w = k at *
  have hpos : 0 < w.toNat := Nat.pos_of_ne_zero fun hz => h (UInt64.toNat_inj.mp hz)
  have hpred : (w - 1).toNat = w.toNat - 1 :=
    UInt64.toNat_sub_of_le _ _ (UInt64.le_iff_toNat_le.mpr hpos)
  -- Below its lowest bit the word is zero, so the number before it has all bits there.
  obtain ⟨q, hq⟩ : ∃ q, w.toNat = 2 ^ k * (2 * q + 1) := by
    have hmod : w.toNat % 2 ^ k = 0 := by
      refine Nat.eq_of_testBit_eq fun j => ?_
      rw [Nat.testBit_mod_two_pow, Nat.zero_testBit, Bool.and_eq_false_iff]
      by_cases hj : j < k
      · exact .inr (hbelow j hj)
      · exact .inl (decide_eq_false hj)
    have hodd : w.toNat / 2 ^ k % 2 = 1 := by
      simpa [Nat.testBit_eq_decide_div_mod_eq] using hset
    refine ⟨w.toNat / 2 ^ k / 2, ?_⟩
    have := Nat.div_add_mod w.toNat (2 ^ k)
    have := Nat.div_add_mod (w.toNat / 2 ^ k) 2
    rw [hodd] at this
    rw [this]
    omega
  have hk : 0 < 2 ^ k := Nat.two_pow_pos k
  have hword : w.toNat = 2 ^ k * (2 * q + 1) + 0 := hq
  have hbefore : w.toNat - 1 = 2 ^ k * (2 * q) + (2 ^ k - 1) := by
    rw [hq, Nat.mul_add, Nat.mul_one]
    omega
  rw [UInt64.toNat_and, Nat.testBit_and, hpred, hbefore, hword, Nat.testBit_two_pow_mul_add _ hk,
    Nat.testBit_two_pow_mul_add _ (Nat.sub_lt hk Nat.one_pos)]
  by_cases hi : i < k
  · rw [if_pos hi, if_pos hi, Nat.zero_testBit, Bool.false_and, Bool.false_and]
  · rw [if_neg hi, if_neg hi]
    obtain ⟨j, rfl⟩ := Nat.exists_eq_add_of_le (Nat.le_of_not_lt hi)
    rw [Nat.add_sub_cancel_left]
    rcases j with _ | j
    · simp
    · rw [Nat.testBit_succ, Nat.testBit_succ]
      have hdiv : (2 * q + 1) / 2 = q := by omega
      have hdiv' : 2 * q / 2 = q := by omega
      have hne : (k + (j + 1) != k) = true := by simp
      rw [hdiv, hdiv', Bool.and_self, hne, Bool.and_true]

/-- All bits from the one with number `k` on. -/
theorem testBit_ones_shiftLeft {k i : Nat} (hk : k < width) (hi : i < width) :
    (ones <<< k.toUInt64).toNat.testBit i = decide (k ≤ i) := by
  have hk' : k % 2 ^ 64 % 64 = k := by
    simp only [width] at hk
    omega
  have hones : ones.toNat = 2 ^ 64 - 1 := rfl
  have hi' : i < 64 := hi
  have hsub : i - k < 64 := Nat.lt_of_le_of_lt (Nat.sub_le _ _) hi
  rw [UInt64.toNat_shiftLeft, UInt64.toNat_ofNat', hk', Nat.testBit_mod_two_pow,
    Nat.testBit_shiftLeft, hones, Nat.testBit_two_pow_sub_one, decide_eq_true hi',
    decide_eq_true hsub, Bool.true_and, Bool.and_true]

theorem eq_ones_iff {w : UInt64} : w = ones ↔ ∀ i, i < width → w.toNat.testBit i = true := by
  have hones : ones.toNat = 2 ^ 64 - 1 := rfl
  constructor
  · rintro rfl i hi
    rw [hones, Nat.testBit_two_pow_sub_one]
    exact decide_eq_true hi
  · intro h
    refine UInt64.toNat_inj.mp (Nat.eq_of_testBit_eq fun i => ?_)
    rw [hones, Nat.testBit_two_pow_sub_one]
    by_cases hi : i < 64
    · rw [h i hi, decide_eq_true hi]
    · have hlt : w.toNat < 2 ^ i :=
        Nat.lt_of_lt_of_le w.toNat_lt (Nat.pow_le_pow_right (by decide) (by omega))
      rw [Nat.testBit_lt_two_pow hlt, decide_eq_false hi]

/-! ### Membership -/

variable {m : Bitmap}

theorem div_lt {i : Nat} (h : i < m.capacity) : i / width < m.words.size := by
  rwa [Nat.div_lt_iff_lt_mul (by decide)]

@[simp] theorem contains_empty (i : Nat) : empty.contains i = false := by
  simp [contains, word, empty]

/-- The members have a word. -/
theorem lt_capacity_of_contains {i : Nat} (h : m.contains i = true) : i < m.capacity := by
  by_cases hi : i / width < m.words.size
  · rwa [Nat.div_lt_iff_lt_mul (by decide)] at hi
  · simp [contains, word, Array.getD_eq_getD_getElem?,
      Array.getElem?_eq_none (Nat.le_of_not_lt hi)] at h

@[simp] theorem capacity_set (m : Bitmap) (i : Nat) : (m.set i).capacity = m.capacity := by
  simp [capacity, set]

theorem word_modify (words : Array UInt64) (b c : Nat) (f : UInt64 → UInt64) (hb : b < words.size) :
    word ⟨words.modify b f⟩ c = if b = c then f (word ⟨words⟩ c) else word ⟨words⟩ c := by
  simp only [word, Array.getD_eq_getD_getElem?, Array.getElem?_modify]
  split
  · rename_i h
    subst h
    simp [Array.getElem?_eq_getElem hb]
  · rfl

/-- Two indices are the same if they share the word and the position in it. -/
theorem eq_iff_div_mod {i j : Nat} : j = i ↔ j / width = i / width ∧ j % width = i % width := by
  simp only [width]
  omega

theorem contains_set {i : Nat} (h : i < m.capacity) (j : Nat) :
    (m.set i).contains j = (j == i || m.contains j) := by
  have hmod : i % width < width := Nat.mod_lt _ (by decide)
  simp only [contains, set, word_modify _ _ _ _ (div_lt h)]
  split
  · rename_i hdiv
    rw [testBit_or_mask _ hmod, Bool.eq_iff_iff]
    simp [eq_iff_div_mod (i := i) (j := j), hdiv]
  · rename_i hdiv
    rw [Bool.eq_iff_iff]
    simp [eq_iff_div_mod (i := i) (j := j), Ne.symm hdiv]

@[simp] theorem contains_clear (m : Bitmap) (i j : Nat) :
    (m.clear i).contains j = (j != i && m.contains j) := by
  have hmod : i % width < width := Nat.mod_lt _ (by decide)
  have hmod' : j % width < width := Nat.mod_lt _ (by decide)
  by_cases h : i < m.capacity
  · simp only [contains, clear, word_modify _ _ _ _ (div_lt h)]
    split
    · rename_i hdiv
      rw [testBit_and_not_mask _ hmod hmod', Bool.eq_iff_iff]
      simp [eq_iff_div_mod (i := i) (j := j), hdiv]
    · rename_i hdiv
      rw [Bool.eq_iff_iff]
      simp [eq_iff_div_mod (i := i) (j := j), Ne.symm hdiv]
  · -- There is no word to change.
    have hsame : m.clear i = m := by
      have hdiv : m.words.size ≤ i / width :=
        (Nat.le_div_iff_mul_le (by decide)).mpr (Nat.le_of_not_lt h)
      simp [clear, Array.modify, Array.modifyM, Nat.not_lt.mpr hdiv]
    rw [hsame, Bool.eq_iff_iff]
    simp only [Bool.and_eq_true, bne_iff_ne, ne_eq]
    refine ⟨fun hj => ⟨?_, hj⟩, fun hj => hj.2⟩
    rintro rfl
    exact h (lt_capacity_of_contains hj)

theorem size_extend (m : Bitmap) (n : Nat) : (m.extend n).words.size = max m.words.size n := by
  simp only [extend, Array.size_append, Array.size_replicate]
  omega

@[simp] theorem contains_extend (m : Bitmap) (n i : Nat) :
    (m.extend n).contains i = m.contains i := by
  have h : (m.extend n).word (i / width) = m.word (i / width) := by
    simp only [word, extend, Array.getD_eq_getD_getElem?, Array.getElem?_append,
      Array.getElem?_replicate]
    split
    · rfl
    · rename_i hlt
      rw [Array.getElem?_eq_none (by omega)]
      split <;> rfl
  rw [contains, h, contains]

/-- A word is full if all indices that share it are members. -/
theorem isFull_iff {b : Nat} :
    m.isFull b = true ↔ ∀ i, i / width = b → m.contains i = true := by
  rw [isFull, beq_iff_eq, eq_ones_iff]
  constructor
  · rintro h i rfl
    exact h _ (Nat.mod_lt _ (by decide))
  · intro h i hi
    have hdiv : (b * width + i) / width = b := by
      simp only [width] at *
      omega
    have hmod : (b * width + i) % width = i := by
      simp only [width] at *
      omega
    have := h _ hdiv
    rwa [contains, hdiv, hmod] at this

theorem lowestClear?_eq_some {b i : Nat} (h : m.lowestClear? b = some i) :
    i / width = b ∧ m.contains i = false ∧
      ∀ j, j / width = b → j < i → m.contains j = true := by
  obtain ⟨k, hk, rfl⟩ := Option.map_eq_some_iff.mp h
  rw [List.find?_range_eq_some] at hk
  obtain ⟨hclear, hlt, hbelow⟩ := hk
  rw [List.mem_range] at hlt
  have hdiv : (b * width + k) / width = b := by
    simp only [width] at *
    omega
  have hmod : (b * width + k) % width = k := by
    simp only [width] at *
    omega
  refine ⟨hdiv, ?_, fun j hj hjlt => ?_⟩
  · rw [contains, hdiv, hmod]
    simpa using hclear
  · have hjk : j % width < k := by
      simp only [width] at *
      omega
    have := hbelow _ hjk
    rw [contains, hj]
    simpa using this

theorem lowestClear?_eq_none {b : Nat} : m.lowestClear? b = none ↔ m.isFull b = true := by
  rw [lowestClear?, Option.map_eq_none_iff, List.find?_range_eq_none, isFull, beq_iff_eq,
    eq_ones_iff]
  simp

@[simp] theorem contains_ofCapacity (n i : Nat) : (ofCapacity n).contains i = false := by
  simp only [contains, word, ofCapacity, Array.getD_eq_getD_getElem?, Array.getElem?_replicate]
  split <;> exact Nat.zero_testBit _

@[simp] theorem contains_reset (m : Bitmap) (i : Nat) : m.reset.contains i = false := by
  simp only [contains, word, reset, Array.getD_eq_getD_getElem?, Array.getElem?_replicate]
  split <;> exact Nat.zero_testBit _

@[simp] theorem contains_union (m m' : Bitmap) (i : Nat) :
    (m.union m').contains i = (m.contains i || m'.contains i) := by
  have hsize := size_extend m m'.words.size
  rw [← contains_extend m m'.words.size i]
  have hword : (m.union m').word (i / width) =
      (m.extend m'.words.size).word (i / width) ||| m'.word (i / width) := by
    simp only [union, word, Array.getD_eq_getD_getElem?, Array.getElem?_mapIdx]
    rcases hw : (m.extend m'.words.size).words[i / width]? with _ | w
    · -- Past the words of the union there are none of the other record either.
      rw [Array.getElem?_eq_none_iff] at hw
      rw [Array.getElem?_eq_none (by omega)]
      rfl
    · rfl
  rw [contains, hword, UInt64.toNat_or, Nat.testBit_or]
  rfl

/-! ### Rows of words -/

/-- Bit `i` of a row of words, where `w` stands for the word `b` and there is none before it. -/
def bitFrom (word : Nat → UInt64) (b : Nat) (w : UInt64) (i : Nat) : Bool :=
  if i / width = b then w.toNat.testBit (i % width)
  else b < i / width && (word (i / width)).toNat.testBit (i % width)

/-- The first word that is not zero, of `w` at the position `b` and the `n` words after it. -/
def firstWord? (word : Nat → UInt64) (n b : Nat) (w : UInt64) : Option (Nat × UInt64) :=
  if w ≠ 0 then some (b, w)
  else match n with
    | 0 => none
    | n + 1 => firstWord? word n (b + 1) (word (b + 1))

variable {word : Nat → UInt64} {n b : Nat} {w : UInt64} {i j : Nat}

theorem bitFrom_of_div_lt (h : i / width < b) : bitFrom word b w i = false := by
  rw [bitFrom, if_neg (Nat.ne_of_lt h), decide_eq_false (Nat.not_lt.mpr (Nat.le_of_lt h)),
    Bool.false_and]

/-- A row that starts with the word zero is the row that starts with the next one. -/
theorem bitFrom_zero (i : Nat) : bitFrom word b 0 i = bitFrom word (b + 1) (word (b + 1)) i := by
  unfold bitFrom
  by_cases hb : i / width = b
  · have hlt : ¬ b + 1 < b := by omega
    rw [if_pos hb, if_neg (by omega), UInt64.toNat_zero, Nat.zero_testBit, hb, decide_eq_false hlt,
      Bool.false_and]
  · by_cases hb' : i / width = b + 1
    · rw [if_neg hb, if_pos hb', hb', decide_eq_true (Nat.lt_succ_self b), Bool.true_and]
    · have hiff : b < i / width ↔ b + 1 < i / width := by omega
      rw [if_neg hb, if_neg hb', decide_eq_decide.mpr hiff]

/-- The bit `i` is the first of the row `bits`, and `rest` is the row of the others. -/
structure Leads (i : Nat) (bits rest : Nat → Bool) : Prop where
  set : bits i = true
  below : ∀ j, j < i → bits j = false
  rest : ∀ j, rest j = (bits j && j != i)

theorem leads_trailingZeros (word : Nat → UInt64) (b : Nat) (h : w ≠ 0) :
    Leads (b * width + trailingZeros w) (bitFrom word b w) (bitFrom word b (w &&& (w - 1))) := by
  obtain ⟨hlt, hset, hbelow⟩ := trailingZeros_spec h
  -- The bit lies in word `b`: positions are compared within this word, or by their words.
  have hdiv : (b * width + trailingZeros w) / width = b := by
    simp only [width] at *
    omega
  have hmod : (b * width + trailingZeros w) % width = trailingZeros w := by
    simp only [width] at *
    omega
  refine ⟨?_, fun j hj => ?_, fun j => ?_⟩
  · rw [bitFrom, if_pos hdiv, hmod, hset]
  · by_cases hb : j / width = b
    · have hmod : j % width < trailingZeros w := by
        simp only [width] at *
        omega
      rw [bitFrom, if_pos hb, hbelow _ hmod]
    · refine bitFrom_of_div_lt ?_
      simp only [width] at *
      omega
  · by_cases hb : j / width = b
    · have hne : (j % width != trailingZeros w) = (j != b * width + trailingZeros w) := by
        rw [bne, bne, Bool.not_inj_iff, Bool.eq_iff_iff, beq_iff_eq, beq_iff_eq]
        simp only [width] at *
        omega
      rw [bitFrom, if_pos hb, bitFrom, if_pos hb, testBit_and_pred h, hne]
    · have hne : (j != b * width + trailingZeros w) = true :=
        bne_iff_ne.mpr fun hj => hb (hj ▸ hdiv)
      rw [bitFrom, if_neg hb, bitFrom, if_neg hb, hne, Bool.and_true]

/-- The lowest bit of the first word that is not zero is the first bit of the row. -/
theorem leads_of_firstWord? {b' : Nat} {w' : UInt64} (h : firstWord? word n b w = some (b', w')) :
    Leads (b' * width + trailingZeros w') (bitFrom word b w) (bitFrom word b' (w' &&& (w' - 1))) := by
  induction n generalizing b w with
  | zero =>
    unfold firstWord? at h
    split at h
    · rename_i hw
      obtain ⟨rfl, rfl⟩ := Prod.mk.inj (Option.some.inj h)
      exact leads_trailingZeros word b hw
    · cases h
  | succ n ih =>
    unfold firstWord? at h
    split at h
    · rename_i hw
      obtain ⟨rfl, rfl⟩ := Prod.mk.inj (Option.some.inj h)
      exact leads_trailingZeros word b hw
    · rename_i hw
      obtain rfl : w = 0 := Classical.not_not.mp hw
      rw [funext bitFrom_zero]
      exact ih h

/-- Without a word that is not zero, there are no bits in the words that were looked at. -/
theorem bitFrom_of_firstWord?_eq_none (h : firstWord? word n b w = none) (hi : i / width ≤ b + n) :
    bitFrom word b w i = false := by
  induction n generalizing b w with
  | zero =>
    unfold firstWord? at h
    split at h
    · cases h
    · rename_i hw
      obtain rfl : w = 0 := Classical.not_not.mp hw
      rcases Nat.lt_or_eq_of_le hi with hlt | heq
      · exact bitFrom_of_div_lt hlt
      · rw [Nat.add_zero] at heq
        rw [bitFrom, if_pos heq, UInt64.toNat_zero, Nat.zero_testBit]
  | succ n ih =>
    unfold firstWord? at h
    split at h
    · cases h
    · rename_i hw
      obtain rfl : w = 0 := Classical.not_not.mp hw
      rw [bitFrom_zero]
      exact ih h (by omega)

end Bitmap

end DecisionDiagram
