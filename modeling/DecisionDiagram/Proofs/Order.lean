/-
The variable order stays a permutation, and the pairings follow it.

* `VarOrder.Valid` — the two tables of an order are inverse to each other;
* `VarOrder.Valid.append`, `.exchange` — both ways to change an order keep it so;
* `VarOrder.Valid.toList_perm` — the list of an order is a permutation of its variables;
* `VarOrder.Valid.eq_of_toList`, `.lowers_toList` — an order is the list of its variables, in which one
  that moves down passes the next one;
* `Pairings.mem_nodes_swapDown` — an exchange of levels neither adds nor drops a substitute;
* `Pairings.Carried` — the entries move with their variables.
-/
import Mathlib.Algebra.Group.Nat.Defs
import Mathlib.Data.List.Nodup
import Mathlib.Tactic.Common
import DecisionDiagram.Substitution
import DecisionDiagram.VarOrder

namespace DecisionDiagram

/-- Two adjacent entries of an array change places, entry by entry. -/
theorem getElem?_swapIfInBounds_succ {α : Type} (xs : Array α) {i : Nat} (h : i + 1 < xs.size)
    (k : Nat) : (xs.swapIfInBounds i (i + 1))[k]? =
      if k = i then xs[i + 1]? else if k = i + 1 then xs[i]? else xs[k]? := by
  have hi : i < xs.size := Nat.lt_of_succ_lt h
  rw [Array.swapIfInBounds_def, dif_pos hi, dif_pos h, Array.getElem?_swap,
    Array.getElem?_eq_getElem hi, Array.getElem?_eq_getElem h]
  by_cases hk : k = i + 1
  · rw [if_pos hk.symm, if_neg (by lia), if_pos hk]
  · rw [if_neg (Ne.symm hk), if_neg hk]
    by_cases hki : k = i
    · rw [if_pos hki.symm, if_pos hki]
    · rw [if_neg (Ne.symm hki), if_neg hki]

/-- Two adjacent entries of an array change places. -/
theorem swap_adjacent {α : Type} (X : List α) (a b : α) (Y : List α) :
    (X ++ a :: b :: Y).toArray.swapIfInBounds X.length (X.length + 1) =
      (X ++ b :: a :: Y).toArray := by
  have ha : (X ++ a :: b :: Y)[X.length]? = some a := by simp
  have hb : (X ++ a :: b :: Y)[X.length + 1]? = some b := by simp
  refine Array.ext_getElem? fun k => ?_
  rw [getElem?_swapIfInBounds_succ _ (by simp), List.getElem?_toArray, List.getElem?_toArray,
    List.getElem?_toArray, List.getElem?_toArray, ha, hb]
  by_cases hlt : k < X.length
  · rw [if_neg (by omega), if_neg (by omega), List.getElem?_append_left hlt,
      List.getElem?_append_left hlt]
  · obtain ⟨j, rfl⟩ := Nat.exists_eq_add_of_le (Nat.not_lt.mp hlt)
    rw [List.getElem?_append_right (Nat.le_add_right _ _),
      List.getElem?_append_right (Nat.le_add_right _ _), Nat.add_sub_cancel_left]
    rcases j with _ | _ | j
    · rw [if_pos (by omega)]
      rfl
    · rw [if_neg (by omega), if_pos (by omega)]
      rfl
    · rw [if_neg (by omega), if_neg (by omega)]
      rfl

/-- Two adjacent entries of an array, with those before and after. -/
theorem exists_adjacent {α : Type} (xs : Array α) {i : Nat} (h : i + 1 < xs.size) :
    ∃ X a b Y, X.length = i ∧ xs = (X ++ a :: b :: Y : List α).toArray := by
  have hi' : i + 1 < xs.toList.length := h
  have hi : i < xs.toList.length := Nat.lt_of_succ_lt hi'
  refine ⟨xs.toList.take i, xs.toList[i], xs.toList[i + 1], xs.toList.drop (i + 2), ?_, ?_⟩
  · rw [List.length_take, Nat.min_eq_left (Nat.le_of_lt hi)]
  · rw [← List.drop_eq_getElem_cons hi', ← List.drop_eq_getElem_cons hi, List.take_append_drop]

/-- An entry with those before and those after it. -/
theorem exists_split {α : Type} {xs : List α} {i : Nat} {a : α} (h : xs[i]? = some a) :
    ∃ X Y, xs = X ++ a :: Y ∧ X.length = i := by
  obtain ⟨hi, rfl⟩ := List.getElem?_eq_some_iff.mp h
  refine ⟨xs.take i, xs.drop (i + 1), ?_, List.length_take_of_le (Nat.le_of_lt hi)⟩
  rw [← List.drop_eq_getElem_cons, List.take_append_drop]

/-- It makes no difference to an entry that another one is replaced. -/
theorem getElem?_replace {α : Type} {X Y : List α} {a b c : α} (ha : c ≠ a) (hb : c ≠ b) {i : Nat} :
    (X ++ a :: Y)[i]? = some c ↔ (X ++ b :: Y)[i]? = some c := by
  rw [List.getElem?_append, List.getElem?_append]
  split
  · rfl
  · rw [List.getElem?_cons, List.getElem?_cons]
    split
    · exact iff_of_false (fun h => ha (Option.some.inj h).symm) fun h => hb (Option.some.inj h).symm
    · rfl

theorem swapIfInBounds_swapIfInBounds {α : Type} (xs : Array α) (i j : Nat) :
    (xs.swapIfInBounds i j).swapIfInBounds i j = xs := by
  by_cases hi : i < xs.size
  · by_cases hj : j < xs.size
    · simp [Array.swapIfInBounds_def, hi, hj]
    · simp [Array.swapIfInBounds_def, hi, hj]
  · simp [Array.swapIfInBounds_def, hi]

/-- The two tables of an order are inverse to each other. -/
structure VarOrder.Valid (o : VarOrder) : Prop where
  size : o.levelOf.size = o.varAt.size
  levelOf_varAt : ∀ {l : Level} {v : Var}, o.varAt[l]? = some v → o.levelOf[v]? = some l
  varAt_levelOf : ∀ {v : Var} {l : Level}, o.levelOf[v]? = some l → o.varAt[l]? = some v

namespace VarOrder

variable {o : VarOrder}

theorem Valid.getD_levelOf (h : o.Valid) {v : Var} (hv : v < o.size) :
    ∃ l, o.levelOf[v]? = some l ∧ o.levelOf.getD v 0 = l ∧ o.varAt[l]? = some v ∧ l < o.size := by
  have hlt : v < o.levelOf.size := h.size ▸ hv
  have hl : o.levelOf[v]? = some o.levelOf[v] := Array.getElem?_eq_getElem hlt
  have hat := h.varAt_levelOf hl
  refine ⟨_, hl, ?_, hat, (Array.getElem?_eq_some_iff.mp hat).1⟩
  rw [Array.getD_eq_getD_getElem?, hl]
  rfl

theorem Valid.getD_varAt (h : o.Valid) {l : Level} (hl : l < o.size) :
    ∃ v, o.varAt[l]? = some v ∧ o.varAt.getD l 0 = v ∧ o.levelOf[v]? = some l ∧ v < o.size := by
  have hv : o.varAt[l]? = some o.varAt[l] := Array.getElem?_eq_getElem hl
  have hof := h.levelOf_varAt hv
  refine ⟨_, hv, ?_, hof, ?_⟩
  · rw [Array.getD_eq_getD_getElem?, hv]
    rfl
  · have := (Array.getElem?_eq_some_iff.mp hof).1
    rwa [h.size] at this

theorem valid_empty : empty.Valid := ⟨rfl, fun h => by simp [empty] at h, fun h => by simp [empty] at h⟩

theorem Valid.append (h : o.Valid) : o.append.Valid := by
  have hsize := h.size
  -- An entry of either array is the last one, or one from before.
  refine ⟨?_, ?_, ?_⟩
  · show (o.levelOf.push _).size = (o.varAt.push _).size
    rw [Array.size_push, Array.size_push, hsize]
  · intro l v hv
    have hv : (o.varAt.push o.size)[l]? = some v := hv
    show (o.levelOf.push o.size)[v]? = some l
    rw [Array.getElem?_push] at hv ⊢
    split at hv
    · rename_i heq
      obtain rfl := Option.some.inj hv
      rw [if_pos (show o.size = o.levelOf.size from hsize.symm), heq]
      rfl
    · have hl := h.levelOf_varAt hv
      have := (Array.getElem?_eq_some_iff.mp hl).1
      rw [if_neg (by lia)]
      exact hl
  · intro v l hl
    have hl : (o.levelOf.push o.size)[v]? = some l := hl
    show (o.varAt.push o.size)[l]? = some v
    rw [Array.getElem?_push] at hl ⊢
    split at hl
    · rename_i heq
      obtain rfl := Option.some.inj hl
      rw [if_pos (show o.size = o.varAt.size from rfl), heq, hsize]
      rfl
    · have hv := h.varAt_levelOf hl
      have := (Array.getElem?_eq_some_iff.mp hv).1
      rw [if_neg (by lia)]
      exact hv

section Exchange

variable {l : Level} {x y : Var} (h : o.Valid) (hx : o.varAt[l]? = some x)
  (hy : o.varAt[l + 1]? = some y)
include h hx hy

theorem Valid.levelOf_exchange (v : Var) :
    (o.exchange l x y).levelOf[v]? =
      if v = y then some l else if v = x then some (l + 1) else o.levelOf[v]? := by
  have hxlt := (Array.getElem?_eq_some_iff.mp (h.levelOf_varAt hx)).1
  have hylt := (Array.getElem?_eq_some_iff.mp (h.levelOf_varAt hy)).1
  show ((o.levelOf.setIfInBounds x (l + 1)).setIfInBounds y l)[v]? = _
  rw [Array.getElem?_setIfInBounds, Array.getElem?_setIfInBounds, Array.size_setIfInBounds]
  by_cases hvy : v = y
  · rw [if_pos hvy.symm, if_pos hvy, if_pos hylt]
  · rw [if_neg (Ne.symm hvy), if_neg hvy]
    by_cases hvx : v = x
    · rw [if_pos hvx.symm, if_pos hvx, if_pos hxlt]
    · rw [if_neg (Ne.symm hvx), if_neg hvx]

omit h in
theorem varAt_exchange (k : Level) :
    (o.exchange l x y).varAt[k]? =
      if k = l then some y else if k = l + 1 then some x else o.varAt[k]? := by
  show (o.varAt.swapIfInBounds l (l + 1))[k]? = _
  rw [getElem?_swapIfInBounds_succ _ (Array.getElem?_eq_some_iff.mp hy).1, hx, hy]

theorem Valid.exchange : (o.exchange l x y).Valid := by
  have hne : x ≠ y := by
    rintro rfl
    have := Option.some.inj ((h.levelOf_varAt hx).symm.trans (h.levelOf_varAt hy))
    lia
  -- Either way by the same three cases: one of the two levels, the other, or none of them.
  refine ⟨?_, ?_, ?_⟩
  · show ((o.levelOf.setIfInBounds x (l + 1)).setIfInBounds y l).size =
      (o.varAt.swapIfInBounds l (l + 1)).size
    rw [Array.size_setIfInBounds, Array.size_setIfInBounds, Array.size_swapIfInBounds, h.size]
  · intro k v hv
    rw [varAt_exchange hx hy] at hv
    rw [h.levelOf_exchange hx hy]
    split at hv
    · rename_i hk
      obtain rfl := Option.some.inj hv
      rw [if_pos rfl, hk]
    · split at hv
      · rename_i hk
        obtain rfl := Option.some.inj hv
        rw [if_neg hne, if_pos rfl, hk]
      · rename_i hkl hkl'
        have hl := h.levelOf_varAt hv
        rw [if_neg, if_neg]
        · exact hl
        · rintro rfl
          exact hkl (Option.some.inj (hl.symm.trans (h.levelOf_varAt hx)))
        · rintro rfl
          exact hkl' (Option.some.inj (hl.symm.trans (h.levelOf_varAt hy)))
  · intro v k hk
    rw [h.levelOf_exchange hx hy] at hk
    rw [varAt_exchange hx hy]
    split at hk
    · rename_i hv
      obtain rfl := Option.some.inj hk
      rw [if_pos rfl, hv]
    · split at hk
      · rename_i hv
        obtain rfl := Option.some.inj hk
        rw [if_neg (by lia), if_pos rfl, hv]
      · rename_i hvy hvx
        have hv := h.varAt_levelOf hk
        rw [if_neg, if_neg]
        · exact hv
        · rintro rfl
          exact hvy (Option.some.inj (hv.symm.trans hy))
        · rintro rfl
          exact hvx (Option.some.inj (hv.symm.trans hx))

theorem Valid.exchange_ne : o.exchange l x y ≠ o := by
  intro heq
  have hy' := varAt_exchange hx hy l
  rw [heq, if_pos rfl, hx] at hy'
  obtain rfl := Option.some.inj hy'
  have := Option.some.inj ((h.levelOf_varAt hx).symm.trans (h.levelOf_varAt hy))
  lia

/-- The second of two exchanges takes the first one back. -/
theorem Valid.exchange_exchange : (o.exchange l x y).exchange l y x = o := by
  have hvalid := h.exchange hx hy
  have hx' : (o.exchange l x y).varAt[l + 1]? = some x := by
    rw [varAt_exchange hx hy, if_neg (by lia), if_pos rfl]
  have hy' : (o.exchange l x y).varAt[l]? = some y := by
    rw [varAt_exchange hx hy, if_pos rfl]
  have hlevelOf : ((o.exchange l x y).exchange l y x).levelOf = o.levelOf := by
    refine Array.ext_getElem? fun v => ?_
    rw [hvalid.levelOf_exchange hy' hx', h.levelOf_exchange hx hy]
    split
    · rename_i hv
      rw [hv, h.levelOf_varAt hx]
    · split
      · rename_i hv
        rw [hv, h.levelOf_varAt hy]
      · rfl
  have hvarAt : ((o.exchange l x y).exchange l y x).varAt = o.varAt := by
    refine Array.ext_getElem? fun k => ?_
    rw [varAt_exchange hy' hx', varAt_exchange hx hy]
    split
    · rename_i hk
      rw [hk, hx]
    · split
      · rename_i hk
        rw [hk, hy]
      · rfl
  calc (o.exchange l x y).exchange l y x
      = ⟨((o.exchange l x y).exchange l y x).levelOf, ((o.exchange l x y).exchange l y x).varAt⟩ := rfl
    _ = o := by rw [hlevelOf, hvarAt]

end Exchange

/-! ### The list of the variables -/

theorem getElem?_toList (l : Level) : o.toList[l]? = o.varAt[l]? := Array.getElem?_toList

theorem mem_toList_iff {v : Var} : v ∈ o.toList ↔ ∃ l : Level, o.varAt[l]? = some v := by
  simp only [List.mem_iff_getElem?, getElem?_toList]

theorem Valid.nodup_toList (h : o.Valid) : o.toList.Nodup := by
  refine List.nodup_iff_getElem?_ne_getElem?.mpr fun i j hij hj heq => ?_
  obtain ⟨v, hv⟩ : ∃ v, o.toList[j]? = some v := ⟨_, List.getElem?_eq_getElem hj⟩
  rw [hv] at heq
  rw [getElem?_toList] at hv heq
  have := Option.some.inj ((h.levelOf_varAt heq).symm.trans (h.levelOf_varAt hv))
  lia

/-- The list of a valid order is a permutation of all variables. -/
theorem Valid.toList_perm (h : o.Valid) : o.toList.Perm (List.range o.size) := by
  refine (List.perm_ext_iff_of_nodup h.nodup_toList List.nodup_range).mpr fun v => ?_
  rw [mem_toList_iff, List.mem_range]
  constructor
  · rintro ⟨l, hl⟩
    have hlt := (Array.getElem?_eq_some_iff.mp (h.levelOf_varAt hl)).1
    rwa [h.size] at hlt
  · intro hv
    obtain ⟨l, -, -, hl, -⟩ := h.getD_levelOf hv
    exact ⟨l, hl⟩

theorem Valid.mem_toList (h : o.Valid) {v : Var} : v ∈ o.toList ↔ v < o.size := by
  rw [h.toList_perm.mem_iff, List.mem_range]

/-- A variable stands at the level that tells how many stand above it. -/
theorem Valid.levelOf_of_toList (h : o.Valid) {v : Var} {A B : List Var}
    (ho : o.toList = A ++ v :: B) : o.levelOf[v]? = some A.length := by
  refine h.levelOf_varAt ?_
  rw [← getElem?_toList, ho, List.getElem?_append_right (Nat.le_refl _), Nat.sub_self]
  rfl

theorem Valid.levelOf_iff (h : o.Valid) {v : Var} {l : Level} :
    o.levelOf[v]? = some l ↔ o.toList[l]? = some v := by
  rw [getElem?_toList]
  exact ⟨h.varAt_levelOf, h.levelOf_varAt⟩

/-- Of two variables, one stands below the other. -/
theorem Valid.lt_of_not_lt (h : o.Valid) {v w : Var} {k l : Level} (hv : o.levelOf[v]? = some k)
    (hw : o.levelOf[w]? = some l) (hne : v ≠ w) (hge : ¬ k < l) : l < k := by
  refine Nat.lt_of_le_of_ne (Nat.le_of_not_lt hge) ?_
  rintro rfl
  exact hne (Option.some.inj ((h.varAt_levelOf hv).symm.trans (h.varAt_levelOf hw)))

/-- What stands above, between and below two variables. -/
theorem Valid.exists_between (h : o.Valid) {v w : Var} {k l : Level} (hv : o.levelOf[v]? = some k)
    (hw : o.levelOf[w]? = some l) (hlt : k < l) : ∃ A W B : List Var,
      o.toList = A ++ v :: (W ++ w :: B) ∧ A.length = k ∧ A.length + W.length + 1 = l := by
  have hv := h.varAt_levelOf hv
  have hw := h.varAt_levelOf hw
  rw [← getElem?_toList] at hv hw
  obtain ⟨A, C, hlist, rfl⟩ := exists_split hv
  obtain ⟨i, rfl⟩ := Nat.exists_eq_add_of_lt hlt
  rw [hlist, List.getElem?_append_right (by lia), Nat.add_assoc, Nat.add_sub_cancel_left,
    List.getElem?_cons_succ] at hw
  obtain ⟨W, B, rfl, rfl⟩ := exists_split hw
  exact ⟨A, W, B, hlist, rfl, rfl⟩

/-- Two variables have exchanged their levels, and all others have kept theirs. -/
structure Swapped (o : VarOrder) (v w : Var) (o' : VarOrder) : Prop where
  left : o'.levelOf[v]? = o.levelOf[w]?
  right : o'.levelOf[w]? = o.levelOf[v]?
  others : ∀ u, u ≠ v → u ≠ w → o'.levelOf[u]? = o.levelOf[u]?

theorem Swapped.symm {o' : VarOrder} {v w : Var} (h : o.Swapped v w o') : o.Swapped w v o' :=
  ⟨h.right, h.left, fun u hw hv => h.others u hv hw⟩

/-- Variables that exchange their places exchange their levels. -/
theorem Valid.swapped {o' : VarOrder} (h : o.Valid) (h' : o'.Valid) {v w : Var}
    {A W B : List Var} (ho : o.toList = A ++ v :: (W ++ w :: B))
    (ho' : o'.toList = A ++ w :: (W ++ v :: B)) : o.Swapped v w o' := by
  have hsplit : ∀ x y : Var, A ++ x :: (W ++ y :: B) = (A ++ x :: W) ++ y :: B := fun x y => by
    rw [List.append_assoc, List.cons_append]
  have hw := h.levelOf_of_toList (ho.trans (hsplit v w))
  have hv := h'.levelOf_of_toList (ho'.trans (hsplit w v))
  refine ⟨?_, (h'.levelOf_of_toList ho').trans (h.levelOf_of_toList ho).symm, fun u huv huw => ?_⟩
  · rw [hv, hw, List.length_append, List.length_append]
    rfl
  · -- Neither of the two entries that have changed is the other variable.
    refine Option.ext fun l => ?_
    rw [h'.levelOf_iff, h.levelOf_iff, ho, ho', getElem?_replace huw huv, hsplit, hsplit,
      getElem?_replace huv huw]

/-! ### Moves -/

/-- How the order changes when a variable moves down by one level. -/
inductive Lowers (o : VarOrder) (v : Var) : VarOrder → Prop
  | stay {l : Level} (hl : o.levelOf[v]? = some l) (bottom : l + 1 = o.size) : Lowers o v o
  | exchange {l : Level} {w : Var} (hv : o.varAt[l]? = some v) (hw : o.varAt[l + 1]? = some w) :
    Lowers o v (o.exchange l v w)

/-- A variable that moves down passes the next one. -/
theorem Valid.lowers_toList {o' : VarOrder} {v w : Var} {A B : List Var} (h : o.Valid)
    (ho : o.toList = A ++ v :: w :: B) (hl : o.Lowers v o') : o'.toList = A ++ w :: v :: B := by
  have hvarAt : o.varAt = (A ++ v :: w :: B).toArray := by rw [← ho]; rfl
  have hv := h.varAt_levelOf (h.levelOf_of_toList ho)
  cases hl with
  | @stay l hl bottom =>
    obtain rfl := Option.some.inj ((h.levelOf_varAt hv).symm.trans hl)
    have hsize : o.size = A.length + (B.length + 1 + 1) := by
      rw [VarOrder.size, hvarAt, List.size_toArray, List.length_append, List.length_cons,
        List.length_cons]
    lia
  | @exchange l w' hv' hw =>
    obtain rfl := Option.some.inj ((h.levelOf_varAt hv).symm.trans (h.levelOf_varAt hv'))
    show (o.varAt.swapIfInBounds A.length (A.length + 1)).toList = _
    rw [hvarAt, swap_adjacent]

/-- An order is determined by the list of its variables. -/
theorem Valid.eq_of_toList {o' : VarOrder} (h : o.Valid) (h' : o'.Valid) (heq : o'.toList = o.toList) :
    o' = o := by
  obtain ⟨levelOf, varAt⟩ := o
  obtain ⟨levelOf', varAt'⟩ := o'
  obtain rfl : varAt' = varAt := Array.toList_inj.mp heq
  have hlevelOf : levelOf' = levelOf := by
    refine Array.ext_getElem? fun v => Option.ext fun l => ?_
    exact ⟨fun hl => h.levelOf_varAt (h'.varAt_levelOf hl),
      fun hl => h'.levelOf_varAt (h.varAt_levelOf hl)⟩
  rw [hlevelOf]

/-- How the order changes when a variable moves up by one level. -/
inductive Raises (o : VarOrder) (v : Var) : VarOrder → Prop
  | stay (top : o.levelOf[v]? = some 0) : Raises o v o
  | exchange {l : Level} {w : Var} (hw : o.varAt[l]? = some w) (hv : o.varAt[l + 1]? = some v) :
    Raises o v (o.exchange l w v)

/-- A variable moves up when the one above it moves down. -/
theorem Lowers.raises {o' : VarOrder} {l : Level} {v w : Var} (h : o.Lowers w o') (ho : o.Valid)
    (hv : o.levelOf[v]? = some (l + 1)) (hw : o.varAt[l]? = some w) : o.Raises v o' := by
  have hv := ho.varAt_levelOf hv
  have hw' := ho.levelOf_varAt hw
  cases h with
  | stay hl bottom =>
    obtain rfl := Option.some.inj (hw'.symm.trans hl)
    have hlt : l + 1 < o.size := (Array.getElem?_eq_some_iff.mp hv).1
    lia
  | exchange hl hnext =>
    obtain rfl := Option.some.inj (hw'.symm.trans (ho.levelOf_varAt hl))
    obtain rfl := Option.some.inj (hv.symm.trans hnext)
    exact .exchange hw hv

theorem Lowers.unique {o₁ o₂ : VarOrder} {v : Var} (h₁ : o.Lowers v o₁) (h₂ : o.Lowers v o₂)
    (ho : o.Valid) : o₂ = o₁ := by
  have hlt : ∀ {l : Level} {w : Var}, o.varAt[l]? = some w → l < o.size := fun hw =>
    (Array.getElem?_eq_some_iff.mp hw).1
  cases h₁ with
  | stay hl bottom =>
    cases h₂ with
    | stay => rfl
    | exchange hv hw =>
      obtain rfl := Option.some.inj (hl.symm.trans (ho.levelOf_varAt hv))
      have := hlt hw
      lia
  | exchange hv hw =>
    cases h₂ with
    | stay hl bottom =>
      obtain rfl := Option.some.inj (hl.symm.trans (ho.levelOf_varAt hv))
      have := hlt hw
      lia
    | exchange hv' hw' =>
      obtain rfl := Option.some.inj ((ho.levelOf_varAt hv).symm.trans (ho.levelOf_varAt hv'))
      obtain rfl := Option.some.inj (hw.symm.trans hw')
      rfl

theorem Raises.unique {o₁ o₂ : VarOrder} {v : Var} (h₁ : o.Raises v o₁) (h₂ : o.Raises v o₂)
    (ho : o.Valid) : o₂ = o₁ := by
  cases h₁ with
  | stay top =>
    cases h₂ with
    | stay => rfl
    | exchange hw hv =>
      have := Option.some.inj (top.symm.trans (ho.levelOf_varAt hv))
      lia
  | exchange hw hv =>
    cases h₂ with
    | stay top =>
      have := Option.some.inj (top.symm.trans (ho.levelOf_varAt hv))
      lia
    | @exchange l' w' hw' hv' =>
      have := Option.some.inj ((ho.levelOf_varAt hv).symm.trans (ho.levelOf_varAt hv'))
      obtain rfl : _ = l' := Nat.succ.inj this
      obtain rfl := Option.some.inj (hw.symm.trans hw')
      rfl

/-- A variable that has moved down returns when it moves up. -/
theorem Lowers.back {o' o'' : VarOrder} {v : Var} (h : o.Lowers v o') (ho : o.Valid) (hne : o' ≠ o)
    (h' : o'.Raises v o'') : o'' = o := by
  cases h with
  | stay => exact absurd rfl hne
  | @exchange l w hv hw =>
    have hvalid := ho.exchange hv hw
    have hv' : (o.exchange l v w).varAt[l + 1]? = some v := by
      rw [varAt_exchange hv hw, if_neg (by lia), if_pos rfl]
    cases h' with
    | stay top =>
      have := Option.some.inj (top.symm.trans (hvalid.levelOf_varAt hv'))
      lia
    | @exchange l' w' hw' hv'' =>
      obtain rfl : l = l' := by
        have := Option.some.inj ((hvalid.levelOf_varAt hv').symm.trans (hvalid.levelOf_varAt hv''))
        lia
      rw [varAt_exchange hv hw, if_pos rfl] at hw'
      obtain rfl := Option.some.inj hw'
      exact ho.exchange_exchange hv hw

/-- A variable that has moved up returns when it moves down. -/
theorem Raises.back {o' o'' : VarOrder} {v : Var} (h : o.Raises v o') (ho : o.Valid) (hne : o' ≠ o)
    (h' : o'.Lowers v o'') : o'' = o := by
  cases h with
  | stay => exact absurd rfl hne
  | @exchange l w hw hv =>
    have hvalid := ho.exchange hw hv
    have hv' : (o.exchange l w v).varAt[l]? = some v := by
      rw [varAt_exchange hw hv, if_pos rfl]
    have hlt : l + 1 < o.size := (Array.getElem?_eq_some_iff.mp hv).1
    cases h' with
    | @stay l' hl bottom =>
      have := Option.some.inj (hl.symm.trans (hvalid.levelOf_varAt hv'))
      rw [size_exchange] at bottom
      lia
    | @exchange l' w' hv'' hw' =>
      obtain rfl : l = l' :=
        Option.some.inj ((hvalid.levelOf_varAt hv').symm.trans (hvalid.levelOf_varAt hv''))
      rw [varAt_exchange hw hv, if_neg (by lia), if_pos rfl] at hw'
      obtain rfl := Option.some.inj hw'
      exact ho.exchange_exchange hw hv

end VarOrder

namespace Pairings

variable {p : Pairings}

theorem mem_nodes {id : NodeId} : id ∈ p.nodes ↔ ∃ t ∈ p.tables, id ∈ t.result := by
  simp only [nodes, List.mem_flatMap, Array.mem_toList_iff]

theorem mem_nodes_swapDown (level : Level) {id : NodeId} :
    id ∈ (p.swapDown level).nodes ↔ id ∈ p.nodes := by
  have hswap : ∀ a : Array NodeId, id ∈ a.swapIfInBounds level (level + 1) ↔ id ∈ a := fun a => by
    rw [← Array.mem_toList_iff, (swapIfInBounds_perm a level (level + 1)).mem_iff, Array.mem_toList_iff]
  simp only [mem_nodes, swapDown, Array.mem_map, exists_exists_and_eq_and, hswap]

/-- As long as the stamps have not run out, no two pairings have the same one, and none has a stamp
that is still to come. -/
def Stamped (p : Pairings) : Prop :=
  p.updates < 2 ^ 32 → (∀ t ∈ p.tables, t.stamp.toNat ≤ p.updates) ∧
    ∀ {i j : Nat} {t u : Pairing}, p.tables[i]? = some t → p.tables[j]? = some u →
      t.stamp = u.stamp → i = j

/-- Every pairing has an entry for each of `n` levels, and its last changed one is among them. -/
structure Fits (p : Pairings) (n : Nat) : Prop where
  entries : ∀ t ∈ p.tables, t.result.size = n ∧ ∀ last, t.last = some last → last < n
  stamps : p.Stamped

/-- A change of the entries that leaves the stamps as they are. -/
theorem Stamped.map (h : p.Stamped) {f : Pairing → Pairing} (hf : ∀ t, (f t).stamp = t.stamp) :
    Stamped { p with tables := p.tables.map f } := by
  intro hu
  obtain ⟨hle, hinj⟩ := h hu
  refine ⟨fun t ht => ?_, fun {i j t u} ht hu hs => ?_⟩
  · obtain ⟨t', ht', rfl⟩ := Array.mem_map.mp ht
    rw [hf]
    exact hle t' ht'
  · rw [Array.getElem?_map, Option.map_eq_some_iff] at ht hu
    obtain ⟨t', ht', rfl⟩ := ht
    obtain ⟨u', hu', rfl⟩ := hu
    rw [hf, hf] at hs
    exact hinj ht' hu' hs

theorem Fits.swapDown {n : Nat} (h : p.Fits n) {level : Level} (hlt : level + 1 < n) :
    (p.swapDown level).Fits n := by
  refine ⟨fun t ht => ?_, h.stamps.map fun _ => rfl⟩
  obtain ⟨t', ht', rfl⟩ := Array.mem_map.mp ht
  obtain ⟨hsize, hlast⟩ := h.entries t' ht'
  refine ⟨by rw [Array.size_swapIfInBounds]; exact hsize, fun last hl => ?_⟩
  dsimp only at hl
  split at hl
  · obtain rfl := Option.some.inj hl
    exact hlt
  · exact hlast last hl

/-! ### The entries move with their variables -/

variable {o o' o'' : VarOrder} {p' p'' : Pairings}

/-- What is substituted for a variable: the entry at its level. -/
def substitute? (p : Pairings) (o : VarOrder) (number : Nat) (v : Var) : Option NodeId := do
  let t ← p.tables[number]?
  let level ← o.levelOf[v]?
  t.result[level]?

/-- Past the last level that was set, every variable stands for itself; `own` gives the node by which
it does. -/
def Plain (p : Pairings) (o : VarOrder) (own : Var → Option NodeId) : Prop :=
  ∀ t ∈ p.tables, ∀ {l : Level} {f : NodeId}, t.result[l]? = some f →
    (∀ last, t.last = some last → last < l) → ∃ v, o.varAt[l]? = some v ∧ own v = some f

/-- The pairings have changed with the order: every entry has moved with its variable, and past the
last level that was set nothing has come up. -/
structure Carried (o : VarOrder) (p : Pairings) (o' : VarOrder) (p' : Pairings) : Prop where
  tables : p'.tables.size = p.tables.size
  substitute : ∀ number v, p'.substitute? o' number v = p.substitute? o number v
  plain : ∀ {own}, p.Plain o own → p'.Plain o' own

theorem Carried.refl (o : VarOrder) (p : Pairings) : Carried o p o p :=
  ⟨rfl, fun _ _ => rfl, fun h => h⟩

theorem Carried.trans (h : Carried o p o' p') (h' : Carried o' p' o'' p'') : Carried o p o'' p'' :=
  ⟨h'.tables.trans h.tables, fun number v => (h'.substitute number v).trans (h.substitute number v),
    fun hp => h'.plain (h.plain hp)⟩

/-- The entries of two adjacent levels change places when their variables do. -/
theorem Carried.exchange (ho : o.Valid) (hp : p.Fits o.size) {l : Level} {x y : Var}
    (hx : o.varAt[l]? = some x) (hy : o.varAt[l + 1]? = some y) :
    Carried o p (o.exchange l x y) (p.swapDown l) := by
  have hlt : l + 1 < o.size := (Array.getElem?_eq_some_iff.mp hy).1
  have hswap : ∀ t ∈ p.tables, ∀ k : Level, (t.result.swapIfInBounds l (l + 1))[k]? =
      if k = l then t.result[l + 1]? else if k = l + 1 then t.result[l]? else t.result[k]? :=
    fun t ht k => getElem?_swapIfInBounds_succ t.result ((hp.entries t ht).1.symm ▸ hlt) k
  refine ⟨size_swapDown p l, fun number v => ?_, fun {own} hplain => ?_⟩
  · simp only [substitute?, swapDown, Array.getElem?_map]
    rcases ht : p.tables[number]? with _ | t
    · rfl
    simp only [Option.map_some, Option.bind_eq_bind, Option.bind_some,
      ho.levelOf_exchange hx hy v]
    have hswap := hswap t (Array.mem_of_getElem? ht)
    split
    · rename_i hv
      rw [hv, ho.levelOf_varAt hy, Option.bind_some, Option.bind_some, hswap, if_pos rfl]
    · split
      · rename_i hv
        rw [hv, ho.levelOf_varAt hx, Option.bind_some, Option.bind_some, hswap,
          if_neg (Nat.succ_ne_self l), if_pos rfl]
      · rename_i hvy hvx
        rcases hk : o.levelOf[v]? with _ | k
        · rfl
        -- The level of another variable is neither of the two.
        have hv := ho.varAt_levelOf hk
        rw [Option.bind_some, Option.bind_some, hswap, if_neg, if_neg]
        · rintro rfl
          exact hvy (Option.some.inj (hv.symm.trans hy))
        · rintro rfl
          exact hvx (Option.some.inj (hv.symm.trans hx))
  · intro t' ht' k f hf hlast
    obtain ⟨t, ht, rfl⟩ := Array.mem_map.mp ht'
    dsimp only at hf hlast
    rw [hswap t ht] at hf
    rw [VarOrder.varAt_exchange hx hy]
    -- If the upper level was the last one, the lower level is it now.
    have hbefore : ∀ last, t.last = some last → last < k ∧ (last = l → l + 1 < k) := by
      intro last hl
      by_cases heq : last = l
      · have := hlast (l + 1) (if_pos (heq ▸ hl))
        exact ⟨by lia, fun _ => this⟩
      · have hne : t.last ≠ some l := fun h => heq (Option.some.inj (hl.symm.trans h))
        exact ⟨hlast last ((if_neg hne).trans hl), fun h => absurd h heq⟩
    split at hf
    · rename_i hk
      rw [if_pos hk, ← hy]
      refine hplain t ht hf fun last hl => ?_
      have := (hbefore last hl).1
      lia
    · rename_i hkl
      split at hf
      · rename_i hk
        rw [if_neg hkl, if_pos hk, ← hx]
        refine hplain t ht hf fun last hl => ?_
        have := hbefore last hl
        lia
      · rename_i hkl'
        rw [if_neg hkl, if_neg hkl']
        exact hplain t ht hf fun last hl => (hbefore last hl).1

end Pairings

end DecisionDiagram
