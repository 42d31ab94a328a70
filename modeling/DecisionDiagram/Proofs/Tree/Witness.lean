/-
Witnesses and supports of decision trees.

* `Tree.literals` — a tree below literals of one sign;
* `Tree.satOne`, `Tree.satOneSet`, `Tree.fullSatOne` — the literals along the preferred path, with
  literals for some or for all of the levels that the path leaves open;
* `Tree.levels` — the levels that a tree decides somewhere.
-/
import DecisionDiagram.Proofs.Queries

namespace DecisionDiagram.Tree

variable {d j k : Level} {l h t : Tree} {ks : List Level} {polarity : Bool}

/-- The conjunction of a literal and a tree of lower levels. -/
def literal (k : Level) (positive : Bool) (t : Tree) : Tree :=
  if positive then make k (leaf false) t else make k t (leaf false)

/-- The same for literals of one sign, from the top down. -/
def literals (ks : List Level) (positive : Bool) (t : Tree) : Tree :=
  ks.foldr (fun k t => literal k positive t) t

/-- The literals along the path that takes a high branch only where the low one is false. -/
def satOne : Tree → Tree
  | leaf b => leaf b
  | node k l h => if l = leaf false then literal k true h.satOne else literal k false l.satOne

/-- The same, with a literal of the given sign for each of the levels `ks` that the path does not
decide. -/
def satOneSet (polarity : Bool) : Tree → List Level → Tree
  | leaf b, ks => literals ks polarity (leaf b)
  | node k l h, ks =>
    literals (ks.takeWhile (· < k)) polarity <|
      if l = leaf false then literal k true (satOneSet polarity h (ks.dropWhile (· ≤ k)))
      else literal k false (satOneSet polarity l (ks.dropWhile (· ≤ k)))

/-- A tree below negative literals at the levels from `top` on, down to but without `bottom`. -/
def fill (top bottom : Level) (t : Tree) : Tree :=
  literals (List.range' top (bottom - top)) false t

/-- The literals along the preferred path, and negative ones at the levels that it leaves open, down to
but without the level `d`. -/
def fullSatOne (d : Level) : Tree → Tree
  | leaf b => leaf b
  | node k l h =>
    if l = leaf false then literal k true (fill (k + 1) (h.levelOr d) (h.fullSatOne d))
    else literal k false (fill (k + 1) (l.levelOr d) (l.fullSatOne d))

/-- The levels that a tree decides. -/
def levels : Tree → List Level
  | leaf _ => []
  | node k l h => k :: (l.levels ++ h.levels)

theorem Proper.literal (ht : Proper (k + 1) t) (positive : Bool) : Proper k (t.literal k positive) := by
  unfold Tree.literal
  split
  · exact .make (.leaf _ _) ht
  · exact .make ht (.leaf _ _)

/-- No literal makes a difference to a false tree. -/
theorem literals_false : (leaf false).literals ks polarity = leaf false := by
  induction ks with
  | nil => rfl
  | cons k ks ih =>
    rw [literals, List.foldr_cons, ← literals, ih]
    simp [literal, make]

theorem fill_self (k : Level) (t : Tree) : t.fill k k = t := by
  rw [fill, Nat.sub_self]
  rfl

/-- The lowest of the literals comes first. -/
theorem fill_succ (h : k ≤ j) (t : Tree) : t.fill k (j + 1) = (t.literal j false).fill k j := by
  rw [fill, fill, Nat.succ_sub h, List.range'_1_concat, Nat.add_sub_cancel' h, literals, literals,
    List.foldr_append]
  rfl

/-- A level above those of the tree gets the first literal. -/
theorem satOneSet_cons (h : ∀ k, t.level? = some k → j < k) (ks : List Level) :
    satOneSet polarity t (j :: ks) = (satOneSet polarity t ks).literal j polarity := by
  cases t with
  | leaf => rfl
  | node k l h' =>
    have hjk := h k rfl
    rw [satOneSet, satOneSet, List.takeWhile_cons_of_pos (by simpa using hjk),
      List.dropWhile_cons_of_pos (by simpa using Nat.le_of_lt hjk)]
    rfl

/-- The first level of the tree is the first one to get a literal. -/
theorem satOneSet_node (h₁ : ∀ j ∈ ks, k < j) :
    (satOneSet polarity (node k l h) ks = if l = leaf false then (satOneSet polarity h ks).literal k true
      else (satOneSet polarity l ks).literal k false) ∧
    satOneSet polarity (node k l h) (k :: ks) = satOneSet polarity (node k l h) ks := by
  have htake : ks.takeWhile (· < k) = [] := by
    cases ks with
    | nil => rfl
    | cons j js => exact List.takeWhile_cons_of_neg (by simpa using Nat.le_of_lt (h₁ j (by simp)))
  have hdrop : ks.dropWhile (· ≤ k) = ks := by
    cases ks with
    | nil => rfl
    | cons j js => exact List.dropWhile_cons_of_neg (by simpa using h₁ j (by simp))
  constructor
  · rw [satOneSet, htake, hdrop]
    rfl
  · rw [satOneSet, satOneSet, List.takeWhile_cons_of_neg (by simp),
      List.dropWhile_cons_of_pos (by simp), htake]

end DecisionDiagram.Tree
