/-
The registry of protected nodes.

A node may be protected several times and is a root until it has been released as many times. The
terminals need no protection and are never registered.
-/
import DecisionDiagram.Node

namespace DecisionDiagram

/-- The protected nodes and how often each is protected. -/
structure Roots where
  /-- The count of each protected node, in the order in which they were first protected. -/
  counts : List (NodeId × Nat)
  /-- No node has two counts. -/
  nodup : (counts.map Prod.fst).Nodup
  /-- A count is kept only as long as it is positive. -/
  pos : ∀ p ∈ counts, 0 < p.2
deriving DecidableEq

namespace Roots

def empty : Roots := ⟨[], by simp, by simp⟩

instance : Inhabited Roots := ⟨empty⟩

/-- Number of protected nodes. -/
def size (r : Roots) : Nat := r.counts.length

def isEmpty (r : Roots) : Bool := r.counts.isEmpty

/-- How often a node is protected. -/
def count (r : Roots) (id : NodeId) : Nat := (r.counts.lookup id).getD 0

/-- The protected nodes. -/
def nodes (r : Roots) : List NodeId := r.counts.map Prod.fst

/-! ### Protection -/

/-- One more entry for `id` in a list of counts. -/
def increment (id : NodeId) : List (NodeId × Nat) → List (NodeId × Nat)
  | [] => [(id, 1)]
  | (k, n) :: rest => if k = id then (k, n + 1) :: rest else (k, n) :: increment id rest

theorem mem_keys_increment {id j : NodeId} {l : List (NodeId × Nat)} :
    j ∈ (increment id l).map Prod.fst ↔ j = id ∨ j ∈ l.map Prod.fst := by
  induction l with
  | nil => simp [increment]
  | cons p rest ih => grind [increment]

theorem nodup_increment {id : NodeId} {l : List (NodeId × Nat)} (h : (l.map Prod.fst).Nodup) :
    ((increment id l).map Prod.fst).Nodup := by
  induction l with
  | nil => simp [increment]
  | cons p rest ih =>
    unfold increment
    split
    · simpa using h
    · have hk := @mem_keys_increment id p.1 rest
      grind

theorem pos_increment {id : NodeId} {l : List (NodeId × Nat)} (h : ∀ p ∈ l, 0 < p.2) :
    ∀ p ∈ increment id l, 0 < p.2 := by
  induction l with
  | nil => simp [increment]
  | cons p rest ih => grind [increment]

theorem lookup_increment (id j : NodeId) (l : List (NodeId × Nat)) :
    ((increment id l).lookup j).getD 0 = (l.lookup j).getD 0 + if j = id then 1 else 0 := by
  induction l with
  | nil => by_cases h : j = id <;> simp [increment, List.lookup_cons, beq_eq_false_iff_ne.mpr, h]
  | cons p rest ih => grind [increment]

/-- Protects a node once more; a terminal is left alone. -/
def protect (r : Roots) (id : NodeId) : Roots :=
  if id.isTerminal then r else ⟨increment id r.counts, nodup_increment r.nodup, pos_increment r.pos⟩

@[simp] theorem count_empty (id : NodeId) : empty.count id = 0 := rfl

/-- A protection adds to the count of its node, unless that is a terminal, and to no other count. -/
@[simp] theorem count_protect (r : Roots) (id j : NodeId) :
    (r.protect id).count j = r.count j + if j = id ∧ !id.isTerminal then 1 else 0 := by
  unfold protect count
  by_cases h : id.isTerminal = true
  · simp [h]
  · simp [h, lookup_increment]

/-! ### Release -/

/-- One entry less for `id` in a list of counts. -/
def decrement (id : NodeId) : List (NodeId × Nat) → List (NodeId × Nat)
  | [] => []
  | (k, n) :: rest =>
    if k = id then (if 1 < n then (k, n - 1) :: rest else rest) else (k, n) :: decrement id rest

theorem keys_decrement_sublist (id : NodeId) (l : List (NodeId × Nat)) :
    ((decrement id l).map Prod.fst).Sublist (l.map Prod.fst) := by
  induction l with
  | nil => simp [decrement]
  | cons p rest ih =>
    unfold decrement
    repeat' split
    · simp
    · simp
    · simpa using ih

theorem pos_decrement {id : NodeId} {l : List (NodeId × Nat)} (h : ∀ p ∈ l, 0 < p.2) :
    ∀ p ∈ decrement id l, 0 < p.2 := by
  induction l with
  | nil => simp [decrement]
  | cons p rest ih => grind [decrement]

theorem lookup_eq_none {j : NodeId} {l : List (NodeId × Nat)} (h : j ∉ l.map Prod.fst) :
    l.lookup j = none := by
  induction l with
  | nil => rfl
  | cons p rest ih => grind

theorem lookup_decrement (id j : NodeId) {l : List (NodeId × Nat)}
    (nodup : (l.map Prod.fst).Nodup) (pos : ∀ p ∈ l, 0 < p.2) :
    ((decrement id l).lookup j).getD 0 = (l.lookup j).getD 0 - if j = id then 1 else 0 := by
  induction l with
  | nil => simp [decrement]
  | cons p rest ih =>
    have := @lookup_eq_none j rest
    grind [decrement]

/-- Drops one protection of a node. -/
def release (r : Roots) (id : NodeId) : Roots :=
  ⟨decrement id r.counts, r.nodup.sublist (keys_decrement_sublist id r.counts),
    pos_decrement r.pos⟩

/-- Whether a node is protected. -/
def contains (r : Roots) (id : NodeId) : Bool := (r.counts.lookup id).isSome

/-- A release takes away from the count of its node, and from no other count. -/
@[simp] theorem count_release (r : Roots) (id j : NodeId) :
    (r.release id).count j = r.count j - if j = id then 1 else 0 :=
  lookup_decrement id j r.nodup r.pos

/-- The protected nodes are those with a positive count. -/
theorem mem_nodes {r : Roots} {id : NodeId} : id ∈ r.nodes ↔ 0 < r.count id := by
  obtain ⟨l, nodup, pos⟩ := r
  simp only [nodes, count]
  clear nodup
  induction l with
  | nil => simp
  | cons p rest ih => grind

theorem contains_iff {r : Roots} {id : NodeId} : r.contains id = true ↔ 0 < r.count id := by
  obtain ⟨l, nodup, pos⟩ := r
  simp only [contains, count]
  clear nodup
  induction l with
  | nil => simp
  | cons p rest ih => grind

end Roots

end DecisionDiagram
