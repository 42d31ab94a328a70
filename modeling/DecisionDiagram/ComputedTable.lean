/-
The computed tables: caches for the results of the operators.

A `Query` is a call of an operator on nodes. Queries are grouped into families with a cache each; in
a family, a number tells operators of the same shape apart. `Query.key` is the tuple under which the
result is entered, and in a family no two queries have the same one (`Query.key_injective`). Results
that are floating-point counts have a cache of their own.

* **`lookup`**, **`remember`** — the use of the tables, which an operator makes around its
  recursion;
* **`clean`** — drops the entries that mention a dead node;
* **`clear`**, **`resize`** — the updates that leave no entry.
-/
import DecisionDiagram.Cache
import DecisionDiagram.Connective

namespace DecisionDiagram

/-- What becomes of the two cofactors at a quantified level. -/
inductive Quantifier
  /-- Their disjunction. -/
  | exist
  /-- Their conjunction. -/
  | forall
  /-- Their exclusive disjunction. -/
  | unique
deriving DecidableEq, Repr

/-- The connective that joins the two cofactors at a quantified level. -/
def Quantifier.connective : Quantifier → Connective
  | exist => .or
  | .forall => .and
  | unique => .xor

/-- The number that tells a quantifier from the others of its family. -/
def Quantifier.code : Quantifier → Nat
  | exist => 0
  | .forall => 1
  | unique => 2

/-- A call of an operator that answers a node. -/
inductive Query
  | not (f : NodeId)
  | apply (op : Connective) (l r : NodeId)
  | ite (f g h : NodeId)
  | quantify (q : Quantifier) (f cube : NodeId)
  | restrict (f cube : NodeId)
  | applyQuantify (q : Quantifier) (op : Connective) (l r cube : NodeId)
  /-- Renaming by the pairing that had this stamp. -/
  | rename (stamp : UInt32) (f : NodeId)
  /-- Simultaneous composition by the pairing that had this stamp. -/
  | vecCompose (stamp : UInt32) (f : NodeId)
  | constrain (f care : NodeId)
  | simplify (f care : NodeId)
  /-- Composition at a level. -/
  | compose (level : Level) (f g : NodeId)
deriving DecidableEq, Repr

namespace Query

/-- Number of families. -/
def families : Nat := 9

/-- The family of a query. Conjunction and disjunction have one each. -/
def family : Query → Nat
  | not _ => 0
  | apply .and _ _ => 1
  | apply .or _ _ => 2
  | apply _ _ _ => 3
  | ite _ _ _ => 4
  | quantify _ _ _ => 5
  | restrict _ _ => 5
  | applyQuantify _ _ _ _ _ => 6
  | rename _ _ => 7
  | vecCompose _ _ => 7
  | constrain _ _ => 8
  | simplify _ _ => 8
  | compose _ _ _ => 8

/-- The tuple under which the result is entered. -/
def key : Query → Key
  | not f => .one f
  | apply .and l r => .two l r
  | apply .or l r => .two l r
  | apply op l r => .three l r op.code
  | ite f g h => .three f g h
  | quantify q f cube => .three f cube q.code
  | restrict f cube => .three f cube 3
  | applyQuantify q op l r cube => .four l r cube (16 * q.code + op.code)
  | rename stamp f => .three f stamp.toNat 7
  | vecCompose stamp f => .three f stamp.toNat 8
  | constrain f care => .three f care 4
  | simplify f care => .three f care 5
  | compose level f g => .three f g (16 + level)

/-- The nodes that a query mentions. -/
def nodes : Query → List NodeId
  | not f => [f]
  | apply _ l r => [l, r]
  | ite f g h => [f, g, h]
  | quantify _ f cube => [f, cube]
  | restrict f cube => [f, cube]
  | applyQuantify _ _ l r cube => [l, r, cube]
  | rename _ f => [f]
  | vecCompose _ f => [f]
  | constrain f care => [f, care]
  | simplify f care => [f, care]
  | compose _ f g => [f, g]

end Query

/-- The numbers in the key of a query of the given family that are nodes. -/
def Key.nodes (family : Nat) : Key → List NodeId
  | one a => [a]
  | two a b => [a, b]
  | three a b c => if family = 4 then [a, b, c] else if family = 7 then [a] else [a, b]
  | four a b c _ => [a, b, c]

namespace Query

theorem nodes_key (q : Query) : q.key.nodes q.family = q.nodes := by
  cases q with
  | apply op l r => cases op <;> rfl
  | _ => rfl

/-- The query of the given family that has the given key. -/
def ofKey? (family : Nat) : Key → Option Query
  | .one f => some (not f)
  | .two l r => some (apply (if family = 1 then .and else .or) l r)
  | .three a b code =>
    if family = 3 then Connective.all[code]?.map (apply · a b)
    else if family = 4 then some (ite a b code)
    else if family = 5 then
      if code = 3 then some (restrict a b)
      else [Quantifier.exist, .forall, .unique][code]?.map (quantify · a b)
    else if family = 7 then
      some (if code = 7 then rename (UInt32.ofNat b) a else vecCompose (UInt32.ofNat b) a)
    else if code = 4 then some (constrain a b)
    else if code = 5 then some (simplify a b)
    else some (compose (code - 16) a b)
  | .four l r cube code =>
    match [Quantifier.exist, .forall, .unique][code / 16]?, Connective.all[code % 16]? with
    | some q, some op => some (applyQuantify q op l r cube)
    | _, _ => none

theorem ofKey?_key (q : Query) : ofKey? q.family q.key = some q := by
  cases q with
  | apply op l r => cases op <;> rfl
  | quantify q f cube => cases q <;> rfl
  | applyQuantify q op l r cube => cases q <;> cases op <;> rfl
  | rename stamp f => simp [ofKey?, family, key]
  | vecCompose stamp f => simp [ofKey?, family, key]
  | compose level f g => grind [ofKey?, family, key]
  | _ => rfl

/-- In a family, the key tells which query it is. -/
theorem key_injective {q q' : Query} (hf : q.family = q'.family) (hk : q.key = q'.key) :
    q = q' := by
  have h := ofKey?_key q
  rw [hf, hk, ofKey?_key q'] at h
  exact (Option.some.inj h).symm

end Query

/-- A count that an operator answers. -/
inductive CountQuery
  /-- Satisfying assignments to the variables from the node's own level down. -/
  | sat (f : NodeId)
  /-- Paths to the terminal for true. -/
  | path (f : NodeId)
deriving DecidableEq, Repr

namespace CountQuery

/-- The node that is counted. -/
def node : CountQuery → NodeId
  | sat f => f
  | path f => f

/-- The tuple under which the count is entered. -/
def key : CountQuery → Key
  | sat f => .two f 9
  | path f => .two f 10

end CountQuery

/-- The node in the key of a count. -/
def Key.counted : Key → NodeId
  | one a => a
  | two a _ => a
  | three a _ _ => a
  | four a _ _ _ => a

/-- Look-up counters, summed over all tables. -/
structure CacheStats where
  hits : Nat
  misses : Nat
  faults : Nat
deriving DecidableEq, Repr

/-- The caches of all operators. -/
structure ComputedTable where
  /-- One cache per family of queries. -/
  results : Array (Cache Key NodeId)
  counts : Cache Key Float
  /-- Each cache has `2 ^ bits` slots. -/
  bits : Nat
deriving Inhabited

namespace ComputedTable

/-- Empty tables of `2 ^ bits` entries. -/
def ofBits (bits : Nat) : ComputedTable :=
  { results := Array.replicate Query.families (Cache.ofBits bits)
    counts := Cache.ofBits bits
    bits }

/-- The result that the tables hold for a query. -/
def find? (t : ComputedTable) (q : Query) : Option NodeId :=
  match t.results[q.family]? with
  | none => none
  | some cache => cache.find? q.key

/-- Counts a look-up. -/
def record (t : ComputedTable) (q : Query) : ComputedTable :=
  let ⟨results, counts, bits⟩ := t
  ⟨results.modify q.family (·.record q.key), counts, bits⟩

/-- Enters the result of a query. -/
def insert (t : ComputedTable) (q : Query) (res : NodeId) : ComputedTable :=
  let ⟨results, counts, bits⟩ := t
  ⟨results.modify q.family (·.insert q.key res), counts, bits⟩

/-- The count that the tables hold for a query. -/
def findCount? (t : ComputedTable) (q : CountQuery) : Option Float := t.counts.find? q.key

/-- Counts a look-up of a count. -/
def recordCount (t : ComputedTable) (q : CountQuery) : ComputedTable :=
  { t with counts := t.counts.record q.key }

/-- Enters a count. -/
def insertCount (t : ComputedTable) (q : CountQuery) (count : Float) : ComputedTable :=
  { t with counts := t.counts.insert q.key count }

/-- Drops every count. -/
def clearCounts (t : ComputedTable) : ComputedTable := { t with counts := t.counts.clear }

/-- Drops every entry. -/
def clear (t : ComputedTable) : ComputedTable :=
  { t with results := t.results.map Cache.clear, counts := t.counts.clear }

/-- Drops the entries that mention a node for which `live` does not hold. -/
def clean (t : ComputedTable) (live : NodeId → Bool) : ComputedTable :=
  { t with
    results := t.results.mapIdx fun family cache =>
      cache.retain fun key res => (key.nodes family).all live && live res
    counts := t.counts.retain fun key _ => live key.counted }

/-- Replaces every table by an empty one of `2 ^ bits` entries. -/
def resize (t : ComputedTable) (bits : Nat) : ComputedTable :=
  { results := t.results.map (·.resize bits), counts := t.counts.resize bits, bits }

/-! ### Look-ups after an update -/

@[simp] theorem find?_record (t : ComputedTable) (q r : Query) :
    (t.record q).find? r = t.find? r := by
  simp only [find?, record, Array.getElem?_modify]
  by_cases h : q.family = r.family
  · cases t.results[r.family]? <;> simp [h]
  · simp [h]

@[simp] theorem find?_clear (t : ComputedTable) (q : Query) : t.clear.find? q = none := by
  simp only [find?, clear, Array.getElem?_map]
  cases t.results[q.family]? <;> simp

@[simp] theorem find?_resize (t : ComputedTable) (bits : Nat) (q : Query) :
    (t.resize bits).find? q = none := by
  simp only [find?, resize, Array.getElem?_map]
  cases t.results[q.family]? <;> simp

/-- An entry outlasts a cleaning if all nodes that it mentions are live. -/
theorem find?_clean (t : ComputedTable) (live : NodeId → Bool) (q : Query) :
    (t.clean live).find? q = (t.find? q).filter fun res => q.nodes.all live && live res := by
  simp only [find?, clean, Array.getElem?_mapIdx]
  cases t.results[q.family]? <;> simp [Cache.find?_retain, Query.nodes_key]

/-! ### Statistics -/

/-- The counters of all tables together. -/
def stats (t : ComputedTable) : CacheStats :=
  let sum (ofResults : Cache Key NodeId → Nat) (ofCounts : Nat) : Nat :=
    (t.results.toList.map ofResults).foldr (· + ·) ofCounts
  { hits := sum Cache.hits t.counts.hits
    misses := sum Cache.misses t.counts.misses
    faults := sum Cache.faults t.counts.faults }

end ComputedTable

end DecisionDiagram
