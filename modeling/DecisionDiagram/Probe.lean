/-
Open addressing: the search that both node tables share.

The table is a stretch of slots, a power of two of them. A slot holds the id of a node, or 0 where
it is empty: the terminal for false is never indexed. The search starts at the hash of the record
and jumps by its stride, which is odd, so it meets every slot of the stretch once.

* **`probe`** — where a record is, or the vacancy where it belongs; no answer if the stretch has
  neither, or if a slot names a node past the arena;
* **`slotsFor`** — the length of the stretch for a number of nodes, at most half of it filled.
-/
import DecisionDiagram.Node

namespace DecisionDiagram

/-- The outcome of a search. -/
inductive Probe
  /-- The node with the record. -/
  | found (id : NodeId)
  /-- The slot in which the record belongs. -/
  | vacant (slot : Nat)
deriving DecidableEq, Repr

/-- At least twice `count` slots, and a power of two. -/
def slotsFor (count : Nat) : Nat := 1 <<< ((2 * max count 4 - 1).log2 + 1)

/-- Looks at `n` slots of the stretch of `size` slots from `start` on, the first at `pos` and the
others `stride` apart. -/
def probeFrom (slots : Array Nat) (nodes : Array Node) (key : Node) (start size stride : Nat) :
    Nat → Nat → Option Probe
  | 0, _ => none
  | n + 1, pos =>
    match slots[start + pos]? with
    | none => none
    | some 0 => some (.vacant (start + pos))
    | some id =>
      match nodes[id]? with
      | none => none
      | some node =>
        if node = key then some (.found id)
        else probeFrom slots nodes key start size stride n ((pos + stride) % size)

/-- Looks for a record in the stretch of `size` slots from `start` on. -/
def probe (slots : Array Nat) (nodes : Array Node) (key : Node) (start size : Nat) :
    Option Probe :=
  probeFrom slots nodes key start size (key.stride % size.toUInt64).toNat size
    (key.hash % size.toUInt64).toNat

end DecisionDiagram
