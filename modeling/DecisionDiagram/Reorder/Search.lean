/-
The search for a better order among adjacent blocks.

Each method works on a row of blocks that stand side by side. A window of two or three blocks is
slid along the row and left in its best order; or every block is sifted, that is, moved through the
whole row and left where the diagrams were smallest. Several orders with the same size count as the
first one met.

* **`blockDown`** — two adjacent blocks change places, the only step that the methods make;
* **`permute`** — one of the methods on a row;
* **`reorderBlock`** — the method on the row within a block, then within each of its members.
-/
import DecisionDiagram.Layout
import DecisionDiagram.Reorder.Swap

namespace DecisionDiagram.Reordering

/-- The blocks `i` and `i + 1` change places. -/
def blockDown (i : Nat) (row : Array Block) : Reordering (Array Block) := do
  match row[i]?, row[i + 1]? with
  | some upper, some lower =>
    upper.vars.reverse.forM fun v => moveDown v lower.vars.length
    return row.swapIfInBounds i (i + 1)
  | _, _ => fault

/-- Does several exchanges of adjacent blocks. -/
def blocksDown : List Nat → Array Block → Reordering (Array Block)
  | [], row => return row
  | i :: rest, row => do blocksDown rest (← blockDown i row)

/-! ### Windows of two -/

/-- Keeps the better order of the blocks `i` and `i + 1`, the new one if they are as good. -/
def win2At (row : Array Block) (i : Nat) : Reordering (Array Block) := do
  let best ← size
  let row ← blockDown i row
  if best < (← size) then blockDown i row else return row

/-- Slides a window of two over the row. -/
def win2 (row : Array Block) : Reordering (Array Block) :=
  (List.range (row.size - 1)).foldlM win2At row

/-! ### Windows of three -/

/-- The exchanges, relative to the start of the window, that take three blocks through all their
orders. -/
def win3Steps : List Nat := [1, 0, 1, 0, 1]

/-- Goes through the orders of a window and answers how many steps lead to the first best one.
`taken` steps have been made, and the best size so far is `best`, after `bestStep` steps. -/
def visit (i : Nat) : List Nat → Nat → Nat → Nat → Array Block → Reordering (Nat × Array Block)
  | [], _, _, bestStep, row => return (bestStep, row)
  | offset :: rest, taken, best, bestStep, row => do
    let row ← blockDown (i + offset) row
    let now ← size
    if now < best then visit i rest (taken + 1) now (taken + 1) row
    else visit i rest (taken + 1) best bestStep row

/-- Leaves the three blocks from `i` on in their best order. An exchange of two blocks undoes
itself, so the steps after the best order are made again in reverse. -/
def win3At (row : Array Block) (i : Nat) : Reordering (Array Block) := do
  let (bestStep, row) ← visit i win3Steps 0 (← size) 0 row
  blocksDown ((win3Steps.drop bestStep).reverse.map (i + ·)) row

/-- Slides a window of three over the row, or one of two if the row is shorter. -/
def win3 (row : Array Block) : Reordering (Array Block) :=
  if row.size < 3 then win2 row else (List.range (row.size - 2)).foldlM win3At row

/-! ### Sifting -/

/-- A block on its way through a row. -/
structure Sifting where
  row : Array Block
  /-- Where the block is. -/
  pos : Nat
  /-- The least size so far. -/
  best : Nat
  /-- Where the block was then. -/
  bestPos : Nat
  /-- The way in a direction ends once the size is above this. -/
  bound : Nat

/-- How large the diagrams may become on the way: a fifth more than the least size, and not so large
that the store could run full. -/
def maxAllowed (best : Nat) : Reordering Nat := do
  let config := (← get).manager.config
  let bound := best + best / 5
  if 0 < config.maxNodes then return min bound (config.maxNodes - config.maxIncrease - 2)
  else return bound

/-- Moves the block by one position. -/
def shift (up : Bool) (s : Sifting) : Reordering Sifting := do
  if up then return { s with row := ← blockDown (s.pos - 1) s.row, pos := s.pos - 1 }
  else return { s with row := ← blockDown s.pos s.row, pos := s.pos + 1 }

/-- Moves the block by up to a number of positions, until the diagrams get too large. -/
def sweep (up : Bool) : Nat → Sifting → Reordering Sifting
  | 0, s => return s
  | n + 1, s => do
    let s ← shift up s
    let now ← size
    let s ← if now < s.best then
        pure { s with best := now, bestPos := s.pos, bound := ← maxAllowed now }
      else pure s
    if s.bound < now then return s else sweep up n s

/-- The number of positions between the block and the end of the row. -/
def Sifting.room (s : Sifting) (up : Bool) : Nat := if up then s.pos else s.row.size - 1 - s.pos

/-- Moves the block by a number of positions. -/
def shiftBy (up : Bool) : Nat → Sifting → Reordering Sifting
  | 0, s => return s
  | n + 1, s => do shiftBy up n (← shift up s)

/-- Sifts the block whose first variable is `key`, first towards the nearer end of the row. -/
def siftBlock (row : Array Block) (key : Var) : Reordering (Array Block) := do
  match row.findIdx? fun b => b.vars.head? == some key with
  | none => return row
  | some pos =>
    let best ← size
    let s : Sifting := ⟨row, pos, best, pos, ← maxAllowed best⟩
    let up : Bool := pos ≤ row.size / 2
    let s ← sweep up (s.room up) s
    let s ← sweep (!up) (s.room (!up)) s
    let s ← shiftBy true (s.pos - s.bestPos) s
    let s ← shiftBy false (s.bestPos - s.pos) s
    return s.row

/-- The first variable of a block and the number of its nodes. -/
def weigh (b : Block) : Reordering (Var × Nat) := do
  match b.vars with
  | [] => fault
  | v :: _ => return (v, ← b.vars.foldlM (fun n v => return n + (← varSize v)) 0)

/-- Sifts every block of the row once, those with the most nodes first. -/
def sift (row : Array Block) : Reordering (Array Block) := do
  let weights ← row.toList.mapM weigh
  let keys := (weights.mergeSort fun a b => b.2 ≤ a.2).map Prod.fst
  keys.foldlM siftBlock row

/-! ### Methods -/

/-- Repeats a pass over the row until it leaves the size as it was, up to a number of times. -/
def repeatWhile (pass : Array Block → Reordering (Array Block)) :
    Nat → Array Block → Reordering (Array Block)
  | 0, _ => fault
  | n + 1, row => do
    let before ← size
    let row ← pass row
    if (← size) = before then return row else repeatWhile pass n row

/-- Repeats a pass over the row until it leaves the size as it was. The size could keep changing for
ever, so the passes are limited by a number that no run comes near. -/
def untilSteady (pass : Array Block → Reordering (Array Block)) (row : Array Block) :
    Reordering (Array Block) :=
  repeatWhile pass UInt64.size row

/-- A method on a row of blocks. -/
def permute : ReorderMethod → Array Block → Reordering (Array Block)
  | .off, row => return row
  | .win2, row => win2 row
  | .win2ite, row => untilSteady win2 row
  | .win3, row => win3 row
  | .win3ite, row => untilSteady win3 row
  | .sift, row => sift row
  | .siftite, row => untilSteady sift row

/-- Reorders the blocks within a block, unless it is fixed, and then the blocks within each of them.
The second argument bounds how deep blocks are nested. -/
def reorderBlock (method : ReorderMethod) : Nat → Block → Reordering Block
  | 0, _ => fault
  | n + 1, b => do
    let row ← if !b.fixed && 1 < b.children.length then
        pure (← permute method b.children.toArray).toList
      else pure b.children
    let children ← row.mapM (reorderBlock method n)
    return { b with children }.refresh

/-- Reorders all variables. -/
def reorderAll (method : ReorderMethod) : Reordering Unit := do
  let m := (← get).manager
  if method != .off && 1 < m.varNum then
    let root := Block.layout m.forest m.order
    let _ ← reorderBlock method root.height root

end DecisionDiagram.Reordering
