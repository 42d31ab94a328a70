/-
Blocks laid out along the current order.

For a reordering, the configured blocks are matched with the levels that their variables occupy.
Variables between the blocks become blocks of their own, so that without any configuration every
variable moves alone.

* **`Block.layout`** — one block that spans all variables, with the others nested in it.
-/
import DecisionDiagram.VarBlock
import DecisionDiagram.VarOrder

namespace DecisionDiagram

/-- A group of variables that stand at consecutive levels. -/
structure Block where
  /-- The variables from the top level down. -/
  vars : List Var
  /-- Whether the blocks within keep their order. -/
  fixed : Bool
  /-- The blocks within, from the top level down. -/
  children : List Block
deriving Inhabited, Repr

namespace Block

/-- A variable on its own. -/
def single (v : Var) : Block := ⟨[v], false, []⟩

/-- Reads the variables off the children again, after these were permuted. -/
def refresh (b : Block) : Block :=
  if b.children.isEmpty then b else { b with vars := b.children.flatMap (·.vars) }

mutual

/-- How deep blocks are nested in a block, itself included. -/
def height : Block → Nat
  | ⟨_, _, children⟩ => heights children + 1

/-- How deep blocks are nested in a list. -/
def heights : List Block → Nat
  | [] => 0
  | b :: rest => max b.height (heights rest)

end

/-- A block together with the levels that it spans. -/
structure Span where
  top : Level
  bottom : Level
  block : Block
deriving Inhabited

/-- Fills a stretch of levels. The spans are taken in their order, each where its top level comes
up; a level that no span begins at holds a single variable. Levels above `resume` are taken
already. -/
def fill (order : VarOrder) : List Level → Level → List Span → List Block
  | [], _, _ => []
  | level :: rest, resume, spans =>
    if level < resume then fill order rest resume spans
    else match spans with
      | [] => single (order.varAt.getD level 0) :: fill order rest resume []
      | span :: others =>
        if span.top = level then span.block :: fill order rest (span.bottom + 1) others
        else single (order.varAt.getD level 0) :: fill order rest resume (span :: others)

/-- The blocks of the levels from `top` to `bottom`, of which `spans` are configured. -/
def arrange (order : VarOrder) (top bottom : Level) (spans : List Span) : List Block :=
  fill order (List.range' top (bottom + 1 - top)) top
    (spans.mergeSort fun s t => s.top ≤ t.top)

mutual

/-- A configured block along the order. -/
def ofVarBlock (order : VarOrder) : VarBlock → Span
  | ⟨first, last, fixed, children⟩ =>
    let (top, bottom) := order.extent first last
    let spans := ofVarBlocks order children
    { top
      bottom
      block :=
        { vars := order.slice top bottom
          fixed
          children := if spans.isEmpty then [] else arrange order top bottom spans } }

/-- Configured siblings along the order. -/
def ofVarBlocks (order : VarOrder) : List VarBlock → List Span
  | [] => []
  | b :: rest => ofVarBlock order b :: ofVarBlocks order rest

end

/-- All variables in one block, which holds the configured ones. -/
def layout (forest : VarForest) (order : VarOrder) : Block :=
  { vars := order.toList
    fixed := false
    children :=
      fill order (List.range order.size) 0
        ((ofVarBlocks order forest).mergeSort fun s t => s.top ≤ t.top) }

end Block

end DecisionDiagram
