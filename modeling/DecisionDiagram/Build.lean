/-
What an operator does to the manager in one step: reading, keeping intermediate results, asking the
computed tables and making nodes.

* **`Build.mk`** — finds or creates the node with a given record. A full store is collected, and
  grown if the collection freed too little; a collection is also the moment at which an automatic
  reordering can interrupt the operator.
-/
import DecisionDiagram.Descendants

namespace DecisionDiagram.Build

variable {α : Type}

/-- The end of an operator on a broken invariant. -/
def fault : Build α := throw Interrupt.fault

/-- The end of an operator with an error. -/
def fail (e : Error) : Build α := throw (Interrupt.error e)

/-- A reading of the manager. -/
def read (f : Manager → Except Failure α) : Build α := fun m =>
  match f m with
  | .ok a => .ok a m
  | .error e => .error (.failure e) m

/-- Keeps a node as long as it is pending. -/
def push (id : NodeId) : Build Unit := modify fun m => { m with pending := id :: m.pending }

/-- The latest pending node is pending no more. -/
def pop : Build Unit := do
  match (← get).pending with
  | [] => fault
  | _ :: rest => modify fun m => { m with pending := rest }

/-- `id` becomes the only pending node. -/
def keepOnly (id : NodeId) : Build Unit := modify fun m => { m with pending := [id] }

/-- Asks the computed tables, and counts the look-up. -/
def lookup (q : Query) : Build (Option NodeId) := fun m =>
  .ok (m.computed.find? q) { m with computed := m.computed.record q }

/-- Enters a result into the computed tables. -/
def remember (q : Query) (res : NodeId) : Build Unit :=
  modify fun m => { m with computed := m.computed.insert q res }

/-- Asks the computed tables for a count, and counts the look-up. -/
def lookupCount (q : CountQuery) : Build (Option Float) := fun m =>
  .ok (m.computed.findCount? q) { m with computed := m.computed.recordCount q }

/-- Enters a count into the computed tables. -/
def rememberCount (q : CountQuery) (count : Float) : Build Unit :=
  modify fun m => { m with computed := m.computed.insertCount q count }

/-- Puts a new node into the free slot `id`, and into the vacancy `slot` of the unique table. -/
def create (id : NodeId) (n : Node) (slot : Nat) : Build NodeId := fun m =>
  .ok id { m with
    store := m.store.put id n
    table := m.table.insertAt slot id
    counters := { m.counters with produced := m.counters.produced + 1 } }

/-- Puts a new node into the lowest free slot, if there is one. Without a free slot the operator
fails, and will fail until the error is cleared. -/
def createAnew (n : Node) : Build NodeId := fun m =>
  match m.store.slots.next? with
  | none => .error (.error .nodeLimit) { m with error := some .nodeLimit }
  | some id =>
    match m.table.find m.store.nodes n with
    | some (.vacant slot) => create id n slot m
    | _ => .error .fault m

/-- Whether so few slots are free that the store has to grow. -/
def isTight (m : Manager) : Bool :=
  m.store.freeCount * 100 / m.store.capacity ≤ m.config.minFreePercent

/-- Creates a node when the store is full: after a collection, and a growth step if need be. A
reordering that is due has precedence. -/
def createInFull (n : Node) : Build NodeId := fun m =>
  match m.collect with
  | none => .error .fault m
  | some (_, m) =>
    if m.auto.threshold ≤ m.store.usedCount && m.reorderReady then .error .reorder m
    else if isTight m then
      match m.grow with
      | none => .error .fault m
      | some m => createAnew n m
    else createAnew n m

/-- The node with the given record. Equal children make the node superfluous. A node that exists is
found even while an error stands, but none is created then. -/
def mk (level : Level) (low high : NodeId) : Build NodeId := fun m =>
  if low = high then .ok low m
  else
    match m.table.find m.store.nodes ⟨level, low, high⟩ with
    | none => .error .fault m
    | some (.found id) => .ok id m
    | some (.vacant slot) =>
      match m.error with
      | some e => .error (.error e) m
      | none =>
        match m.store.slots.next? with
        | some id => create id ⟨level, low, high⟩ slot m
        | none => createInFull ⟨level, low, high⟩ m

end DecisionDiagram.Build
