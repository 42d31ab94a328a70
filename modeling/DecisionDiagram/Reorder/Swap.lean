/-
The exchange of two adjacent levels.

Only the nodes of the upper variable that have a child of the lower one are rebuilt, and each keeps
its id: the node that branches on the upper variable `x` and below on the lower variable `y`
becomes one that branches on `y` first. Nodes of `y` that lost their last reference are reclaimed.

* **`vardown`**, **`varup`** — a variable changes places with the one below or above;
* **`lowerTo`**, **`raiseTo`** — it does so until it has come to a level;
* **`reserve`** — room for the new nodes is made before any node is touched, so that an exchange
  either takes place or leaves the diagrams as they were.
-/
import DecisionDiagram.Reorder.Session

namespace DecisionDiagram.Reordering

/-- The end of a reordering on a broken invariant. -/
def fault {α : Type} : Reordering α := throw Failure.fault

/-- A value that has to be there. -/
def expect {α : Type} (f : Session → Option α) : Reordering α := fun s =>
  match f s with
  | some a => .ok a s
  | none => .error .fault s

/-- Number of live nodes, terminals included. -/
def size : Reordering Nat := return (← get).size

/-- The record of a node, with its variable. -/
def node (id : NodeId) : Reordering Node := expect (·.manager.store.node? id)

/-- The level of a variable. -/
def levelOf (v : Var) : Reordering Level := expect (·.manager.order.levelOf[v]?)

/-- The variable at a level. -/
def varAt (level : Level) : Reordering Var := expect (·.manager.order.varAt[level]?)

/-- Number of live nodes of a variable. -/
def varSize (v : Var) : Reordering Nat := expect (·.table.count? v)

/-- One more reference to a node. -/
def addRef (id : NodeId) : Reordering Unit :=
  modify fun s => { s with refs := Session.addRef s.refs id }

/-- One reference to a node less. -/
def dropRef (id : NodeId) : Reordering Unit :=
  modify fun s => { s with refs := Session.dropRef s.refs id }

/-- Indexes a node that is not in the table. -/
def index (id : NodeId) : Reordering Unit := do
  let n ← node id
  if (← get).table.isCrowded n.level then
    let table ← expect fun s => s.table.relayout? s.manager.store.nodes n.level
    modify fun s => { s with table }
  let (var, slot) ← expect fun s => s.table.vacancy? s.manager.store.nodes id
  modify fun s => { s with table := s.table.insertAt slot var id }

/-- Takes all nodes of a variable out of the table. -/
def takeAll (v : Var) : Reordering (List NodeId) := do
  let region ← expect (·.table.regions[v]?)
  let ids := (← get).table.members region
  modify fun s => { s with table := s.table.clear v region }
  return ids

/-- Grows the store by one step. -/
def grow : Reordering Unit := do
  match (← get).manager.nextCapacity? with
  | none => throw (.error .nodeLimit)
  | some capacity =>
    modify fun s =>
      { s with
        manager := { s.manager with
          store := s.manager.store.grow capacity
          counters := { s.manager.counters with growths := s.manager.counters.growths + 1 } }
        refs := s.refs ++ Array.replicate (capacity - s.refs.size) 0 }

/-- Grows the store until `needed` slots are free. Each step adds at least one slot, so the number
of steps is bounded by the first argument if that is `needed`. -/
def reserveWithin : Nat → Nat → Reordering Unit
  | 0, _ => return
  | n + 1, needed => do
    if (← get).manager.store.freeCount < needed then
      grow
      reserveWithin n needed

/-- Makes sure that `needed` slots are free. -/
def reserve (needed : Nat) : Reordering Unit := reserveWithin needed needed

/-- Puts a new node into the free slot `id`, with one reference to it. -/
def create (id : NodeId) (n : Node) : Reordering Unit := do
  modify fun s =>
    { s with
      manager := { s.manager with
        store := s.manager.store.put id n
        counters := { s.manager.counters with produced := s.manager.counters.produced + 1 } }
      refs := Session.setRef s.refs id 1 }
  index id
  addRef n.low
  addRef n.high

/-- The node of a variable with the given children, with one more reference to it. -/
def make (v : Var) (low high : NodeId) : Reordering NodeId := do
  if low = high then
    addRef low
    return low
  match ← expect fun s => s.table.find s.manager.store.nodes ⟨v, low, high⟩ with
  | .found id =>
    addRef id
    return id
  | .vacant _ =>
    match (← get).manager.store.slots.next? with
    | none => throw (.error .nodeLimit)
    | some id =>
      create id ⟨v, low, high⟩
      return id

/-- Rebuilds a node of `upper` that has a child of `lower`, so that it decides `lower` first. The
grandchildren have their new references before the old children lose theirs. -/
def rebuild (upper lower : Var) (id : NodeId) : Reordering Unit := do
  let n ← node id
  let (f00, f01) := (← node n.low).cofactors n.low lower
  let (f10, f11) := (← node n.high).cofactors n.high lower
  let low ← make upper f00 f10
  let high ← make upper f01 f11
  dropRef n.low
  dropRef n.high
  modify fun s =>
    { s with manager := { s.manager with store := s.manager.store.setNode id ⟨lower, low, high⟩ } }
  index id

/-- Keeps a node that has references, and reclaims any other. -/
def reclaim (id : NodeId) : Reordering Unit := do
  if 0 < (← get).refs.getD id 0 then index id
  else
    let n ← node id
    dropRef n.low
    dropRef n.high
    modify fun s => { s with manager := { s.manager with store := s.manager.store.free id } }

/-- Whether a node has a child of the variable `lower`. -/
def dependsOn? (store : Store) (lower : Var) (id : NodeId) : Option Bool := do
  let n ← store.node? id
  let low ← store.node? n.low
  let high ← store.node? n.high
  return low.level == lower || high.level == lower

/-- Divides nodes into those that have a child of `lower` and the others. -/
def divide? (store : Store) (lower : Var) (ids : List NodeId) :
    Option (List NodeId × List NodeId) := do
  let flags ← ids.mapM fun id => (dependsOn? store lower id).map fun b => (id, b)
  let (dependent, others) := flags.partition Prod.snd
  return (dependent.map Prod.fst, others.map Prod.fst)

/-- Rebuilds the nodes of `upper` for an exchange with `lower`, which stands right below. A node
that is rebuilt makes at most two new ones. -/
def swapNodes (upper lower : Var) : Reordering Unit := do
  reserve (2 * (← varSize upper))
  let held ← takeAll upper
  let (dependent, others) ← expect fun s => divide? s.manager.store lower held
  others.forM index
  dependent.forM (rebuild upper lower)
  (← takeAll lower).forM reclaim

/-- Whether two variables may occur in one diagram. -/
def interacts (s : Session) (v w : Var) : Bool :=
  (s.interactions.getD v BitSet.empty).contains w

/-- Moves a variable one level down; at the bottom it stays. -/
def vardown (v : Var) : Reordering Unit := do
  let level ← levelOf v
  if level + 1 < (← get).manager.varNum then
    let below ← varAt (level + 1)
    if interacts (← get) v below then swapNodes v below
    modify fun s =>
      { s with
        manager := { s.manager with
          order := s.manager.order.exchange level v below
          pairings := s.manager.pairings.swapDown level }
        swaps := s.swaps + 1 }

/-- Moves a variable one level up; at the top it stays. -/
def varup (v : Var) : Reordering Unit := do
  match ← levelOf v with
  | 0 => return
  | level + 1 => vardown (← varAt level)

/-- Moves a variable a number of levels down. -/
def moveDown (v : Var) : Nat → Reordering Unit
  | 0 => return
  | n + 1 => do
    vardown v
    moveDown v n

/-- Moves a variable down as long as it stands above a level. The last argument bounds the number of
times that its level is read. -/
def lowerTo (v : Var) (bottom : Level) : Nat → Reordering Unit
  | 0 => fault
  | n + 1 => do
    if (← levelOf v) < bottom then
      vardown v
      lowerTo v bottom n

/-- Moves a variable up as long as it stands below a level. -/
def raiseTo (v : Var) (top : Level) : Nat → Reordering Unit
  | 0 => fault
  | n + 1 => do
    if top < (← levelOf v) then
      varup v
      raiseTo v top n

end DecisionDiagram.Reordering
