/-
Values of a diagram: evaluation and the satisfying paths.

* **`Manager.eval`** — the value under an assignment to all variables;
* **`Manager.nextPath`** — one step of the search for paths to the terminal for true, low branches
  first, which keeps one path and cuts it back when it turns to another branch;
* **`Manager.allSat`** — these paths. The variables that a path does not decide are free, so each path
  stands for a set of satisfying assignments, and two paths differ in a variable that both decide.
-/
import DecisionDiagram.Manager

namespace DecisionDiagram.Manager

/-- Follows an assignment down from a node. -/
def evalFrom (m : Manager) (assignment : Array Bool) : Nat → NodeId → Except Failure Bool
  | 0, _ => .error .fault
  | n + 1, id =>
    if id.isTerminal then .ok id.isTop
    else do
      let node ← m.node id
      let v ← m.varAt node.level
      match assignment[v]? with
      | none => .error .fault
      | some value => m.evalFrom assignment n (if value then node.high else node.low)

/-- The value of `f` when every variable `v` has the value `assignment[v]`. -/
def eval (m : Manager) (f : NodeId) (assignment : Array Bool) : Except Failure Bool := do
  m.checkNode f
  if assignment.size < m.varNum then throw (.error (.unknownVariable assignment.size))
  m.evalFrom assignment m.depth f

/-- A partial assignment, indexed by variable. -/
abbrev PartialAssignment := Array (Option Bool)

/-- The assignment of the literals on a path; the later ones prevail. -/
def assigning (varNum : Nat) (path : List (Var × Bool)) : PartialAssignment :=
  path.foldl (fun cube literal => cube.setIfInBounds literal.1 (some literal.2))
    (Array.replicate varNum none)

/-- A node that a search for paths has still to visit, with the length of the path to its parent and
the literal that leads on from there. -/
structure Visit where
  node : NodeId
  depth : Nat
  literal : Option (Var × Bool)
deriving DecidableEq, Repr

/-- A depth-first search for the paths to the terminal for true: what is still to be visited, and the
literals on the path to the node that was visited last. -/
structure PathSearch where
  stack : List Visit
  path : List (Var × Bool)
deriving DecidableEq, Repr

/-- The search that visits `f` first. -/
def PathSearch.start (f : NodeId) : PathSearch := ⟨[⟨f, 0, none⟩], []⟩

/-- Goes on with a search until a path is complete or nothing is left to be visited. The first argument
bounds the number of visits. -/
def searchOn (m : Manager) :
    Nat → PathSearch → Except Failure (Option PartialAssignment × PathSearch)
  | 0, _ => .error .fault
  | n + 1, search =>
    match search.stack with
    | [] => .ok (none, search)
    | visit :: stack => do
      let path := search.path.take visit.depth ++ visit.literal.toList
      if visit.node.isBot then m.searchOn n ⟨stack, path⟩
      else if visit.node.isTop then return (some (assigning m.varNum path), ⟨stack, path⟩)
      else
        let nd ← m.node visit.node
        let v ← m.varAt nd.level
        let depth := path.length
        m.searchOn n
          ⟨⟨nd.low, depth, some (v, false)⟩ :: ⟨nd.high, depth, some (v, true)⟩ :: stack, path⟩

/-- The next path of a search, if there is one. Not more nodes are visited than wait on the stack, and
two on each level. -/
def nextPath (m : Manager) (search : PathSearch) :
    Except Failure (Option PartialAssignment × PathSearch) :=
  m.searchOn (search.stack.length + 2 * m.depth) search

/-- The next paths of a search, as many as are asked for if there are so many. -/
def nextPaths (m : Manager) : Nat → PathSearch → Except Failure (List PartialAssignment)
  | 0, _ => .ok []
  | n + 1, search => do
    match ← m.nextPath search with
    | (none, _) => return []
    | (some path, search) => return path :: (← m.nextPaths n search)

/-- The first `limit` satisfying paths of `f`. -/
def allSat (m : Manager) (f : NodeId) (limit : Nat) : Except Failure (List PartialAssignment) := do
  m.checkNode f
  m.nextPaths limit (.start f)

end DecisionDiagram.Manager
