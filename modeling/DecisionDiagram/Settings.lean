/-
Settings, errors and statistics of a manager.

A setter answers the previous value. Values out of range are refused.
-/
import DecisionDiagram.Collect

namespace DecisionDiagram

/-- The account of a manager. -/
structure Stats where
  capacity : Nat
  free : Nat
  produced : Nat
  collections : Nat
  growths : Nat
  reorders : Nat
  varNum : Nat
  cache : CacheStats
deriving Repr

namespace Manager

def stats (m : Manager) : Stats :=
  { capacity := m.store.capacity
    free := m.store.freeCount
    produced := m.counters.produced
    collections := m.counters.collections
    growths := m.counters.growths
    reorders := m.counters.reorders
    varNum := m.varNum
    cache := m.computed.stats }

/-- Drops the error that stands. -/
def clearError : Action Unit := modify fun m => { m with error := none }

/-- Sets the cap on the number of slots, which must leave room to grow. -/
def setMaxNodes (limit : Nat) : Action Nat := do
  if limit != 0 && limit ≤ (← get).store.capacity then
    Action.fail (.invalidConfig .limitNotAboveCapacity)
  else
    Action.previous (·.config.maxNodes) fun m =>
      { m with config := { m.config with maxNodes := limit } }

def setMaxIncrease (increase : Nat) : Action Nat :=
  Action.previous (·.config.maxIncrease) fun m =>
    { m with config := { m.config with maxIncrease := increase } }

def setIncreaseFactor (factor : Float) : Action Float := do
  match Config.checkFactor factor with
  | .error e => Action.fail e
  | .ok _ =>
    Action.previous (·.config.increaseFactor) fun m =>
      { m with config := { m.config with increaseFactor := factor } }

def setMinFreePercent (percent : Nat) : Action Nat := do
  match Config.checkPercent percent with
  | .error e => Action.fail e
  | .ok _ =>
    Action.previous (·.config.minFreePercent) fun m =>
      { m with config := { m.config with minFreePercent := percent } }

def setCacheRatio (ratio : Nat) : Action Nat :=
  Action.previous (·.config.cacheRatio) fun m =>
    { m with config := { m.config with cacheRatio := ratio } }

def setCachePolicy (policy : CachePolicy) : Action CachePolicy :=
  Action.previous (·.config.cachePolicy) fun m =>
    { m with config := { m.config with cachePolicy := policy } }

/-- Replaces all computed tables by empty ones of `2 ^ bits` entries. -/
def setCacheBits (bits : Nat) : Action Nat :=
  if Config.maxCacheBits < bits then Action.fail (.invalidConfig .cacheBits)
  else
    Action.previous (·.computed.bits) fun m =>
      { m with computed := m.computed.resize bits, config := { m.config with cacheBits := bits } }

end Manager

end DecisionDiagram
