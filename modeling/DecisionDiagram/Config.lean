/-
The configuration of a manager.

`validate` names the first value out of its range, in a fixed order of the checks.
-/
import DecisionDiagram.Error

namespace DecisionDiagram

/-- What happens to the computed tables after a collection. -/
inductive CachePolicy
  /-- Every entry is dropped. -/
  | reset
  /-- The entries that mention a collected node are dropped. -/
  | clean
deriving DecidableEq, Repr

def CachePolicy.name : CachePolicy → String
  | reset => "reset"
  | clean => "clean"

/-- The parameters of a manager. -/
structure Config where
  /-- Initial number of slots, terminals included. -/
  nodeCapacity : Nat := 65536
  /-- Each computed table has `2 ^ cacheBits` entries. -/
  cacheBits : Nat := 14
  /-- Cap on the slots that one growth step adds; zero is no cap. -/
  maxIncrease : Nat := 10000000
  /-- Fraction of the size that a growth step adds; at zero the size doubles. -/
  increaseFactor : Float := 0.0
  /-- The store grows if a collection leaves no more than this percentage of it free. -/
  minFreePercent : Nat := 20
  /-- Cap on the number of slots; zero is no cap. -/
  maxNodes : Nat := 0
  /-- Slots per cache entry to keep up when the store grows; zero leaves the caches alone. -/
  cacheRatio : Nat := 0
  cachePolicy : CachePolicy := .reset

namespace Config

/-- The largest number of bits that index a cache. -/
def maxCacheBits : Nat := 31

/-- A growth factor is a finite number that is not negative. -/
def checkFactor (factor : Float) : Except Error Unit :=
  if factor.isFinite && factor >= 0.0 then .ok () else .error (.invalidConfig .increaseFactor)

/-- A percentage is at most a hundred. -/
def checkPercent (percent : Nat) : Except Error Unit :=
  if percent ≤ 100 then .ok () else .error (.invalidConfig .freePercent)

/-- Checks every value; the first one out of range is reported. -/
def validate (c : Config) : Except Error Unit := do
  if c.nodeCapacity < 4 then throw (.invalidConfig .capacityTooSmall)
  if NodeId.absent ≤ c.nodeCapacity then throw (.invalidConfig .capacityTooLarge)
  if maxCacheBits < c.cacheBits then throw (.invalidConfig .cacheBits)
  if c.maxNodes ≠ 0 ∧ c.maxNodes < c.nodeCapacity then throw (.invalidConfig .limitBelowCapacity)
  checkFactor c.increaseFactor
  checkPercent c.minFreePercent

end Config

end DecisionDiagram
