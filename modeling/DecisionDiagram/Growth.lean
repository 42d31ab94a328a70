/-
How far the node store grows in one step.

The computation is on 64-bit words and wraps. A step adds a fraction of the current size, or
doubles it; it is held below the caps on the increase and on the total, and below the number of
node ids. There is no step that does not enlarge the store.
-/

namespace DecisionDiagram

/-- The largest number of slots that node ids can name. -/
def maxCapacity : UInt64 := 4294967294

/-- The capacity after one growth step, if there is one. A cap of zero is no cap. -/
def nextCapacity (current : UInt64) (factor : Float) (maxIncrease maxNodes : UInt64) :
    Option UInt64 :=
  let wanted :=
    if factor > 0.0 then current + (current.toFloat * factor).toUInt64 else current * 2
  let stepped := if maxIncrease > 0 then min wanted (current + maxIncrease) else wanted
  let capped := if maxNodes > 0 then min stepped maxNodes else stepped
  let next := min capped maxCapacity
  if next > current then some next else none

end DecisionDiagram
