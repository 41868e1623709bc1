/-!
# Limits of a run

What a run may use: a number of steps, a time, and depths of open scopes and of expressions under
evaluation. Steps and time may be unlimited.

Time does not pass during a run: a deadline is over at once if it lies no time ahead, and never
otherwise.

## Main definitions

* `Limits`, with its default values.
* `Limits.expired?`: the deadline that is over from the start.
-/

namespace Covenant

/-- The limits of a run. -/
structure Limits where
  /-- The most steps, if they are limited. -/
  maxSteps : Option UInt64 := some 1000000
  /-- The time to the deadline in milliseconds, if there is one. -/
  maxDuration : Option UInt64 := some 5000
  /-- The most frames that may be open, counting the global one. -/
  maxScopeDepth : UInt64 := 256
  /-- The most expressions that may be under evaluation, each inside the one before. -/
  maxExpressionDepth : UInt64 := 256
deriving Repr, DecidableEq

/-- The deadline, if it is already over. -/
def Limits.expired? (limits : Limits) : Option UInt64 :=
  limits.maxDuration.filter (· = 0)

end Covenant
