/-!
# Intervals

Closed intervals of natural numbers. An interval may be inverted; it then contains just the
intervals that its two bounds admit.
-/
namespace TermScan

/-- The interval from `lower` to `upper`, both included. Ordered by lower, then upper bound. -/
structure Interval where
  lower : Nat
  upper : Nat
  deriving DecidableEq, Repr, Ord

namespace Interval

/-- Both bounds of `inner` lie within those of `outer`. -/
def contains (outer inner : Interval) : Bool :=
  outer.lower ≤ inner.lower && inner.upper ≤ outer.upper

end Interval

end TermScan
