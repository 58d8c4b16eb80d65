/-!
# Ranges of Code Points

A property of characters is a table of closed ranges in ascending order.
Looking a code point up stops at the first range that begins above it, so the
common characters, which sit at the front of every table, are decided after a
few comparisons.
-/

namespace Codegen

/-- The code points from `lo` to `hi`, both included. -/
structure CodeRange where
  lo : Nat
  hi : Nat
  deriving DecidableEq, Repr

namespace CodeRange

/-- The ranges of a table. Listed are, in turn from a code point on, how many code points are
    not in the table and how many are. -/
def ofRuns (first : Nat) : List Nat → List CodeRange
  | gap :: count :: rest => ⟨first + gap, first + gap + count - 1⟩ :: ofRuns (first + gap + count) rest
  | _ => []

/-- Whether a code point lies in one of the ranges of an ascending table. -/
def covers (code : Nat) : List CodeRange → Bool
  | [] => false
  | r :: rest => if code < r.lo then false else if code ≤ r.hi then true else covers code rest

end CodeRange

end Codegen
