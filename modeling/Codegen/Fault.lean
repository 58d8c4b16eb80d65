import Codegen.Text.Bytes

/-!
# Faults

What stops the backend short of an answer: a tree that refers to a part it does
not have, or an operation of the generation context that its state forbids. Both
are impossible for a tree that was read from a document; they can be reached by
building arenas and driving contexts by hand.
-/

namespace Codegen

/-- Why the backend cannot go on. -/
inductive Fault where
  /-- A node or a part of a node that does not exist. -/
  | missingNode
  /-- A question about the current function when there is none. -/
  | noFunction
  | leavingGlobalScope
  | localOutsideFunction
  | unreservedSlot (name : Bytes) (slot : Int)
  | frameOverflow (name : Bytes) (used words : Nat)
  deriving DecidableEq, Repr

namespace Fault

/-- The rule that a fault breaks; none when a part or a function is missing. -/
def rule? : Fault → Option Bytes
  | .missingNode | .noFunction => none
  | .leavingGlobalScope => some "cannot leave the global scope"
  | .localOutsideFunction => some "local declared outside of a function"
  | .unreservedSlot name slot =>
    some ("binding " ++ name ++ " to unreserved slot " ++ Bytes.ofInt slot)
  | .frameOverflow name used words =>
    some (name ++ " used " ++ Bytes.ofNat used ++ " slots, frame has " ++ Bytes.ofNat words)

/-- The text of a cause that breaks a rule of the context. -/
def assertion? (fault : Fault) : Option Bytes :=
  fault.rule?.map fun rule => "An assertion has failed: " ++ rule

end Fault

end Codegen
