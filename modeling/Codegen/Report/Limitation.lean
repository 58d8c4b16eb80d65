import Codegen.Ast.Kind
import Codegen.Ast.Ty
import Codegen.Text.Quoted

/-!
# Limitations

A construct that a backend cannot lower does not stop it. An inert placeholder
takes its place, and a limitation records the target, the kind of the node and
what was the matter.
-/

namespace Codegen

/-- What a backend cannot lower. -/
inductive Unsupported where
  | parameterOverflow (param function : Bytes)
  | outsideLoop (word : Bytes)
  | nestedFunction (name : Bytes)
  | nestedProgram
  | unknownStatement
  | unresolvedTarget (name : Bytes)
  | assignmentTo (kind : Kind)
  | unresolvedName (name : Bytes)
  | notAnExpression
  | operatorOn (op : Bytes) (left right : Ty)
  | operator (op : Bytes)
  | decimalOperator (op : Bytes)
  | unaryOperator (op : Bytes) (operand : Ty)
  | lengthArgument
  | unresolvedFunction (name : Bytes)
  | argumentOverflow (name : Bytes)
  | argumentCount (name : Bytes) (found wanted : Nat)
  | representation (found : Rep) (wanted : Ty)
  | printOf (type : Ty)
  | decimalPrint
  | arrayElement (type : Ty)
  deriving DecidableEq, Repr

namespace Unsupported

def message : Unsupported → Bytes
  | .parameterOverflow param function =>
    "parameter " ++ param ++ " of " ++ function ++ " does not fit in x0..x7"
  | .outsideLoop word => word ++ " outside of a loop"
  | .nestedFunction name => "nested function " ++ name
  | .nestedProgram => "program nested inside a statement"
  | .unknownStatement => "unknown statement"
  | .unresolvedTarget name => "assignment to unresolved name " ++ name
  | .assignmentTo kind => "assignment to " ++ kind.name
  | .unresolvedName name => "unresolved name " ++ name
  | .notAnExpression => "not an expression"
  | .operatorOn op left right => "operator " ++ op ++ " on " ++ left.name ++ " and " ++ right.name
  | .operator op => "operator " ++ op
  | .decimalOperator op => "operator " ++ op ++ " on decimals"
  | .unaryOperator op operand => "unary operator " ++ op ++ " on " ++ operand.name
  | .lengthArgument => "length needs one text or array argument"
  | .unresolvedFunction name => "call to unresolved function " ++ quote name
  | .argumentOverflow name => "call to " ++ name ++ " passes more than eight argument words"
  | .argumentCount name found wanted =>
    "call to " ++ name ++ " with " ++ Bytes.ofNat found ++ " arguments, want " ++ Bytes.ofNat wanted
  | .representation found wanted =>
    found.name ++ " value where " ++ wanted.name ++ " is expected"
  | .printOf type => "print of " ++ type.name ++ " value"
  | .decimalPrint => "decimal printed as its integer part"
  | .arrayElement type => "array element of type " ++ type.name

end Unsupported

/-- A construct that was replaced by a placeholder. -/
structure Limitation where
  target : Bytes
  /-- The name of the node's kind; empty when there is no such node. -/
  kind : Bytes
  message : Bytes
  deriving DecidableEq, Repr

def Limitation.text (l : Limitation) : Bytes :=
  l.target ++ ": unsupported " ++ l.kind ++ ": " ++ l.message

end Codegen
