import Codegen.Ast.Kind
import Codegen.Ast.Ty
import Codegen.Number.Decimal

/-!
# Syntax Trees

A node has a payload, everything about it except its children, and children. A
tree is a payload over trees. Trees that are seen through an arena may have holes
where a child refers to nothing; `missing` stands for one.

Two trees are equivalent when they agree at every position. Decimals are
compared as numbers, so a tree that holds a NaN is not even equivalent to itself.
-/

namespace Codegen

/-- A parameter of a function or a field of a class. -/
structure Param where
  name : Bytes
  type : Ty
  deriving DecidableEq, Repr

/-- Everything about a node except its children. Which fields mean anything
    depends on the kind; the others keep their defaults. -/
structure Payload where
  kind : Kind
  /-- The name of an identifier, a declaration or a loop variable. -/
  name : Bytes := []
  /-- A string literal as written, escape sequences included. -/
  text : Bytes := []
  integer : Int64 := 0
  decimal : Decimal := ⟨0⟩
  boolean : Bool := false
  /-- The operator of a binary or unary expression. -/
  op : Bytes := []
  /-- The type that was resolved for an expression or declared for a variable. -/
  type : Ty := .unknown
  params : List Param := []
  result : Ty := .unknown
  fields : List Param := []
  deriving DecidableEq, Repr, Inhabited

namespace Payload

/-- Equality of payloads, with decimals compared as numbers. -/
def agrees (a b : Payload) : Bool :=
  a.decimal.same b.decimal && { a with decimal := b.decimal } = b

end Payload

/-- A syntax tree. -/
inductive Tree where
  | node (payload : Payload) (children : List Tree)
  | missing
  deriving Repr, Inhabited

namespace Tree

def payload? : Tree → Option Payload
  | .node p _ => some p
  | .missing => none

mutual

/-- Whether two trees agree everywhere; none when the comparison meets a hole. -/
def equivalent : Tree → Tree → Option Bool
  | .node p ts, .node q us =>
    if p.agrees q && ts.length = us.length then equivalentAll ts us else some false
  | _, _ => none

def equivalentAll : List Tree → List Tree → Option Bool
  | t :: ts, u :: us =>
    match equivalent t u with
    | some true => equivalentAll ts us
    | answer => answer
  | _, _ => some true

end

end Tree

end Codegen
