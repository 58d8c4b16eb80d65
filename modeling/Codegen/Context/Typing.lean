import Codegen.Ast.Operator
import Codegen.Ast.Term
import Codegen.Context.Basic

/-!
# Static Types

The type of an expression is the one that was resolved for it, if there is one,
and otherwise follows from its parts and from what its names stand for. Arithmetic
with a decimal is decimal; no operator works on fat values, so such an expression
has no type. Anything that is no expression has no value.
-/

namespace Codegen

namespace Context

def arithmeticType (left right : Ty) : Ty :=
  if left.rep = .fat || right.rep = .fat then .unknown
  else if left = .decimal || right = .decimal then .decimal
  else if left = .unknown then right
  else left

def callType (ctx : Context) (callee : Bytes) : Ty :=
  if callee = "length" then .integer
  else if callee = "print" then .void
  else ((ctx.funcNamed? callee).map Symbol.result).getD .unknown

/-- The type that was resolved for a node, if it counts. The type of a
    declaration is not that of an expression. -/
def resolvedType? (p : Payload) : Option Ty :=
  if p.type != .unknown && p.kind != .varDecl && p.kind != .funcDecl then some p.type else none

/-- The type of a term. -/
def typeOf (ctx : Context) : Term → Except Fault Ty
  | .missing => .error .missingNode
  | .call p callee _ =>
    match resolvedType? p, callee with
    | some type, _ => .ok type
    | none, some name => .ok (ctx.callType name)
    | none, none => .error .missingNode
  | .node p parts =>
    match resolvedType? p with
    | some type => .ok type
    | none =>
      match p.kind with
      | .integer => .ok .integer
      | .decimal => .ok .decimal
      | .boolean => .ok .boolean
      | .string => .ok .text
      | .array => .ok .array
      | .index => .ok .integer
      | .ident => .ok (((ctx.varNamed? p.name).map Symbol.type).getD .unknown)
      | .binary =>
        if isComparison p.op || isLogical p.op then .ok .boolean
        else
          match parts with
          | left :: right :: _ =>
            match typeOf ctx left, typeOf ctx right with
            | .ok l, .ok r => .ok (arithmeticType l r)
            | .error e, _ => .error e
            | _, .error e => .error e
          | _ => .error .missingNode
      | .unary =>
        if p.op = "not" then .ok .boolean
        else
          match parts with
          | operand :: _ => typeOf ctx operand
          | [] => .error .missingNode
      | _ => .ok .void

end Context

/-- The type of a term, as an operation on the context. -/
def Gen.typeOf (t : Term) : Gen Ty := do
  match (← get).typeOf t with
  | .ok type => return type
  | .error fault => throw fault

end Codegen
