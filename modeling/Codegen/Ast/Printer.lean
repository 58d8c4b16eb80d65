import Codegen.Ast.Tree
import Codegen.Number.Integer
import Codegen.Number.Shortest
import Codegen.Sexpr.Token

/-!
# Writing Syntax Trees

The datum of a tree, in the form that `Codegen.Ast.Document` reads. A type is
written as metadata unless it is unknown or the one that the kind implies.
-/

namespace Codegen

/-- The datum of a type. -/
def Ty.toDatum (t : Ty) : Datum :=
  if t = .unknown then .symbol "unknown"
  else if Sexpr.isSymbolText t.name then .symbol t.name
  else .string t.name

/-- The type that a node of a kind has by default. -/
def Kind.implied : Kind → Ty
  | .decimal => .decimal
  | .boolean => .boolean
  | .string => .text
  | .array => .array
  | _ => .unknown

namespace Payload

def paramsDatum (listHead itemHead : Bytes) (ps : List Param) : Datum :=
  .plain (.symbol listHead ::
    ps.map fun p => .plain [.symbol itemHead, .string p.name, p.type.toDatum])

/-- The items of a node's list between its head and its children. -/
def arguments (p : Payload) : List Datum :=
  match p.kind with
  | .integer => [.integer (Integer.print p.integer)]
  | .decimal => [.string p.decimal.print]
  | .boolean => [.symbol (if p.boolean then "true" else "false")]
  | .string => [.string p.text]
  | .ident => [.string p.name]
  | .binary | .unary => [.string p.op]
  | .varDecl => [.string p.name, p.type.toDatum]
  | .funcDecl => [.string p.name, paramsDatum "params" "param" p.params, p.result.toDatum]
  | .classDecl => [.string p.name, paramsDatum "fields" "field" p.fields]
  | .forRange => [.string p.name]
  | _ => []

def writesChildren (p : Payload) : Bool :=
  match p.kind with
  | .integer | .decimal | .boolean | .string | .ident | .classDecl | .brk | .cont => false
  | _ => true

def writesType (p : Payload) : Bool :=
  match p.kind with
  | .varDecl | .funcDecl => false
  | _ => p.type != .unknown && p.type != p.kind.implied

def toDatum (p : Payload) (children : List Datum) : Datum :=
  if p.kind = .integer && (p.type = .integer || p.type = .unknown) then
    .integer (Integer.print p.integer)
  else
    let items := .symbol p.kind.head :: (p.arguments ++ children)
    if p.writesType then .list items ["type"] [p.type.toDatum] else .plain items

end Payload

namespace Tree

mutual

/-- The datum of a tree; none when it has a hole where something is written. -/
def toDatum? : Tree → Option Datum
  | .missing => none
  | .node p ts =>
    if p.writesChildren then (toData? ts).map p.toDatum else some (p.toDatum [])

def toData? : List Tree → Option (List Datum)
  | [] => some []
  | t :: ts =>
    match toDatum? t, toData? ts with
    | some d, some ds => some (d :: ds)
    | _, _ => none

end

/-- The text of a tree without holes. -/
def print? (t : Tree) : Option Bytes := t.toDatum?.map Datum.print

end Tree

end Codegen
