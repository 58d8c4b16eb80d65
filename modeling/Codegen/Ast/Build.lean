import Codegen.Ast.Arena

/-!
# Building Trees by Hand

One operation per kind of node that is commonly built without a document. Each
adds a node to an arena, with the type that its kind implies, and gives its index.
-/

namespace Codegen.Arena

/-- An integer literal. -/
def integer (value : Int64) : Build NodeId :=
  new { kind := .integer, integer := value, type := .integer }

/-- A decimal literal. -/
def decimal (value : Decimal) : Build NodeId :=
  new { kind := .decimal, decimal := value, type := .decimal }

/-- A truth value. -/
def boolean (value : Bool) : Build NodeId :=
  new { kind := .boolean, boolean := value, type := .boolean }

/-- A string literal, as it is written. -/
def string (raw : Bytes) : Build NodeId := new { kind := .string, text := raw, type := .text }

/-- A name. -/
def ident (name : Bytes) : Build NodeId := new { kind := .ident, name }

/-- An operator between two operands. -/
def binary (op : Bytes) (left right : NodeId) : Build NodeId :=
  new { kind := .binary, op, children := [left, right] }

/-- An operator before one operand. -/
def unary (op : Bytes) (operand : NodeId) : Build NodeId :=
  new { kind := .unary, op, children := [operand] }

/-- A call of a name; the callee comes first in the arena. -/
def call (callee : Bytes) (args : List NodeId) : Build NodeId := do
  let name ← ident callee
  new { kind := .call, children := name :: args }

/-- A variable, with its first value if it has one. -/
def var (name : Bytes) (type : Ty) (init : List NodeId) : Build NodeId :=
  new { kind := .varDecl, name, type, children := init }

/-- A function. -/
def func (name : Bytes) (params : List Param) (result : Ty) (body : NodeId) : Build NodeId :=
  new { kind := .funcDecl, name, params, result, children := [body] }

/-- A block of statements. -/
def block (stmts : List NodeId) : Build NodeId := new { kind := .block, children := stmts }

/-- A program. -/
def program (stmts : List NodeId) : Build NodeId := new { kind := .program, children := stmts }

/-- A `return`, with its value if it has one. -/
def ret (value : List NodeId) : Build NodeId := new { kind := .ret, children := value }

/-- An assignment. -/
def assign (target value : NodeId) : Build NodeId :=
  new { kind := .assign, children := [target, value] }

end Codegen.Arena
