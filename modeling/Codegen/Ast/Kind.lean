import Codegen.Text.Bytes

/-!
# Kinds of Nodes

What a node of a syntax tree is. Every kind has a name, used in diagnostics, and
a head, the symbol that begins its list in a document. A tree that was built by
hand may have nodes of kinds outside this list; they carry their name and serve
it as head too.
-/

namespace Codegen

/-- What a node is. -/
inductive Kind where
  | integer | decimal | boolean | string | ident
  | binary | unary | call | pipe
  | varDecl | funcDecl | classDecl
  | cond | forRange | whileLoop | block
  | ret | brk | cont
  | assign | array | index | program
  | other (name : Bytes)
  deriving DecidableEq, Repr, Inhabited

namespace Kind

/-- Every kind that a document can have, in the order backends consider them. -/
def all : List Kind :=
  [.integer, .decimal, .boolean, .string, .ident, .binary, .unary, .call, .pipe, .varDecl,
   .funcDecl, .classDecl, .cond, .forRange, .whileLoop, .block, .ret, .brk, .cont, .assign,
   .array, .index, .program]

/-- The head of the list that stands for a node. -/
def head : Kind → Bytes
  | .integer => "integer"
  | .decimal => "decimal"
  | .boolean => "boolean"
  | .string => "string"
  | .ident => "ident"
  | .binary => "binary"
  | .unary => "unary"
  | .call => "call"
  | .pipe => "pipe"
  | .varDecl => "var"
  | .funcDecl => "func"
  | .classDecl => "class"
  | .cond => "if"
  | .forRange => "for"
  | .whileLoop => "while"
  | .block => "block"
  | .ret => "return"
  | .brk => "break"
  | .cont => "continue"
  | .assign => "assign"
  | .array => "array"
  | .index => "index"
  | .program => "program"
  | .other name => name

/-- The name of a kind in messages. -/
def name : Kind → Bytes
  | .integer => "NodeInteger"
  | .decimal => "NodeDecimal"
  | .boolean => "NodeBoolean"
  | .string => "NodeString"
  | .ident => "NodeIdent"
  | .binary => "NodeBinary"
  | .unary => "NodeUnary"
  | .call => "NodeCall"
  | .pipe => "NodePipe"
  | .varDecl => "NodeVar"
  | .funcDecl => "NodeFunc"
  | .classDecl => "NodeClass"
  | .cond => "NodeIf"
  | .forRange => "NodeFor"
  | .whileLoop => "NodeWhile"
  | .block => "NodeBlock"
  | .ret => "NodeReturn"
  | .brk => "NodeBreak"
  | .cont => "NodeContinue"
  | .assign => "NodeAssign"
  | .array => "NodeArray"
  | .index => "NodeIndex"
  | .program => "NodeProgram"
  | .other name => name

/-- The kind with a name. -/
def ofName (name : Bytes) : Kind := (all.find? fun k => k.name == name).getD (.other name)

/-- The kind of node that a list with this head stands for. -/
def ofHead? (head : Bytes) : Option Kind := all.find? fun k => k.head == head

/-- Whether the children are a list of statements. -/
def isBlockLike : Kind → Bool
  | .block | .program => true
  | _ => false

end Kind

end Codegen
