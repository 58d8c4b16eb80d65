import Codegen.Ast.Tree
import Codegen.Text.Utf8

/-!
# Symbols and Scopes

A symbol is what a name stands for: a variable in static storage or in slots of
the current function, a function, or a class. A scope is a table of symbols; the
latest declaration of a name hides the earlier ones.

Names go to assemblers in mangled form. ASCII letters and digits stand for
themselves, an underscore is doubled, and any other character is written as an
underscore, a letter and its code point. A single underscore only ever begins
such an escape.
-/

namespace Codegen

/-- A branch target, unique within one compilation. -/
structure Label where
  id : Nat
  deriving DecidableEq, Repr, Inhabited

def Label.text (l : Label) : Bytes := "L" ++ Bytes.ofNat l.id

/-- Variables, functions and classes. -/
inductive SymbolKind where
  | variable
  | function
  | classType
  deriving DecidableEq, Repr, Inhabited

/-- What a name stands for. A global lives in static storage under its storage
    name; a local occupies consecutive slots from `slot` on. -/
structure Symbol where
  name : Bytes
  kind : SymbolKind
  type : Ty := .unknown
  global : Bool := false
  slot : Int := 0
  storage : Bytes := []
  params : List Param := []
  result : Ty := .unknown
  fields : List Param := []
  deriving DecidableEq, Repr

namespace Symbol

def staticVar (name : Bytes) (type : Ty) (storage : Bytes) : Symbol :=
  { name, kind := .variable, type, global := true, storage }

def localVar (name : Bytes) (type : Ty) (slot : Int) : Symbol :=
  { name, kind := .variable, type, slot }

def ofFunction (name : Bytes) (params : List Param) (result : Ty) (storage : Bytes) : Symbol :=
  { name, kind := .function, type := result, global := true, storage, params, result }

def ofClass (name : Bytes) (fields : List Param) : Symbol :=
  { name, kind := .classType, type := ⟨name⟩, fields }

end Symbol

/-- A table of symbols. -/
abbrev Scope := List Symbol

namespace Scope

def declare (scope : Scope) (sym : Symbol) : Scope := sym :: scope

def find? (scope : Scope) (name : Bytes) : Option Symbol :=
  List.find? (fun sym => sym.name == name) scope

def resolve? (scopes : List Scope) (name : Bytes) : Option Symbol :=
  scopes.findSome? fun scope => scope.find? name

end Scope

def isAsciiAlphanumeric (code : Nat) : Bool :=
  ('a'.toNat ≤ code && code ≤ 'z'.toNat) || ('A'.toNat ≤ code && code ≤ 'Z'.toNat)
    || ('0'.toNat ≤ code && code ≤ '9'.toNat)

def mangleCode (code : Nat) : Bytes :=
  if code = '_'.toNat then "__"
  else if isAsciiAlphanumeric code then [code.toUInt8]
  else if code ≤ 0xFFFF then "_u" ++ Bytes.hexUpper 4 code
  else "_U" ++ Bytes.hexUpper 8 code

/-- The form of a name in assembler symbols. -/
def mangle (name : Bytes) : Bytes := (Utf8.glyphs name).flatMap fun g => mangleCode g.code

end Codegen
