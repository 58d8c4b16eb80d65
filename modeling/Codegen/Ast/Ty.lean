import Codegen.Text.Bytes

/-!
# Types and Representations

A type is its name. The built-in types have fixed names, the empty name is the
type that is not known, and any other name is the class of that name.

A value occupies one machine word or two. Text and arrays are fat, a pointer and
a length; everything else is one word, the types that have no values included,
so that a zero word can always be produced.
-/

namespace Codegen

/-- A type of the source language. -/
structure Ty where
  name : Bytes
  deriving DecidableEq, Repr

namespace Ty

def unknown : Ty := ⟨[]⟩

/-- The type without values. -/
def void : Ty := ⟨"void"⟩

/-- Signed 64-bit integers. -/
def integer : Ty := ⟨"integer"⟩

/-- Binary64 numbers. -/
def decimal : Ty := ⟨"decimal"⟩

/-- Byte strings with a length. -/
def text : Ty := ⟨"text"⟩

/-- Truth values. -/
def boolean : Ty := ⟨"boolean"⟩

/-- Arrays of words with a length. -/
def array : Ty := ⟨"array"⟩

instance : Inhabited Ty := ⟨unknown⟩

def builtins : List Ty := [unknown, void, integer, decimal, text, boolean, array]

/-- Whether a type is a class. -/
def isClass (t : Ty) : Bool := !builtins.contains t

/-- Whether a function of this result type returns a value. -/
def hasResult (t : Ty) : Bool := t != void && t != unknown

end Ty

/-- How many machine words a value has: one, or a pointer and a length. -/
inductive Rep where
  | scalar
  | fat
  deriving DecidableEq, Repr, Inhabited

namespace Rep

def words : Rep → Nat
  | .scalar => 1
  | .fat => 2

def name : Rep → Bytes
  | .scalar => "scalar"
  | .fat => "fat"

def ofCode? : Int → Option Rep
  | 1 => some .scalar
  | 2 => some .fat
  | _ => none

end Rep

/-- The representation of the values of a type. -/
def Ty.rep (t : Ty) : Rep := if t = .text || t = .array then .fat else .scalar

end Codegen
