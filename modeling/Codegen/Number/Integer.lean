import Codegen.Text.Quoted

/-!
# Integers as Text

Integers of documents are 64 bits wide and signed. Their text is an optional
sign and decimal digits; a value that does not fit is refused rather than
reduced.
-/

namespace Codegen

/-- Why a text is no number of the wanted kind. -/
inductive NumeralFault where
  | malformed
  | outOfRange
  deriving DecidableEq, Repr

namespace NumeralFault

def reason : NumeralFault → Bytes
  | .malformed => "invalid syntax"
  | .outOfRange => "value out of range"

def message (reader : Bytes) (numeral : Bytes) (fault : NumeralFault) : Bytes :=
  "strconv." ++ reader ++ ": parsing " ++ quote numeral ++ ": " ++ fault.reason

end NumeralFault

namespace Integer

def isDigitByte (b : UInt8) : Bool := '0'.toNat ≤ b.toNat && b.toNat ≤ '9'.toNat

def digitValue (b : UInt8) : Nat := b.toNat - '0'.toNat

def ofDigits (digits : Bytes) : Nat := digits.foldl (fun n b => n * 10 + digitValue b) 0

/-- Splits a leading sign off; the flag says that it is a minus. -/
def splitSign (text : Bytes) : Bool × Bytes :=
  match text with
  | [] => (false, [])
  | b :: rest =>
    if b = '+'.toNat.toUInt8 then (false, rest)
    else if b = '-'.toNat.toUInt8 then (true, rest)
    else (false, b :: rest)

def value? (text : Bytes) : Option Int :=
  let (negative, digits) := splitSign text
  if digits.isEmpty || !digits.all isDigitByte then none
  else some (if negative then -(ofDigits digits : Int) else ofDigits digits)

def fits (n : Int) : Bool := -0x8000000000000000 ≤ n && n < 0x8000000000000000

/-- What is left of a number in 64 bits, with a sign. Slots and sizes are added up so. -/
def narrow (n : Int) : Int := (Int64.ofInt n).toInt

/-- The integer that a text denotes. -/
def read (text : Bytes) : Except NumeralFault Int64 :=
  match value? text with
  | none => .error .malformed
  | some n => if fits n then .ok (Int64.ofInt n) else .error .outOfRange

/-- The text of an integer. -/
def print (n : Int64) : Bytes := Bytes.ofInt n.toInt

end Integer

end Codegen
