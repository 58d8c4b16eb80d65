import Codegen.Number.Numeral
import Codegen.Text.Ascii

/-!
# Integers with a Base

Integers outside of documents may be written in another base: `0x`, `0o` and `0b`
come before the digits, and a zero alone before further digits means base eight.
-/

namespace Codegen.Based

def digit? (base : Nat) (b : UInt8) : Option Nat :=
  let value :=
    if Ascii.isDigit b then b.toNat - (Ascii.byte '0').toNat
    else if Ascii.isLetter b then (Ascii.lower b).toNat - (Ascii.byte 'a').toNat + 10
    else base
  if value < base then some value else none

def value? (base : Nat) (digits : Bytes) : Option Nat :=
  digits.foldl (fun n b => n.bind fun n => (digit? base b).map (n * base + ·)) (some 0)

def letterBase? (b : UInt8) : Option Nat :=
  let letter := Ascii.lower b
  if letter = Ascii.byte 'x' then some 16
  else if letter = Ascii.byte 'o' then some 8
  else if letter = Ascii.byte 'b' then some 2
  else none

/-- The base and the digits of a text. -/
def split (text : Bytes) : Nat × Bytes × Bool :=
  match text with
  | zero :: letter :: b :: rest =>
    if zero != Ascii.byte '0' then (10, text, false)
    else match letterBase? letter with
      | some base => (base, b :: rest, true)
      | none => (8, letter :: b :: rest, false)
  | [zero, b] => if zero = Ascii.byte '0' then (8, [b], false) else (10, text, false)
  | _ => (10, text, false)

/-- The number that a text without a sign denotes. -/
def magnitude? (text : Bytes) : Option Nat :=
  let (base, digits, _) := split text
  if digits.isEmpty then none else value? base digits

/-- Whether every underscore stands between digits, or between the base and one. -/
def underscoresFit (text : Bytes) : Bool :=
  let (base, digits, named) := split text
  if named then Numeral.underscoresFit (base = 16) .digit digits
  else Numeral.underscoresFit false .start text

/-- Goes on reading digits after a number. Reading stops at the first byte that is
    no digit and at the first digit that takes the number beyond 64 bits. -/
def extend (base n : Nat) : Bytes → Except NumeralFault Nat
  | [] => .ok n
  | b :: rest =>
    match digit? base b with
    | none => .error .malformed
    | some d =>
      if n * base + d < 0x10000000000000000 then extend base (n * base + d) rest
      else .error .outOfRange

/-- The integer that a text denotes; underscores may stand between digits. -/
def read (text : Bytes) : Except NumeralFault Int64 := do
  let (negative, body) := Integer.splitSign text
  let (base, digits, _) := split body
  if digits.isEmpty then throw .malformed
  let n ← extend base 0 (digits.filter (· != Ascii.byte '_'))
  if !underscoresFit body then throw .malformed
  let value : Int := if negative then -(n : Int) else n
  if Integer.fits value then return Int64.ofInt value else throw .outOfRange

end Codegen.Based
