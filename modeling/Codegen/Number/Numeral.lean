import Codegen.Number.Decimal
import Codegen.Number.Integer

/-!
# Reading Decimals

The text of a decimal is an optional sign, digits with at most one point among
them, and an optional exponent of ten. A numeral that begins with `0x` has
hexadecimal digits and needs an exponent of two after `p`. Underscores may
stand between digits, and one may follow the `0x`. The words `inf`, `infinity`
and `nan` are accepted in any case; only the first two take a sign.

The result is the number nearest to the exact value, ties to even. A value
beyond the largest number is refused; one below the smallest is a zero with its
sign.
-/

namespace Codegen

/-- A number in digits: `digits` is the value of all digits as an integer,
    `places` how many of them stand after the point, and `exponent` the written
    exponent, of two when `hex` and of ten otherwise. -/
structure Numeral where
  negative : Bool
  hex : Bool
  digits : Nat
  places : Nat
  exponent : Int
  deriving DecidableEq, Repr

namespace Numeral

def lower (b : UInt8) : UInt8 :=
  if 'A'.toNat ≤ b.toNat && b.toNat ≤ 'Z'.toNat then b + 32 else b

def digit? (hex : Bool) (b : UInt8) : Option Nat :=
  if Integer.isDigitByte b then some (Integer.digitValue b)
  else
    let c := (lower b).toNat
    if hex && 'a'.toNat ≤ c && c ≤ 'f'.toNat then some (c - 'a'.toNat + 10) else none

/-- Digits read so far. -/
structure Run where
  value : Nat := 0
  places : Nat := 0
  any : Bool := false
  point : Bool := false

def Run.push (base digit : Nat) (run : Run) : Run :=
  { run with
    value := run.value * base + digit
    places := if run.point then run.places + 1 else run.places
    any := true }

/-- Reads digits, one point and underscores; the rest begins at the first byte
    that is none of these. -/
def readDigits (hex : Bool) (run : Run) : Bytes → Run × Bytes
  | [] => (run, [])
  | b :: rest =>
    if b = '_'.toNat.toUInt8 then readDigits hex run rest
    else if b = '.'.toNat.toUInt8 then
      if run.point then (run, b :: rest) else readDigits hex { run with point := true } rest
    else match digit? hex b with
      | some d => readDigits hex (run.push (if hex then 16 else 10) d) rest
      | none => (run, b :: rest)

/-- An exponent takes further digits only while it is below this. -/
def exponentLimit : Nat := 10000

def exponentValue (digits : Bytes) : Nat :=
  digits.foldl (fun e b =>
    if b = '_'.toNat.toUInt8 || exponentLimit ≤ e then e else e * 10 + Integer.digitValue b) 0

def readExponent? (text : Bytes) : Option (Int × Bytes) :=
  let (negative, body) := Integer.splitSign text
  if (body.head?.map Integer.isDigitByte).getD false then
    let inside := fun b => Integer.isDigitByte b || b = '_'.toNat.toUInt8
    let e : Int := exponentValue (body.takeWhile inside)
    some (if negative then -e else e, body.dropWhile inside)
  else none

/-- What the last byte of a numeral was, for placing underscores. -/
inductive Last where
  | start | digit | underscore | other
  deriving DecidableEq

/-- Whether every underscore follows a digit and precedes one. -/
def underscoresFit (hex : Bool) (last : Last) : Bytes → Bool
  | [] => last != .underscore
  | b :: rest =>
    if (digit? hex b).isSome then underscoresFit hex .digit rest
    else if b = '_'.toNat.toUInt8 then last == .digit && underscoresFit hex .underscore rest
    else last != .underscore && underscoresFit hex .other rest

/-- Whether the text begins with `0x` and goes on. -/
def hexBody? : Bytes → Option Bytes
  | z :: x :: b :: rest =>
    if z = '0'.toNat.toUInt8 && lower x = 'x'.toNat.toUInt8 then some (b :: rest) else none
  | _ => none

/-- Cuts a text into the parts of a numeral. -/
def split? (text : Bytes) : Option Numeral :=
  let (negative, unsigned) := Integer.splitSign text
  let hex := (hexBody? unsigned).isSome
  let body := (hexBody? unsigned).getD unsigned
  let (run, rest) := readDigits hex {} body
  let fits := underscoresFit hex (if hex then .digit else .start) body
  let mark := if hex then 'p'.toNat.toUInt8 else 'e'.toNat.toUInt8
  if !run.any || !fits then none
  else match rest with
    | [] => if hex then none else some ⟨negative, false, run.value, run.places, 0⟩
    | b :: rest =>
      if lower b != mark then none
      else match readExponent? rest with
        | some (e, []) => some ⟨negative, hex, run.value, run.places, e⟩
        | _ => none

/-- The power of the base that the digits are multiplied by. -/
def scale (n : Numeral) : Int := n.exponent - if n.hex then 4 * n.places else n.places

/-- The number nearest to a numeral. Values far outside the range are decided by
    their number of digits. -/
def value (n : Numeral) : Except NumeralFault Decimal :=
  let base := if n.hex then 2 else 10
  let size : Int := if n.hex then n.digits.log2 + 1 else (Nat.toDigits 10 n.digits).length
  if n.digits = 0 then .ok (.ofMagnitude n.negative 0)
  else if (if n.hex then 1100 else 400) < size + n.scale then .error .outOfRange
  else if size + n.scale < (if n.hex then -1200 else -400) then .ok (.ofMagnitude n.negative 0)
  else
    match Decimal.nearest? n.negative (n.digits * Nat.pow base n.scale.toNat)
      (Nat.pow base (-n.scale).toNat) with
    | some d => .ok d
    | none => .error .outOfRange

end Numeral

namespace Decimal

def word? (text : Bytes) : Option Decimal :=
  let (negative, unsigned) := Integer.splitSign text
  let word := unsigned.map Numeral.lower
  if word = "inf" || word = "infinity" then some (infinity negative)
  else if text.map Numeral.lower = "nan" then some nan
  else none

/-- The decimal that a text denotes. -/
def read (text : Bytes) : Except NumeralFault Decimal :=
  match word? text with
  | some d => .ok d
  | none =>
    match Numeral.split? text with
    | some n => n.value
    | none => .error .malformed

end Decimal

end Codegen
