/-!
# Decimals as Machine Words

A decimal of the source language is a binary64 number, and it is its bits: code
generators emit the word, and comparisons and printing are defined on the word
by exact integer arithmetic. A finite word stands for `significand * 2 ^ power`
up to sign.
-/

namespace Codegen

/-- A binary64 number, as its bits. -/
structure Decimal where
  bits : UInt64
  deriving DecidableEq, Repr, Inhabited

namespace Decimal

def signBit : Nat := 0x8000000000000000

/-- The weight of the lowest exponent bit, and of the leading bit of a significand,
    which is not stored. -/
def leadingBit : Nat := 0x10000000000000

def negative (d : Decimal) : Bool := signBit ≤ d.bits.toNat

/-- The bits without the sign. -/
def magnitude (d : Decimal) : Nat := d.bits.toNat % signBit

/-- The magnitude of the infinities; numbers lie below it and NaNs above. -/
def infinityMagnitude : Nat := 0x7FF * leadingBit

/-- Whether a word stands for no number at all. -/
def isNaN (d : Decimal) : Bool := infinityMagnitude < d.magnitude

/-- Whether a word stands for an infinity. -/
def isInfinite (d : Decimal) : Bool := d.magnitude = infinityMagnitude

def exponentBits (d : Decimal) : Nat := d.magnitude / leadingBit

/-- The integer part of `significand * 2 ^ power`. -/
def significand (d : Decimal) : Nat :=
  if d.exponentBits = 0 then d.magnitude else d.magnitude % leadingBit + leadingBit

/-- The least power of two that a finite word can be a multiple of. -/
def leastPower : Int := -1074

/-- The power of two in `significand * 2 ^ power`. -/
def power (d : Decimal) : Int :=
  if d.exponentBits = 0 then leastPower else d.exponentBits + leastPower - 1

def ofMagnitude (negative : Bool) (magnitude : Nat) : Decimal :=
  ⟨(if negative then magnitude + signBit else magnitude).toUInt64⟩

def nan : Decimal := ⟨0x7FF8000000000001⟩

def infinity (negative : Bool) : Decimal := ofMagnitude negative infinityMagnitude

/-- Numeric equality: a NaN equals nothing, and the two zeros are equal. -/
def same (a b : Decimal) : Bool :=
  !a.isNaN && !b.isNaN && (a.bits == b.bits || (a.magnitude == 0 && b.magnitude == 0))

/-- The quotient rounded to the nearest integer, ties to even. -/
def roundQuotient (num den : Nat) : Nat :=
  let q := num / den
  let r := num % den
  if den < 2 * r || (den = 2 * r && q % 2 = 1) then q + 1 else q

def scaled (num den : Nat) (power : Int) : Nat × Nat :=
  (num * Nat.pow 2 (-power).toNat, den * Nat.pow 2 power.toNat)

/-- The power of two that gives a fraction a significand of 53 bits, or the
    least power when the fraction is too small for that. -/
def fittingPower (num den : Nat) : Int :=
  let guess : Int := (num.log2 : Int) - den.log2 - 52
  let (n, d) := scaled num den guess
  max leastPower (if n / d < leadingBit then guess - 1 else guess)

/-- The magnitude of the number nearest to a fraction. A significand that rounds
    up to 54 bits carries into the exponent by itself. -/
def nearestMagnitude (num den : Nat) : Nat :=
  if num = 0 then 0
  else
    let power := fittingPower num den
    let (n, d) := scaled num den power
    (power - leastPower).toNat * leadingBit + roundQuotient n d

/-- The number nearest to a fraction; none when it is too large for a finite word. -/
def nearest? (negative : Bool) (num den : Nat) : Option Decimal :=
  let magnitude := nearestMagnitude num den
  if magnitude < infinityMagnitude then some (ofMagnitude negative magnitude) else none

end Decimal

end Codegen
