import Codegen.Number.Decimal
import Codegen.Text.Bytes

/-!
# Writing Decimals

A decimal is written with the fewest digits that read back as the same number.
The reals that round to a number form an interval, closed exactly when the
significand is even. Of the grids of multiples of powers of ten, from coarse to
fine, the first that meets the interval gives the digits: a multiple on a coarser
grid has fewer of them. Of two multiples in the interval the nearer is taken, and
of two equally near ones the even one.
-/

namespace Codegen.Decimal

/-- A positive finite number and the reals that round to it, as numerators over
    one denominator. -/
structure Interval where
  low : Nat
  mid : Nat
  high : Nat
  den : Nat
  closed : Bool
  deriving DecidableEq, Repr

/-- The reals that round to a positive finite number. Below a power of two the
    numbers lie twice as dense, so there the lower half is half as wide. -/
def interval (d : Decimal) : Interval :=
  let up := Nat.pow 2 d.power.toNat
  let below := if d.significand = leadingBit && leastPower < d.power then 1 else 2
  { low := (4 * d.significand - below) * up
    mid := 4 * d.significand * up
    high := (4 * d.significand + 2) * up
    den := 4 * Nat.pow 2 (-d.power).toNat
    closed := d.significand % 2 = 0 }

namespace Interval

/-- Whether the fraction `num / den`, over the interval's own denominator, lies inside. -/
def holds (i : Interval) (num : Nat) : Bool :=
  if i.closed then i.low ≤ num && num ≤ i.high else i.low < num && num < i.high

def inUnits (i : Interval) (power : Int) : Interval :=
  let down := Nat.pow 10 (-power).toNat
  { i with
    low := i.low * down
    mid := i.mid * down
    high := i.high * down
    den := i.den * Nat.pow 10 power.toNat }

/-- The integer inside an interval nearest to its middle, if there is one. -/
def integer? (i : Interval) : Option Nat :=
  let below := i.mid / i.den
  let above := below + 1
  match i.holds (below * i.den), i.holds (above * i.den) with
  | false, false => none
  | true, false => some below
  | false, true => some above
  | true, true => some (roundQuotient i.mid i.den)

end Interval

/-- The grids from the coarsest power of ten down, as far as `count` goes. -/
def searchGrid (i : Interval) (power : Int) : Nat → Nat × Int
  | 0 => (0, power)
  | count + 1 =>
    match (i.inUnits power).integer? with
    | some digits => (digits, power)
    | none => searchGrid i (power - 1) count

def coarsest : Int := 309

/-- Digits and power of ten of a positive finite number. -/
def shortest (d : Decimal) : Nat × Int := searchGrid d.interval coarsest 660

/-- Digits are positional when the exponent of the first one lies in this range. -/
def positional (exponent : Int) : Bool := -4 ≤ exponent && exponent < 6

/-- A decimal exponent, with a sign and at least two digits. -/
def exponentText (exponent : Int) : Bytes :=
  (if exponent < 0 then "e-" else "e+") ++
    Bytes.padLeft 2 Bytes.zeroDigit (Bytes.ofNat exponent.natAbs)

def pointed : Bytes → Bytes
  | [] => []
  | [first] => [first]
  | first :: rest => first :: '.'.toNat.toUInt8 :: rest

/-- Digits written out, `point` of them before the point. -/
def writtenOut (digits : Bytes) (point : Int) : Bytes :=
  if point ≤ 0 then "0." ++ List.replicate (-point).toNat Bytes.zeroDigit ++ digits
  else if digits.length ≤ point.toNat then
    digits ++ List.replicate (point.toNat - digits.length) Bytes.zeroDigit
  else digits.take point.toNat ++ "." ++ digits.drop point.toNat

def printPositive (d : Decimal) : Bytes :=
  let (value, power) := d.shortest
  let digits := Bytes.ofNat value
  let point : Int := digits.length + power
  if positional (point - 1) then writtenOut digits point
  else pointed digits ++ exponentText (point - 1)

/-- The text of a decimal. -/
def print (d : Decimal) : Bytes :=
  if d.isNaN then "NaN"
  else if d.isInfinite then if d.negative then "-Inf" else "+Inf"
  else
    let unsigned : Bytes := if d.magnitude = 0 then "0" else d.printPositive
    if d.negative then "-" ++ unsigned else unsigned

end Codegen.Decimal
