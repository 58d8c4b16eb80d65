import Codegen.Number.Based
import Codegen.Text.Base64
import Codegen.Yaml.Error
import Codegen.Yaml.Timestamp

/-!
# What a Scalar Denotes

A plain scalar denotes nothing, a truth value, a number, a date or a text,
depending on how it is written. A scalar in quotes denotes a text. A tag may say
what a scalar is to denote; one that is not known leaves it a text.
-/

namespace Codegen.Yaml

/-- The kinds of values. -/
inductive Tag where
  | null
  | bool
  | int
  | float
  | timestamp
  | str
  | binary
  | seq
  | map
  | merge
  | other (name : Bytes)
  deriving DecidableEq, Repr

namespace Tag

def known : List (Bytes × Tag) :=
  [("!!null", .null), ("!!bool", .bool), ("!!int", .int), ("!!float", .float),
   ("!!timestamp", .timestamp), ("!!str", .str), ("!!binary", .binary), ("!!seq", .seq),
   ("!!map", .map), ("!!merge", .merge)]

def name : Tag → Bytes
  | .null => "!!null"
  | .bool => "!!bool"
  | .int => "!!int"
  | .float => "!!float"
  | .timestamp => "!!timestamp"
  | .str => "!!str"
  | .binary => "!!binary"
  | .seq => "!!seq"
  | .map => "!!map"
  | .merge => "!!merge"
  | .other name => name

def languageAddress : Bytes := "tag:yaml.org,2002:"

/-- The kind that a tag names. -/
def ofAddress (address : Bytes) : Tag :=
  let name := match Bytes.strip? languageAddress address with
    | some name => "!!" ++ name
    | none => address
  (known.lookup name).getD (.other name)

end Tag

def trueWords : List Bytes := ["true", "True", "TRUE"]

def falseWords : List Bytes := ["false", "False", "FALSE"]

def nullWords : List Bytes := ["", "~", "null", "Null", "NULL"]

def floatWords : List Bytes :=
  [".nan", ".NaN", ".NAN", ".inf", ".Inf", ".INF", "+.inf", "+.Inf", "+.INF", "-.inf", "-.Inf",
   "-.INF"]

/-- The integer of 64 bits, signed or not, that a text writes in some base. -/
def integerIn? (magnitude : Bytes → Option Nat) (text : Bytes) : Option Int :=
  let (negative, body) := Integer.splitSign text
  let signed := body.length != text.length
  (magnitude body).bind fun n =>
    if negative then if n ≤ 0x8000000000000000 then some (-(n : Int)) else none
    else if n < 0x8000000000000000 || (!signed && n < 0x10000000000000000) then some (n : Int)
    else none

def digits? (base : Nat) (text : Bytes) : Option Nat :=
  if text.isEmpty then none else Based.value? base text

/-- The integer that a text writes. A base of two or eight may come before a sign. -/
def integer? (text : Bytes) : Option Int :=
  (integerIn? Based.magnitude? text).or
    (((Bytes.strip? "0b" text).bind (integerIn? (digits? 2))).or
      ((Bytes.strip? "0o" text).bind (integerIn? (digits? 8))))

/-- Whether a text is made of digits with a point and an exponent, both optional. -/
def isDecimalShape (text : Bytes) : Bool :=
  let (_, body) := Integer.splitSign text
  let (whole, rest) := body.span Ascii.isDigit
  let (fraction, rest) := match rest with
    | b :: tail => if b = Ascii.byte '.' then tail.span Ascii.isDigit else ([], rest)
    | [] => ([], [])
  let exponent := match rest with
    | [] => true
    | b :: tail =>
      let (_, power) := Integer.splitSign tail
      Ascii.lower b = Ascii.byte 'e' && !power.isEmpty && power.all Ascii.isDigit
  (!whole.isEmpty || !fraction.isEmpty) && exponent

def reads (text : Bytes) : Bool := (Decimal.read text).toOption.isSome

/-- The text without underscores, which may stand anywhere in a number. -/
def compact (text : Bytes) : Bytes := text.filter (· != Ascii.byte '_')

namespace Tag

/-- The kind of a plain scalar that begins with a digit or a sign; `dated` says
    whether it can be a date. -/
def ofNumeral (dated : Bool) (text : Bytes) : Tag :=
  if dated && Timestamp.isWritten text then .timestamp
  else if (integer? (compact text)).isSome then .int
  else if isDecimalShape (compact text) && reads (compact text) then .float
  else .str

/-- The kind of a plain scalar; `dated` says whether it can be a date. -/
def ofPlain (dated : Bool) (text : Bytes) : Tag :=
  if trueWords.contains text || falseWords.contains text then .bool
  else if nullWords.contains text then .null
  else if floatWords.contains text then .float
  else match text with
    | [] => .null
    | b :: _ =>
      if b = Ascii.byte '.' then if reads text then .float else .str
      else if Ascii.isDigit b || b = Ascii.byte '+' || b = Ascii.byte '-' then .ofNumeral dated text
      else .str

/-- The kind of a scalar without a tag. -/
def ofScalar (plain : Bool) (text : Bytes) : Tag :=
  if !plain then .str else if text = "<<" then .merge else .ofPlain true text

end Tag

/-- What a scalar denotes. Numbers and dates are not told apart. -/
inductive Value where
  | nothing
  | truth (value : Bool)
  | text (value : Bytes)
  | quantity
  deriving DecidableEq, Repr

namespace Tag

def denoted (tag : Tag) (text : Bytes) : Value :=
  match tag with
  | .null => .nothing
  | .bool => .truth (trueWords.contains text)
  | .int | .float | .timestamp => .quantity
  | _ => .text text

/-- Whether a number that is written as an integer can also be a decimal. -/
def widens (text : Bytes) : Bool :=
  (integer? (compact text)).any fun n => n < 0x8000000000000000

/-- What a scalar of a kind denotes. A kind that is known by how it is written has
    to be written so; only an integer can stand for a decimal. -/
def value (tag : Tag) (text : Bytes) : Except Cause Value :=
  match tag with
  | .null | .bool | .int | .float | .timestamp =>
    let found := ofPlain (tag = .timestamp) text
    if found = tag || (tag = .float && found = .int && widens text) then .ok (tag.denoted text)
    else .error (.unreadable found.name text tag.name)
  | .binary => ((Base64.decode? text).map fun b => .ok (.text b)).getD (.error .binaryDigits)
  | _ => .ok (.text text)

end Tag

/-- Further words that denote true where a truth value is wanted. -/
def yesWords : List Bytes := ["y", "Y", "yes", "on"]

/-- Further words that denote false where a truth value is wanted. -/
def noWords : List Bytes := ["n", "N", "no", "off"]

def Value.truth? : Value → Option Bool
  | .truth value => some value
  | .text word =>
    if yesWords.contains word then some true
    else if noWords.contains word then some false
    else none
  | _ => none

end Codegen.Yaml
