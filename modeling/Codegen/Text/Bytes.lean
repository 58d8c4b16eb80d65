/-!
# Byte Strings

Source text, names and string literals are kept as bytes. A name read from a
document may hold any bytes at all, valid UTF-8 or not, and it has to come out
of the printers and the code generators unchanged, so characters are a view of
a byte string (`Codegen.Text.Utf8`) and never its representation.

A string literal stands for its UTF-8 bytes wherever bytes are expected, and
the digit writers below are the only places where numbers become text.
-/

namespace Codegen

/-- A byte string, as a list of bytes. -/
abbrev Bytes := List UInt8

namespace Bytes

/-- The UTF-8 bytes of a string, used as a coercion. -/
def ofString (s : String) : Bytes := s.toList.flatMap String.utf8EncodeChar

instance : Coe String Bytes := ⟨ofString⟩

def ofChars (cs : List Char) : Bytes := cs.map fun c => c.toNat.toUInt8

/-- The decimal digits of a number. -/
def ofNat (n : Nat) : Bytes := ofChars (Nat.toDigits 10 n)

/-- The decimal digits of an integer, after a minus sign when it is negative. -/
def ofInt : Int → Bytes
  | .ofNat n => ofNat n
  | .negSucc n => '-'.toNat.toUInt8 :: ofNat (n + 1)

/-- Padding to a width with a fixed byte. -/
def padLeft (width : Nat) (fill : UInt8) (text : Bytes) : Bytes :=
  List.replicate (width - text.length) fill ++ text

def zeroDigit : UInt8 := '0'.toNat.toUInt8

/-- Lower-case hexadecimal digits, at least `width` of them. -/
def hex (width n : Nat) : Bytes := padLeft width zeroDigit (ofChars (Nat.toDigits 16 n))

/-- Upper-case hexadecimal digits, at least `width` of them. -/
def hexUpper (width n : Nat) : Bytes :=
  padLeft width zeroDigit (ofChars ((Nat.toDigits 16 n).map Char.toUpper))

/-- Octal digits, at least `width` of them. -/
def octal (width n : Nat) : Bytes := padLeft width zeroDigit (ofChars (Nat.toDigits 8 n))

def join (sep : Bytes) : List Bytes → Bytes
  | [] => []
  | [piece] => piece
  | piece :: rest => piece ++ sep ++ join sep rest

def newline : UInt8 := '\n'.toNat.toUInt8

/-- The pieces between the occurrences of a byte; there is always at least one. -/
def splitOn (sep : UInt8) : Bytes → List Bytes
  | [] => [[]]
  | b :: rest =>
    if b = sep then [] :: splitOn sep rest
    else match splitOn sep rest with
      | [] => [[b]]
      | piece :: pieces => (b :: piece) :: pieces

/-- The pieces between newlines. -/
def lines (text : Bytes) : List Bytes := splitOn newline text

/-- Text without the leading bytes that satisfy a test. -/
def trimLeft (drop : UInt8 → Bool) (text : Bytes) : Bytes := text.dropWhile drop

/-- Text without the trailing bytes that satisfy a test. -/
def trimRight (drop : UInt8 → Bool) (text : Bytes) : Bytes :=
  (text.reverse.dropWhile drop).reverse

def startsWith (text start : Bytes) : Bool := start.isPrefixOf text

def endsWith (text ending : Bytes) : Bool := ending.isSuffixOf text

def strip? (start text : Bytes) : Option Bytes :=
  if text.startsWith start then some (text.drop start.length) else none

def after? (needle : Bytes) : Bytes → Option Bytes
  | [] => if needle.isEmpty then some [] else none
  | b :: rest =>
    if startsWith (b :: rest) needle then some ((b :: rest).drop needle.length)
    else after? needle rest

end Bytes

end Codegen
