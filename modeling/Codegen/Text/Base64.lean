import Codegen.Text.Ascii

/-!
# Bytes in Base 64

Three bytes are written as four digits of six bits each. The last group may be
shorter; it is then filled up with equals signs. Line ends do not count.
-/

namespace Codegen.Base64

/-- The value of a digit. -/
def digit? (b : UInt8) : Option Nat :=
  if Ascii.byte 'A' ≤ b && b ≤ Ascii.byte 'Z' then some (b.toNat - 65)
  else if Ascii.byte 'a' ≤ b && b ≤ Ascii.byte 'z' then some (b.toNat - 97 + 26)
  else if Ascii.isDigit b then some (b.toNat - 48 + 52)
  else if b = Ascii.byte '+' then some 62
  else if b = Ascii.byte '/' then some 63
  else none

def value? (digits : Bytes) : Option Nat :=
  digits.foldl (fun n b => n.bind fun n => (digit? b).map (n * 64 + ·)) (some 0)

def groups? : Bytes → Option Bytes
  | [] => some []
  | a :: b :: c :: d :: rest =>
    let fill := Ascii.byte '='
    if d = fill && rest.isEmpty then
      if c = fill then (value? [a, b]).map fun n => [(n / 16).toUInt8]
      else (value? [a, b, c]).map fun n => [(n / 1024).toUInt8, (n / 4).toUInt8]
    else do
      let n ← value? [a, b, c, d]
      let bytes ← groups? rest
      return (n / 65536).toUInt8 :: (n / 256).toUInt8 :: n.toUInt8 :: bytes
  | _ => none

/-- The bytes of a text. -/
def decode? (text : Bytes) : Option Bytes :=
  groups? (text.filter fun b => b != Ascii.byte '\n' && b != Ascii.byte '\r')

end Codegen.Base64
