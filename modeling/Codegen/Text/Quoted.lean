import Codegen.Text.Utf8
import Codegen.Text.Printable

/-!
# Quoted Text

How messages show a text whose contents they do not control: between double
quotes, on one line, with everything unprintable escaped. A byte outside
well-formed UTF-8 is shown by its value, so the quoted form is always
well-formed. A single character stands between single quotes.
-/

namespace Codegen

namespace Quoted

def controlLetter? (code : Nat) : Option Char :=
  match code with
  | 7 => some 'a'
  | 8 => some 'b'
  | 9 => some 't'
  | 10 => some 'n'
  | 11 => some 'v'
  | 12 => some 'f'
  | 13 => some 'r'
  | _ => none

/-- The quoted form of one glyph. -/
def glyph (mark : Char) (g : Glyph) : Bytes :=
  if g.code = Utf8.replacement && g.bytes.length = 1 then
    "\\x" ++ g.bytes.flatMap fun b => Bytes.hex 2 b.toNat
  else if g.code = mark.toNat || g.code = '\\'.toNat then "\\" ++ g.bytes
  else if isPrintable g.code then g.bytes
  else match controlLetter? g.code with
    | some letter => Bytes.ofChars ['\\', letter]
    | none =>
      if g.code < 0x20 || g.code = 0x7F then "\\x" ++ Bytes.hex 2 g.code
      else if g.code < 0x10000 then "\\u" ++ Bytes.hex 4 g.code
      else "\\U" ++ Bytes.hex 8 g.code

end Quoted

/-- The quoted form of a text. -/
def quote (text : Bytes) : Bytes := "\"" ++ (Utf8.glyphs text).flatMap (Quoted.glyph '"') ++ "\""

/-- The quoted form of a character. -/
def quoteChar (code : Nat) : Bytes :=
  "'" ++ Quoted.glyph '\x27' ⟨code, Utf8.encode code⟩ ++ "'"

end Codegen
