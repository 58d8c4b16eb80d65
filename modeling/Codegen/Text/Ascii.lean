import Codegen.Text.Bytes

/-!
# ASCII Classes of Bytes

The classes of bytes that line-oriented formats are written in terms of. None of
them holds a byte of a longer UTF-8 sequence.
-/

namespace Codegen.Ascii

/-- The byte of an ASCII character. -/
def byte (c : Char) : UInt8 := c.toNat.toUInt8

/-- Whether a byte is a space, a tab or part of a line end. -/
def isSpace (b : UInt8) : Bool := b = byte ' ' || b = byte '\t' || b = byte '\n' || b = byte '\r'

/-- Whether a byte is a letter. -/
def isLetter (b : UInt8) : Bool :=
  (byte 'a' ≤ b && b ≤ byte 'z') || (byte 'A' ≤ b && b ≤ byte 'Z')

/-- Whether a byte is a digit. -/
def isDigit (b : UInt8) : Bool := byte '0' ≤ b && b ≤ byte '9'

/-- The small letter of a capital one; any other byte as it is. -/
def lower (b : UInt8) : UInt8 := if byte 'A' ≤ b && b ≤ byte 'Z' then b + 32 else b

def lowerAll (text : Bytes) : Bytes := text.map lower

/-- Text without leading space. -/
def trimLeft (text : Bytes) : Bytes := Bytes.trimLeft isSpace text

/-- Text without trailing space. -/
def trimRight (text : Bytes) : Bytes := Bytes.trimRight isSpace text

/-- Text without surrounding space. -/
def trim (text : Bytes) : Bytes := trimRight (trimLeft text)

def isBlank (text : Bytes) : Bool := text.all isSpace

end Codegen.Ascii
