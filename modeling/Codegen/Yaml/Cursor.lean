import Codegen.Text.Utf8
import Codegen.Yaml.Error

/-!
# Places in YAML Text

How far a text is read. Lines and columns are counted from zero, and a column is
a character.
-/

namespace Codegen.Yaml

/-- Whether a character ends a line. -/
def isBreak (c : Char) : Bool := c = '\n' || c = '\u2028' || c = '\u2029'

/-- Whether a character leaves space within a line. -/
def isBlank (c : Char) : Bool := c = ' ' || c = '\t'

/-- Whether a text ends, or goes on with space or a line end. -/
def atBlank (text : List Char) : Bool := text.head?.all fun c => isBlank c || isBreak c

def atBreak (text : List Char) : Bool := text.head?.all isBreak

def atMarker (text : List Char) : Bool :=
  (text.take 3 = ['-', '-', '-'] || text.take 3 = ['.', '.', '.']) && atBlank (text.drop 3)

/-- Whether a character can be in the name of an anchor or a directive. -/
def isNameChar (c : Char) : Bool := c.isAlphanum || c = '_' || c = '-'

def hexDigit? (c : Char) : Option Nat :=
  if c.isDigit then some (c.toNat - '0'.toNat)
  else if 'a' ≤ c && c ≤ 'f' then some (c.toNat - 'a'.toNat + 10)
  else if 'A' ≤ c && c ≤ 'F' then some (c.toNat - 'A'.toNat + 10)
  else none

def hexValue? (digits : List Char) : Option Nat :=
  digits.foldl (fun n c => n.bind fun n => (hexDigit? c).map (n * 16 + ·)) (some 0)

def bytesOf (text : List Char) : Bytes := text.flatMap String.utf8EncodeChar

/-- A place in a text: how many characters come before it, its line and its
    column. -/
structure Position where
  index : Nat := 0
  line : Nat := 0
  column : Nat := 0
  deriving DecidableEq, Repr

def Position.past (p : Position) (c : Char) : Position :=
  if isBreak c then ⟨p.index + 1, p.line + 1, 0⟩ else ⟨p.index + 1, p.line, p.column + 1⟩

/-- The rest of a text with its place. -/
structure Cursor where
  text : List Char
  position : Position := {}
  deriving DecidableEq, Repr

namespace Cursor

def line (c : Cursor) : Nat := c.position.line

def column (c : Cursor) : Nat := c.position.column

def skip (n : Nat) (c : Cursor) : Cursor :=
  ⟨c.text.drop n, (c.text.take n).foldl Position.past c.position⟩

def skipWhile (p : Char → Bool) (c : Cursor) : Cursor := c.skip (c.text.takeWhile p).length

def skipTo (rest : List Char) (c : Cursor) : Cursor := c.skip (c.text.length - rest.length)

def skipBlanks (c : Cursor) : Cursor := c.skipWhile isBlank

def skipLine (c : Cursor) : Cursor := c.skipWhile fun b => !isBreak b

/-- The place after a comment, when nothing but space comes before it. -/
def skipComment (c : Cursor) : Cursor :=
  let d := c.skipBlanks
  if d.text.head? = some '#' then d.skipLine else c

end Cursor

end Codegen.Yaml
