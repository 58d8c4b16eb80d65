import Codegen.Text.Ascii

/-!
# Lines of a Document

Block structure is read line by line. Containers take markers and indentation off
the front of a line, and what they leave is a line again. Indentation is measured
in columns: a tab reaches to the next multiple of four, and a tab that is taken
only in part leaves its remaining columns behind as padding.
-/

namespace Codegen.Markdown

/-- The rest of a line of the source, its line feed included. It begins at a column
    with some columns of padding, which are left of a tab; the byte `before` stands
    before the text in the source. -/
structure Line where
  number : Nat
  column : Nat := 0
  pad : Nat := 0
  before : UInt8 := Bytes.newline
  text : Bytes
  deriving DecidableEq, Repr

/-- A line of a paragraph, without indentation, and the byte before it in the
    source. -/
structure TextLine where
  before : UInt8
  bytes : Bytes
  deriving DecidableEq, Repr

namespace Line

def space : UInt8 := Ascii.byte ' '

def tab : UInt8 := Ascii.byte '\t'

/-- The line with its padding written out. -/
def full (l : Line) : Bytes := List.replicate l.pad space ++ l.text

def tabWidth (column : Nat) : Nat := 4 - column % 4

def indentFrom (column : Nat) : Bytes → Nat
  | [] => 0
  | b :: rest =>
    if b = space then 1 + indentFrom (column + 1) rest
    else if b = tab then tabWidth column + indentFrom (column + tabWidth column) rest
    else 0

/-- How far a line is indented. -/
def indent (l : Line) : Nat := indentFrom l.column l.full

def isIndent (b : UInt8) : Bool := b = space || b = tab

def margin (l : Line) : Nat := (l.full.takeWhile isIndent).length

/-- A line without its indentation. -/
def content (l : Line) : Bytes := l.text.dropWhile isIndent

def isBlank (l : Line) : Bool := Ascii.isBlank l.text

/-- How many bytes of indentation make up a width in a text that begins at a
    column, and by how many columns they exceed it. -/
def reach? (column width : Nat) : Bytes → Option (Nat × Nat)
  | [] => if width = 0 then some (0, 0) else none
  | b :: rest =>
    if width = 0 then some (0, 0)
    else if b = space then
      (reach? (column + 1) (width - 1) rest).map fun (count, left) => (count + 1, left)
    else if b = tab then
      if tabWidth column < width then
        (reach? (column + tabWidth column) (width - tabWidth column) rest).map
          fun (count, left) => (count + 1, left)
      else some (1, tabWidth column - width)
    else none

/-- The line without its first bytes, padding first. -/
def advance : Nat → Line → Line
  | 0, l => l
  | n + 1, l =>
    if 0 < l.pad then advance n { l with pad := l.pad - 1, column := l.column + 1 }
    else match l.text with
      | [] => l
      | b :: rest =>
        let width := if b = tab then tabWidth l.column else 1
        advance n { l with column := l.column + width, before := b, text := rest }

def padTo (pad : Nat) (l : Line) : Line :=
  if l.pad < pad then { l with column := l.column - (pad - l.pad), pad } else l

/-- A line without some columns of indentation. -/
def dropColumns (width : Nat) (l : Line) : Line :=
  match reach? l.column width l.full with
  | none => l
  | some (count, left) => (l.advance count).padTo left

def lineEnd (l : Line) : Line :=
  { l with pad := 0, text := if l.text.getLast? = some Bytes.newline then [Bytes.newline] else [] }

def trimmed (l : Line) : TextLine :=
  { before := (l.text.takeWhile Ascii.isSpace).getLast?.getD l.before
    bytes := Ascii.trimLeft l.text }

def split : Bytes → List Bytes
  | [] => []
  | b :: rest =>
    if b = Bytes.newline then [b] :: split rest
    else match split rest with
      | [] => [[b]]
      | piece :: pieces => (b :: piece) :: pieces

/-- The lines of a document. -/
def ofSource (source : Bytes) : List Line :=
  (split source).zipIdx.map fun (text, i) => { number := i + 1, text }

end Line

end Codegen.Markdown
