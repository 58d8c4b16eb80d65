import Codegen.Markdown.Line

/-!
# Markers at the Beginning of a Line

What a line can begin. A marker may be indented by up to three columns; four
columns make the line indented code.
-/

namespace Codegen.Markdown

namespace Line

def isFlush (l : Line) : Bool := l.indent ≤ 3

/-- What a marker other than that of a container can begin: the text after the
    indentation, unless the line has no more bytes than columns of indentation. -/
def marked? (l : Line) : Option Bytes := if l.indent < l.full.length then some l.content else none

/-- Whether the line is at least three of the same mark and space. -/
def isBreak (l : Line) : Bool :=
  match l.content with
  | b :: rest =>
    let more := rest.filter fun c => !Ascii.isSpace c
    [Ascii.byte '*', Ascii.byte '-', Ascii.byte '_'].contains b && more.all (· = b)
      && 2 ≤ more.length
  | [] => false

/-- Whether the line makes a heading of the paragraph before it. A tab cannot come
    first. -/
def isUnderline (l : Line) : Bool :=
  match Ascii.trimRight (l.full.dropWhile (· = space)) with
  | b :: rest => (b = Ascii.byte '=' || b = Ascii.byte '-') && rest.all (· = b)
  | [] => false

/-- Heading text without a closing run of number signs, which has to follow a space. -/
def dropClosing (text : Bytes) : Bytes :=
  let stem := Bytes.trimRight (· = Ascii.byte '#') text
  if (stem.getLast?.map Ascii.isSpace).getD true then Ascii.trimRight stem else text

/-- The text of a heading that begins with one to six number signs. -/
def heading? (l : Line) : Option Bytes := do
  let (marks, rest) := (← l.marked?).span (· = Ascii.byte '#')
  if marks.isEmpty || 6 < marks.length then none
  else match rest with
    | [] => some []
    | b :: _ => if Ascii.isSpace b then some (dropClosing (Ascii.trim rest)) else none

end Line

/-- The opening of fenced code: at least three marks after some bytes of
    indentation, and a text that says what the code is. -/
structure Fence where
  mark : UInt8
  length : Nat
  indent : Nat
  info : Bytes
  line : Nat
  deriving DecidableEq, Repr

/-- The text after the opening marks. A last line of the document with a single
    byte after them has none. -/
def Fence.infoText (rest : Bytes) : Bytes := if rest.length ≤ 1 then [] else Ascii.trim rest

/-- The opening of fenced code. Among backticks no backtick can follow. -/
def Line.fence? (l : Line) : Option Fence := do
  let content ← l.marked?
  let mark ← content.head?
  let (marks, rest) := content.span (· = mark)
  let info := Fence.infoText rest
  if (mark = Ascii.byte '`' || mark = Ascii.byte '~') && 3 ≤ marks.length
      && !(mark = Ascii.byte '`' && info.contains mark) then
    some { mark, length := marks.length, indent := l.margin, info, line := l.number }
  else none

namespace Fence

/-- Whether a line closes fenced code: at least as many marks and nothing else. -/
def isClosedBy (f : Fence) (l : Line) : Bool :=
  let (marks, rest) := l.content.span (· = f.mark)
  l.isFlush && f.length ≤ marks.length && Ascii.isBlank rest

/-- The text of a line of fenced code: as many columns of indentation as the fence
    has bytes of it are removed. A line without so much has all of it removed, and
    keeps all but its padding when it holds nothing else. -/
def body (f : Fence) (l : Line) : Bytes :=
  if f.indent ≤ l.indent then (l.dropColumns f.indent).full
  else match l.content with
    | [] => l.text
    | b :: rest => if b = Bytes.newline then l.text else b :: rest

def language (f : Fence) : Bytes := f.info.takeWhile (· != Line.space)

end Fence

/-- A line of a block quote. -/
def Line.quote? (l : Line) : Option Line :=
  if l.isFlush && l.content.head? = some (Ascii.byte '>') then
    some ((l.advance (l.margin + 1)).dropColumns 1)
  else none

/-- The first line of a list item, whose marker ends with a byte. The item's content
    begins `offset` columns further in. -/
structure ListItem where
  marker : UInt8
  start : Option Nat
  offset : Nat
  empty : Bool
  rest : Line
  deriving DecidableEq, Repr

def numberOf (digits : Bytes) : Nat :=
  digits.foldl (fun n b => n * 10 + (b.toNat - (Ascii.byte '0').toNat)) 0

/-- The width of a list marker and its last byte, with its number when it has one. -/
def listMarker? (text : Bytes) : Option (Nat × UInt8 × Option Nat) :=
  let (digits, rest) := text.span Ascii.isDigit
  match rest with
  | [] => none
  | b :: _ =>
    if digits.isEmpty then
      if b = Ascii.byte '-' || b = Ascii.byte '*' || b = Ascii.byte '+' then some (1, b, none)
      else none
    else if digits.length ≤ 9 && (b = Ascii.byte '.' || b = Ascii.byte ')') then
      some (digits.length + 1, b, some (numberOf digits))
    else none

/-- A list item. Only spaces can come before its marker, and the gap after it is
    measured as if the line began at a tab stop. Indented code can begin right after
    the marker; then only one column belongs to it. -/
def Line.listItem? (l : Line) : Option ListItem := do
  let (spaces, content) := l.full.span (· = space)
  let (width, marker, start) ← listMarker? content
  let stop := spaces.length + width
  let after := content.drop width
  if 3 < spaces.length || after.head?.any fun b => b != Bytes.newline && !isIndent b then none
  else if Ascii.isBlank after then
    some { marker, start, offset := stop + 1, empty := true, rest := l.advance stop }
  else
    let indent := indentFrom stop after
    let gap := if 4 < indent then 1 else indent
    let (count, left) ← reach? stop gap after
    some { marker, start, offset := stop + gap, empty := false
           rest := (l.advance (stop + count)).padTo left }

end Codegen.Markdown
