import Codegen.Markdown.Emphasis
import Codegen.Markdown.Html
import Codegen.Markdown.Line
import Codegen.Markdown.Link
import Codegen.Text.Utf8

/-!
# The Text of a Heading

What a heading says once its markup is taken away: the text of code spans, of
links and of emphasis, without the marks. Backslashes and character references
stay as they are written. Line ends are not part of the text, nor is the space
before them, unless a backslash marks the line end.

A text is read in sweeps. A sweep begins at the start of a line and after every
piece of markup, and ends where the next one begins. A backslash quotes the
punctuation after it; one at the end of a line may quote what begins the next
line, but what begins a sweep is markup even when it is quoted.
-/

namespace Codegen.Markdown

namespace Inline

/-- The text before the next run of exactly `length` backticks, and what follows
    it; `seen` backticks come right before. -/
def untilTicks? (length seen : Nat) : Bytes → Option (Bytes × Bytes)
  | [] => if seen = length then some ([], []) else none
  | b :: rest =>
    if b = Ascii.byte '`' then
      (untilTicks? length (seen + 1) rest).map fun (text, tail) => (b :: text, tail)
    else if seen = length then some ([], b :: rest)
    else (untilTicks? length 0 rest).map fun (text, tail) => (b :: text, tail)

def isGap (b : UInt8) : Bool := b = Ascii.byte ' ' || b = Bytes.newline

/-- Code without one space on each side, when both are there and something else is. -/
def trimCode (code : Bytes) : Bytes :=
  if !Ascii.isBlank code && code.head?.any isGap && code.getLast?.any isGap then
    (code.drop 1).dropLast
  else code

/-- The contents of a code span, and what follows it, given what follows its
    opening run of `length` backticks. -/
def codeSpan? (length : Nat) (text : Bytes) : Option (Bytes × Bytes) :=
  (untilTicks? length 0 text).map fun (code, tail) =>
    (trimCode (code.take (code.length - length)), tail)

def addText (bytes : Bytes) : List Piece → List Piece
  | .text before :: rest => .text (before ++ bytes) :: rest
  | ps => .text bytes :: ps

/-- Pieces, latest first, without the space at the end. -/
def trimEnd : List Piece → List Piece
  | .text bytes :: rest => .text (Ascii.trimRight bytes) :: rest
  | ps => ps

def atBracket? : List Piece → Option (List Piece × Bool × Bytes × List Piece)
  | [] => none
  | .bracket image rest :: before => some ([], image, rest, before)
  | p :: before => (atBracket? before).map fun (inner, b) => (p :: inner, b)

def hasLink : Piece → Bool
  | .group linked _ => linked
  | _ => false

def isDefined (defined : Bytes → Bool) (label : Bytes) : Bool :=
  label.length ≤ 999 && defined (Link.labelKey label)

/-- What follows a reference to a definition, given the text in the first pair of
    brackets and what follows it. -/
def reference? (defined : Bytes → Bool) (label text : Bytes) : Option Bytes :=
  let shortcut := if isDefined defined label then some text else none
  match text with
  | [] => shortcut
  | b :: rest =>
    if b != Ascii.byte '[' then shortcut
    else match Link.label? rest with
      | none => shortcut
      | some (other, tail) =>
        if isDefined defined (if Ascii.isBlank other then label else other) then some tail else none

/-- What follows a link, given the text in brackets and what follows it. -/
def linkEnd? (defined : Bytes → Bool) (label text : Bytes) : Option Bytes :=
  match text with
  | [] => reference? defined label text
  | b :: rest =>
    ((if b = Ascii.byte '(' then Link.target? rest else none)).or (reference? defined label text)

/-- Takes a closing bracket, given what follows it: a link and what follows the link,
    or text. -/
def closeBracket (defined : Bytes → Bool) (ps : List Piece) (text : Bytes) :
    List Piece × Option Bytes :=
  match atBracket? ps with
  | none => (ps, none)
  | some (inner, image, rest, before) =>
    let label := rest.take (rest.length - text.length - 1)
    let linked := inner.any hasLink
    match if !image && linked then none else linkEnd? defined label text with
    | some tail =>
      (.group (!image || linked) (Piece.plain (Piece.pair inner.reverse)) :: before, some tail)
    | none => (inner ++ (.text (if image then "![" else "[") :: before), none)

/-- The code of the character that begins a text; a line end where it ends. -/
def nextCode (text : Bytes) : Nat :=
  match text with
  | [] => Bytes.newline.toNat
  | b :: rest => (Utf8.firstGlyph b rest).code

/-- The code of the character before the text after a byte, given that before the
    byte. A byte that does not begin a character changes nothing. -/
def codeAfter (last : Nat) (b : UInt8) (rest : Bytes) : Nat :=
  if Utf8.isTail b then last else (Utf8.firstGlyph b rest).code

/-- How many bytes of a line there are to read, and whether the space before its end
    is kept. -/
structure Window where
  room : Nat
  keepsSpace : Bool
  deriving DecidableEq, Repr

/-- What there is to read of a line, of which a text is the rest. A backslash before
    the line end marks it, unless another comes before; two spaces mark it too. What
    marks a line end is not read. -/
def Window.ofLine (line : Bytes) : Window :=
  let backslash := Ascii.byte '\\'
  match line.reverse with
  | b :: c :: rest =>
    let (width, rest) := if c = Ascii.byte '\r' then (2, rest) else (1, c :: rest)
    if b != Bytes.newline then ⟨line.length, false⟩
    else if rest.head? = some backslash && (rest.drop 1).head? != some backslash then
      ⟨line.length - width - 1, true⟩
    else if rest.take 2 = [Line.space, Line.space] then ⟨line.length - width - 2, false⟩
    else ⟨line.length, false⟩
  | _ => ⟨line.length, false⟩

/-- Reads the markup that begins with a byte, given the code of the character before
    it and what follows. It gives the pieces, latest first, and what follows the
    markup; nothing follows when the byte is text. -/
def markup (defined : Bytes → Bool) (last : Nat) (ps : List Piece) (b : UInt8) (rest : Bytes) :
    List Piece × Option Bytes :=
  if b = Ascii.byte '`' then
    let (more, tail) := rest.span (· = b)
    match codeSpan? (more.length + 1) tail with
    | some (contents, tail) => (.code contents :: ps, some tail)
    | none => (.code (b :: more) :: ps, some tail)
  else if b = Ascii.byte '[' then (.bracket false rest :: ps, some rest)
  else if b = Ascii.byte '!' then
    match Bytes.strip? "[" rest with
    | some rest => (.bracket true rest :: ps, some rest)
    | none => (ps, none)
  else if b = Ascii.byte ']' then closeBracket defined ps rest
  else if b = Ascii.byte '<' then
    match (Html.address? rest).or (Html.inline? rest) with
    | some tail => (.code [] :: ps, some tail)
    | none => (ps, none)
  else if b = Ascii.byte '*' || b = Ascii.byte '_' then
    let (more, tail) := rest.span (· = b)
    (.run (Run.between b (more.length + 1) last (nextCode tail)) :: ps, some tail)
  else (ps, none)

/-- The state within a sweep: the code of the character before, whether a backslash
    quotes the next byte, and what there is to read of the line, which is not known
    when the sweep begins. -/
structure Sweep where
  last : Nat
  quoted : Bool := false
  window : Option Window := none
  deriving DecidableEq, Repr

/-- The pieces of a text, latest first, after the pieces before it. The fuel is at
    least the length of the text; `before` gives the code of the character before a
    line, given the number of lines after it. -/
def scan (defined : Bytes → Bool) (before : Nat → Nat) :
    Nat → Sweep → List Piece → Bytes → List Piece
  | 0, _, ps, _ => ps
  | _, _, ps, [] => trimEnd ps
  | fuel + 1, sweep, ps, b :: rest =>
    let line := ((Line.split (b :: rest)).head?).getD []
    let window := sweep.window.getD (.ofLine line)
    if window.room = 0 || b = Bytes.newline then
      let tail := ((b :: rest).dropWhile (· != Bytes.newline)).drop 1
      let ps := .text [] :: if window.keepsSpace then ps else trimEnd ps
      scan defined before fuel
        { last := before (tail.count Bytes.newline), quoted := sweep.quoted } ps tail
    else
      let reads := sweep.window.isNone || (!sweep.quoted && Link.isQuotable b)
      match if reads then markup defined sweep.last ps b rest else (ps, none) with
      | (ps, some tail) =>
        let taken := (b :: rest).take (rest.length + 1 - tail.length)
        scan defined before fuel
          { last := (taken.getLast?.getD b).toNat, quoted := sweep.quoted } ps tail
      | (ps, none) =>
        scan defined before fuel
          { last := codeAfter sweep.last b rest
            quoted := b = Ascii.byte '\\' && !sweep.quoted
            window := some { window with room := window.room - 1 } }
          (addText [b] ps) rest

/-- A text as pieces. -/
def pieces (defined : Bytes → Bool) (lines : List TextLine) : List Piece :=
  let text := lines.flatMap TextLine.bytes
  let codes := (lines.map fun line => line.before.toNat).reverse
  let before := fun left => codes[left]?.getD Bytes.newline.toNat
  (scan defined before (text.length + 1) { last := Bytes.newline.toNat } [] text).reverse

/-- The lines of a heading without their markup; `defined` says which labels have a
    definition. -/
def plainText (defined : Bytes → Bool) (lines : List TextLine) : Bytes :=
  Piece.plain (Piece.pair (pieces defined lines))

end Inline

end Codegen.Markdown
