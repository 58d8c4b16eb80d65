import Codegen.Markdown.Line
import Codegen.Markdown.Link

/-!
# Link Definitions

The first lines of a paragraph can define labels: `[label]: destination "title"`.
Space between the parts can be a line end, and the title is optional. A text on a
line of its own that begins like a title and cannot be one is not part of the
definition.
-/

namespace Codegen.Markdown

/-- A definition of a label. It takes the lines from `first` up to `stop`, which is
    not included, and `rest` is what follows it. -/
structure Definition where
  label : Bytes
  first : Nat
  stop : Nat
  rest : Bytes
  deriving DecidableEq, Repr

namespace Definition

/-- The index of the line of a paragraph of some lines in which its rest begins. -/
def lineOf (count : Nat) (rest : Bytes) : Nat := count - max 1 (Line.split rest).length

def restOfLine (text : Bytes) : Bytes := text.takeWhile (· != Bytes.newline)

def afterLine (text : Bytes) : Bytes := (text.dropWhile (· != Bytes.newline)).drop 1

/-- The definition that begins a text, which is the rest of a paragraph of some
    lines. -/
def read? (count : Nat) (text : Bytes) : Option Definition := do
  let text := Ascii.trimLeft text
  let (label, rest) ← Link.label? (← Bytes.strip? "[" text)
  let rest ← Bytes.strip? ":" rest
  if Ascii.isBlank label then none
  let rest ← Link.destination? (Ascii.trimLeft rest)
  let first := lineOf count text
  let last := lineOf count rest
  let ended := Ascii.isBlank (restOfLine rest)
  let next := Ascii.trimLeft rest
  let plain (rest : Bytes) : Option Definition :=
    if ended then some { label, first, stop := last + 1, rest } else none
  match next with
  | [] => plain next
  | b :: inner =>
    if !Link.opensTitle b then plain next
    else if next.length = rest.length then none
    else match Link.title b inner with
      | .error stopped => plain (afterLine stopped)
      | .ok rest =>
        if Ascii.isBlank (restOfLine rest) then
          some { label, first, stop := lineOf count rest + 1, rest }
        else if ended then some { label, first, stop := max last (first + 1), rest }
        else none

/-- The definitions that begin a text, which is the rest of a paragraph of some
    lines. The fuel is more than the length of the text. -/
def readFrom (count : Nat) : Nat → Bytes → List Definition
  | 0, _ => []
  | fuel + 1, text =>
    match read? count text with
    | none => []
    | some d => d :: readFrom count fuel d.rest

/-- The definitions that begin a paragraph. -/
def readAll (lines : List TextLine) : List Definition :=
  let text := lines.flatMap TextLine.bytes
  readFrom lines.length (text.length + 1) text

/-- The lines of a paragraph without those of its definitions. Each definition is
    taken to begin right after the one before it. -/
def without (definitions : List Definition) (lines : List TextLine) : List TextLine :=
  (definitions.foldl
    (fun (lines, offset) d =>
      if lines.isEmpty then (lines, offset)
      else (lines.take (d.first - offset) ++ lines.drop (d.stop - offset), d.stop))
    (lines, 0)).1

end Definition

end Codegen.Markdown
