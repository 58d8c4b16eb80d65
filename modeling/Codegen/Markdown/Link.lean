import Codegen.Text.Ascii
import Codegen.Text.CaseFolding
import Codegen.Text.Punctuation

/-!
# Links

The parts of a link after its text: a destination and a title in parentheses, or
the label of a definition elsewhere in the document. A backslash quotes the
punctuation after it. Labels are compared without regard to case and to the
amount of space between words.
-/

namespace Codegen.Markdown

namespace Link

def isQuotable (b : UInt8) : Bool := isAsciiPunctuation b.toNat

/-- The text before a closing byte, and what follows it; or, when the text ends or a
    byte stops the search first, the text from there on. -/
def closed (stops : UInt8 → Bool) (closing : UInt8) : Bytes → Except Bytes (Bytes × Bytes)
  | [] => .error []
  | [b] => if b = closing then .ok ([], []) else .error (if stops b then [b] else [])
  | b :: c :: rest =>
    if b = Ascii.byte '\\' && isQuotable c then
      (closed stops closing rest).map fun (text, tail) => (b :: c :: text, tail)
    else if b = closing then .ok ([], c :: rest)
    else if stops b then .error (b :: c :: rest)
    else (closed stops closing (c :: rest)).map fun (text, tail) => (b :: text, tail)

/-- The text up to a space or an unmatched closing parenthesis, and what follows;
    `depth` parentheses are open. -/
def bare (depth : Nat) : Bytes → Bytes × Bytes
  | [] => ([], [])
  | [b] =>
    if Ascii.isSpace b || (b = Ascii.byte ')' && depth = 0) then ([], [b]) else ([b], [])
  | b :: c :: rest =>
    if b = Ascii.byte '\\' && isQuotable c then
      let (text, tail) := bare depth rest
      (b :: c :: text, tail)
    else if Ascii.isSpace b || (b = Ascii.byte ')' && depth = 0) then ([], b :: c :: rest)
    else
      let inner :=
        if b = Ascii.byte '(' then depth + 1 else if b = Ascii.byte ')' then depth - 1 else depth
      let (text, tail) := bare inner (c :: rest)
      (b :: text, tail)

/-- What follows a destination: a text in angle brackets on one line, or one without
    space. -/
def destination? (text : Bytes) : Option Bytes :=
  match text with
  | [] => none
  | b :: rest =>
    if b = Ascii.byte '<' then
      (closed (· = Bytes.newline) (Ascii.byte '>') rest).toOption.map Prod.snd
    else
      let (word, tail) := bare 0 text
      if word.isEmpty then none else some tail

def opensTitle (b : UInt8) : Bool :=
  b = Ascii.byte '"' || b = Ascii.byte '\x27' || b = Ascii.byte '('

/-- What follows a title, given its opening byte and what follows that; or the text
    where the search for its end stopped. -/
def title (opening : UInt8) (rest : Bytes) : Except Bytes Bytes :=
  let closing := if opening = Ascii.byte '(' then Ascii.byte ')' else opening
  (closed (· = opening) closing rest).map Prod.snd

def title? : Bytes → Option Bytes
  | [] => none
  | b :: rest => if opensTitle b then (title b rest).toOption else none

def closing? (text : Bytes) : Option Bytes :=
  match Ascii.trimLeft text with
  | b :: rest => if b = Ascii.byte ')' then some rest else none
  | [] => none

/-- What follows a destination and a title in parentheses, both optional, given
    what follows the opening parenthesis. -/
def target? (text : Bytes) : Option Bytes :=
  (closing? text).or <| (destination? (Ascii.trimLeft text)).bind fun rest =>
    (closing? rest).or <| (title? (Ascii.trimLeft rest)).bind closing?

def words : Bytes → Bytes
  | [] => []
  | [b] => [b]
  | b :: c :: rest =>
    if Ascii.isSpace b then
      if Ascii.isSpace c then words (c :: rest) else Ascii.byte ' ' :: words (c :: rest)
    else b :: words (c :: rest)

/-- The form in which labels are compared. -/
def labelKey (label : Bytes) : Bytes := (words (Ascii.trim label)).foldCase

/-- A label in brackets and what follows it, given what follows the opening bracket. -/
def label? (text : Bytes) : Option (Bytes × Bytes) :=
  (closed (· = Ascii.byte '[') (Ascii.byte ']') text).toOption

end Link

end Codegen.Markdown
