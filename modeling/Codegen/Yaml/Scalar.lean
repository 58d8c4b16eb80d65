import Codegen.Yaml.Cursor

/-!
# Scalars as Written

A scalar is written plain or in quotes, on one line or on several. Space within a
line is kept; a line end counts as a space, or as the blank lines after it when
there are any. Single quotes are doubled within single quotes; double quotes know
escapes.
-/

namespace Codegen.Yaml

/-- The space between two parts of a scalar: the space on the line, and the line
    ends after the first, both latest first. The first line end is none when it is
    escaped. -/
structure Gap where
  spaces : List Char := []
  first : Option Char := none
  more : List Char := []
  folded : Bool := false
  deriving DecidableEq, Repr

namespace Gap

/-- The gap with a space or a tab added; none counts after a line end. -/
def blank (g : Gap) (c : Char) : Gap := if g.folded then g else { g with spaces := c :: g.spaces }

def lineEnd (g : Gap) (c : Char) : Gap :=
  if g.folded then { g with more := c :: g.more }
  else { spaces := [], first := some c, folded := true }

def isEmpty (g : Gap) : Bool := g.spaces.isEmpty && !g.folded

def text (g : Gap) : List Char :=
  if !g.folded then g.spaces
  else if g.first = some '\n' then if g.more.isEmpty then [' '] else g.more
  else g.more ++ g.first.toList

end Gap

/-- A scalar, where its text goes on, and whether a line end was passed. -/
structure Scanned where
  value : List Char
  rest : Cursor
  folded : Bool := false
  deriving DecidableEq, Repr

def endsPlain (flow : Bool) (c : Char) (rest : List Char) : Bool :=
  (c = ':' && atBlank rest)
    || (flow && ([',', '[', ']', '\x7b', '\x7d'].contains c || (c = '?' && atBlank rest)))

/-- A plain scalar. Its parts are written backward into `value`; outside of flow
    collections, further lines are indented by `indent` columns. -/
def plain (flow : Bool) (indent start : Nat) (value : List Char) (gap : Gap) (p : Position) :
    List Char → Except Error Scanned
  | [] => .ok { value := value.reverse, rest := ⟨[], p⟩, folded := gap.folded }
  | c :: rest =>
    if isBreak c then plain flow indent start value (gap.lineEnd c) (p.past c) rest
    else if isBlank c then
      if gap.folded && p.column < indent && c = '\t' then
        .error (.inToken .tabIndentation start p.line)
      else plain flow indent start value (gap.blank c) (p.past c) rest
    else if (gap.folded && !flow && p.column < indent) || (p.column = 0 && atMarker (c :: rest))
        || (c = '#' && !gap.isEmpty) || endsPlain flow c rest then
      .ok { value := value.reverse, rest := ⟨c :: rest, p⟩, folded := gap.folded }
    else plain flow indent start (c :: (gap.text ++ value)) {} (p.past c) rest

/-- The characters that single letters stand for after a backslash. -/
def escapes : List (Char × Nat) :=
  [('0', 0), ('a', 7), ('b', 8), ('t', 9), ('\t', 9), ('n', 10), ('v', 11), ('f', 12), ('r', 13),
   ('e', 27), (' ', 32), ('"', 34), ('\x27', 39), ('/', 47), ('\\', 92), ('N', 0x85), ('_', 0xA0),
   ('L', 0x2028), ('P', 0x2029)]

/-- The letters after which a code follows, with the number of its digits. -/
def codeEscapes : List (Char × Nat) := [('x', 2), ('u', 4), ('U', 8)]

/-- The character of an escape, and how many characters it takes after the
    backslash. -/
def escape (text : List Char) : Except Cause (Char × Nat) :=
  match text with
  | [] => .error .unknownEscape
  | c :: rest =>
    match escapes.lookup c, codeEscapes.lookup c with
    | some code, _ => .ok (Char.ofNat code, 1)
    | none, none => .error .unknownEscape
    | none, some count =>
      if rest.length < count then .error .escapeDigits
      else match hexValue? (rest.take count) with
        | none => .error .escapeDigits
        | some code =>
          if code.isValidChar then .ok (Char.ofNat code, count + 1) else .error .escapeCode

/-- A scalar in quotes, after the opening one. The fuel is at least the length of
    the text. -/
def quoted (single : Bool) (start : Nat) :
    Nat → List Char → Gap → Position → List Char → Except Error Scanned
  | 0, _, _, p, _ => .error (.inToken .endOfStream start p.line)
  | _, _, _, p, [] => .error (.inToken .endOfStream start p.line)
  | fuel + 1, value, gap, p, c :: rest =>
    let quote := if single then '\x27' else '"'
    let joined := gap.text ++ value
    if p.column = 0 && atMarker (c :: rest) then .error (.inToken .documentMarker start p.line)
    else if isBreak c then quoted single start fuel value (gap.lineEnd c) (p.past c) rest
    else if isBlank c then quoted single start fuel value (gap.blank c) (p.past c) rest
    else if c = quote then
      if single && rest.head? = some quote then
        quoted single start fuel (c :: joined) {} ((p.past c).past c) (rest.drop 1)
      else .ok { value := joined.reverse, rest := ⟨rest, p.past c⟩ }
    else if !single && c = '\\' then
      match rest with
      | d :: rest =>
        if isBreak d then quoted single start fuel joined { folded := true } (p.past d) rest
        else match escape (d :: rest) with
          | .error cause => .error (.inToken cause start p.line)
          | .ok (e, n) =>
            let p := (c :: d :: rest.take (n - 1)).foldl Position.past p
            quoted single start fuel (e :: joined) {} p (rest.drop (n - 1))
      | [] => .error (.inToken .unknownEscape start p.line)
    else quoted single start fuel (c :: joined) {} (p.past c) rest

end Codegen.Yaml
