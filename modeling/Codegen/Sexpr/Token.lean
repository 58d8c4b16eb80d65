import Codegen.Sexpr.Datum
import Codegen.Text.Utf8
import Codegen.Text.Letter
import Codegen.Text.Digit
import Codegen.Text.Blank

/-!
# Tokens of S-expression Documents

The scanner is an automaton over glyphs: `Scan` says what has been seen of the
token under way, `Scan.feed` takes one more glyph, and `scan` runs it to the end
of the text. It is a structural recursion on the glyphs and looks at each of
them once.

Scanning stops at the first lexical error. The tokens before it remain, because
whether the error is reported depends on how far the reader gets.
-/

namespace Codegen.Sexpr

/-- The punctuation of documents. -/
inductive Punct where
  | openList | closeList | openMap | closeMap | colon | comma | caret
  deriving DecidableEq, Repr

namespace Punct

def char : Punct → Char
  | .openList => '('
  | .closeList => ')'
  | .openMap => '{'
  | .closeMap => '}'
  | .colon => ':'
  | .comma => ','
  | .caret => '^'

def all : List Punct := [.openList, .closeList, .openMap, .closeMap, .colon, .comma, .caret]

def ofCode? (code : Nat) : Option Punct := all.find? fun p => p.char.toNat == code

end Punct

/-- What a token is. The end of the text counts as a token of its own. -/
inductive Lexeme where
  | symbol (text : Bytes)
  | string (text : Bytes)
  | integer (text : Bytes)
  | ellipsis
  | punct (mark : Punct)
  | finish
  deriving DecidableEq, Repr

namespace Lexeme

def describe : Lexeme → Bytes
  | .symbol _ => "symbol"
  | .string _ => "string"
  | .integer _ => "integer"
  | .ellipsis => "ellipsis"
  | .punct mark => Bytes.ofChars ['\x27', mark.char, '\x27']
  | .finish => "EOF"

end Lexeme

/-- A token and the byte offset at which it begins. -/
structure Token where
  lexeme : Lexeme
  offset : Nat
  deriving DecidableEq, Repr

/-- Why scanning stopped early. -/
inductive LexicalError where
  | unterminatedString
  | invalidEscape (code : Nat)
  | unexpectedCharacter (code : Nat)
  deriving DecidableEq, Repr

namespace LexicalError

def message : LexicalError → Bytes
  | .unterminatedString => "unterminated string"
  | .invalidEscape code => "invalid escape sequence: \\" ++ Utf8.encode code
  | .unexpectedCharacter code => "unexpected character '" ++ Utf8.encode code ++ "'"

end LexicalError

def isSymbolCode (code : Nat) : Bool :=
  isLetter code || isDigit code || code == '-'.toNat || code == '_'.toNat

/-- Whether a text is the spelling of a symbol. -/
def isSymbolText (text : Bytes) : Bool :=
  match Utf8.glyphs text with
  | [] => false
  | g :: rest => isLetter g.code && rest.all fun g => isSymbolCode g.code

/-- What the scanner has seen of the token under way: where it began and its
    bytes so far, last byte first. -/
inductive Scan where
  | blank
  | comment
  | symbol (start : Nat) (seen : Bytes)
  | sign (start : Nat) (seen : Bytes)
  | integer (start : Nat) (seen : Bytes)
  | string (start : Nat) (seen : Bytes)
  | escape (start : Nat) (seen : Bytes)
  | dots (start : Nat) (count : Nat)
  deriving DecidableEq, Repr

namespace Scan

/-- Tokens completed by a step, and the state after it unless the text is in error. -/
abbrev Step := List Token × Except LexicalError Scan

/-- The state after the first glyph of a token, or the token when one glyph is all of it. -/
def begin (offset : Nat) (g : Glyph) : Step :=
  let code := g.code
  if isBlank code then ([], .ok .blank)
  else match Punct.ofCode? code with
    | some mark => ([⟨.punct mark, offset⟩], .ok .blank)
    | none =>
      if code = ';'.toNat then ([], .ok .comment)
      else if code = '"'.toNat then ([], .ok (.string offset []))
      else if code = '.'.toNat then ([], .ok (.dots offset 1))
      else if isLetter code then ([], .ok (.symbol offset g.bytes.reverse))
      else if isAsciiDigit code then ([], .ok (.integer offset g.bytes.reverse))
      else if code = '+'.toNat || code = '-'.toNat then ([], .ok (.sign offset g.bytes.reverse))
      else ([], .error (.unexpectedCharacter code))

/-- Ends the token under way before the glyph that `next` begins with. -/
def yield (lexeme : Lexeme) (start : Nat) (next : Step) : Step :=
  (⟨lexeme, start⟩ :: next.1, next.2)

/-- One more glyph. A token that has no closing mark ends at the first glyph that
    cannot continue it, and that glyph begins the next one. -/
def feed (offset : Nat) (g : Glyph) : Scan → Step
  | .blank => begin offset g
  | .comment =>
    if g.code = '\n'.toNat || g.code = '\r'.toNat || g.code = 0 then begin offset g
    else ([], .ok .comment)
  | .symbol start seen =>
    if isSymbolCode g.code then ([], .ok (.symbol start (g.bytes.reverse ++ seen)))
    else yield (.symbol seen.reverse) start (begin offset g)
  | .sign start seen =>
    if isAsciiDigit g.code then ([], .ok (.integer start (g.bytes.reverse ++ seen)))
    else yield (.symbol seen.reverse) start (begin offset g)
  | .integer start seen =>
    if isAsciiDigit g.code then ([], .ok (.integer start (g.bytes.reverse ++ seen)))
    else yield (.integer seen.reverse) start (begin offset g)
  | .string start seen =>
    if g.code = '"'.toNat then ([⟨.string seen.reverse, start⟩], .ok .blank)
    else if g.code = 0 then ([], .error .unterminatedString)
    else if g.code = '\\'.toNat then ([], .ok (.escape start seen))
    else ([], .ok (.string start (g.bytes.reverse ++ seen)))
  | .escape start seen =>
    if g.code = '"'.toNat || g.code = '\\'.toNat then
      ([], .ok (.string start (g.bytes.reverse ++ seen)))
    else ([], .error (.invalidEscape g.code))
  | .dots start count =>
    if g.code = '.'.toNat then
      if count = 2 then ([⟨.ellipsis, start⟩], .ok .blank) else ([], .ok (.dots start (count + 1)))
    else ([], .error (.unexpectedCharacter '.'.toNat))

def close : Scan → List Token × Option LexicalError
  | .blank | .comment => ([], none)
  | .symbol start seen | .sign start seen => ([⟨.symbol seen.reverse, start⟩], none)
  | .integer start seen => ([⟨.integer seen.reverse, start⟩], none)
  | .string .. => ([], some .unterminatedString)
  | .escape .. => ([], some (.invalidEscape 0))
  | .dots .. => ([], some (.unexpectedCharacter '.'.toNat))

def run (state : Scan) (offset : Nat) : List Glyph → List Token × Option LexicalError
  | [] => state.close
  | g :: rest =>
    match state.feed offset g with
    | (tokens, .error e) => (tokens, some e)
    | (tokens, .ok next) =>
      let (more, failure) := run next (offset + g.bytes.length) rest
      (tokens ++ more, failure)

end Scan

/-- The tokens of a text, the error that cut them short if there is one, and the
    length of the text, which is where its end stands. -/
structure Lexed where
  tokens : List Token
  failure : Option LexicalError
  length : Nat
  deriving DecidableEq, Repr

/-- The scanner. -/
def scan (text : Bytes) : Lexed :=
  let (tokens, failure) := Scan.run .blank 0 (Utf8.glyphs text)
  ⟨tokens, failure, text.length⟩

end Codegen.Sexpr
