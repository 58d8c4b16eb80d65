import Codegen.Yaml.BlockScalar
import Codegen.Yaml.Directive
import Codegen.Yaml.Source

/-!
# Tokens of YAML Text

Indentation is turned into tokens that open and close collections. A scalar, or
what comes before one, may turn out to begin a key only when the colon after it is
met, on the same line and not too far away; then the tokens that say so are put in
before it.

The tokens come in one list. When a text stops being YAML, the list ends in a
token that holds the error. A token is of use only when the two after it are
there, and when it is settled whether a key begins with it; so the list ends
before the first token of which that cannot be said.
-/

namespace Codegen.Yaml

/-- The kinds of tokens. -/
inductive Token.Kind where
  | directive (directive : Directive)
  | documentStart
  | documentEnd
  | sequenceStart
  | mappingStart
  | blockEnd
  | flowSequenceStart
  | flowSequenceEnd
  | flowMappingStart
  | flowMappingEnd
  | blockEntry
  | flowEntry
  | key
  | value
  | anchor (name : Bytes)
  | alias (name : Bytes)
  | tag (tag : Shorthand)
  | scalar (plain : Bool) (text : Bytes)
  | streamEnd
  | broken (error : Error)
  deriving DecidableEq, Repr

/-- A token, with the line where it begins. -/
structure Token where
  kind : Token.Kind
  line : Nat
  deriving DecidableEq, Repr

/-- A place where a key may have begun: the number of tokens before it. It is
    required where nothing but a key can stand. -/
structure SimpleKey where
  index : Nat
  position : Position
  required : Bool
  deriving DecidableEq, Repr

/-- How many characters the colon may be away from the beginning of its key. -/
def SimpleKey.reach : Nat := 1024

def SimpleKey.isOpen (key : SimpleKey) (p : Position) : Bool :=
  p.line ≤ key.position.line && p.index ≤ key.position.index + SimpleKey.reach

/-- The state between tokens. There is one place for a key per level of flow
    collections; the columns of block collections are listed from the innermost
    outward. -/
structure Scanner where
  cursor : Cursor
  tokens : Array Token := #[]
  indents : List Nat := []
  keyAllowed : Bool := true
  keys : List (Option SimpleKey) := [none]
  deriving DecidableEq, Repr

namespace Scanner

def maxDepth : Nat := 10000

def flow (s : Scanner) : Bool := 1 < s.keys.length

def line (s : Scanner) : Nat := s.cursor.line

def fault (s : Scanner) (cause : Cause) : Error := .inToken cause s.line s.line

def add (kind : Token.Kind) (s : Scanner) : Scanner :=
  { s with tokens := s.tokens.push ⟨kind, s.line⟩ }

/-- Puts a token in after the first `index` ones. -/
def insert (index : Nat) (token : Token) (s : Scanner) : Scanner :=
  { s with tokens := s.tokens.insertIdxIfInBounds index token }

def skip (n : Nat) (s : Scanner) : Scanner := { s with cursor := s.cursor.skip n }

/-- The parts of the space between tokens: blank characters, a comment, and the
    space between two comments. -/
inductive Space where
  | blank
  | comment
  | between
  deriving DecidableEq, Repr

def beforeComment (text : List Char) : Bool :=
  (text.dropWhile fun c => isBlank c || isBreak c).head? = some '#'

/-- Moves past space and comments to the next token. A tab is no indentation where
    a key can begin, unless it stands between two comments; a line end lets a key
    begin outside of flow collections. A line may begin with a byte order mark. -/
def skipSpace (flow : Bool) (space : Space) (keyAllowed : Bool) (p : Position) :
    List Char → Cursor × Bool
  | [] => (⟨[], p⟩, keyAllowed)
  | c :: rest =>
    if isBreak c then
      let next := if space != .blank && beforeComment rest then .between else .blank
      skipSpace flow next (keyAllowed || !flow) (p.past c) rest
    else if space = .comment || c = '#' then skipSpace flow .comment keyAllowed (p.past c) rest
    else if c = ' ' || (c = '\t' && (flow || !keyAllowed || space = .between))
        || (c = '\uFEFF' && p.column = 0) then
      skipSpace flow space keyAllowed (p.past c) rest
    else (⟨c :: rest, p⟩, keyAllowed)

def toToken (s : Scanner) : Scanner :=
  let (cursor, keyAllowed) := skipSpace s.flow .blank s.keyAllowed s.cursor.position s.cursor.text
  { s with cursor, keyAllowed }

/-- Ends the block collections that are indented further than a column; all of them
    when there is none. -/
def unroll (column : Option Nat) (s : Scanner) : Scanner :=
  if s.flow then s
  else
    let ended := s.indents.takeWhile fun indent => column.all fun c => c < indent
    { s with
      indents := s.indents.drop ended.length
      tokens := s.tokens ++ ended.map fun _ => (⟨.blockEnd, s.line⟩ : Token) }

/-- Begins a block collection at a column, unless one begins there or further in. -/
def roll (column index line : Nat) (kind : Token.Kind) (s : Scanner) : Except Error Scanner :=
  if s.flow || s.indents.head?.any (fun indent => column ≤ indent) then .ok s
  else if s.indents.length = maxDepth then .error (s.fault .tooDeep)
  else .ok { (s.insert index ⟨kind, line⟩) with indents := column :: s.indents }

/-- The error of a key without a colon. -/
def missingColon (s : Scanner) (key : SimpleKey) : Error :=
  .inToken .missingColon key.position.line s.line

def dropKey (s : Scanner) : Except Error Scanner :=
  match s.keys with
  | some key :: outer =>
    if key.required then .error (s.missingColon key) else .ok { s with keys := none :: outer }
  | _ => .ok s

def saveKey (s : Scanner) : Except Error Scanner :=
  if s.keyAllowed then do
    let s ← s.dropKey
    let p := s.cursor.position
    let required := !s.flow && s.indents.head? = some p.column
    return { s with keys := some ⟨s.tokens.size, p, required⟩ :: s.keys.drop 1 }
  else .ok s

def currentKey (s : Scanner) : Except Error (Option SimpleKey) :=
  match s.keys with
  | some key :: _ =>
    if key.isOpen s.cursor.position then .ok (some key)
    else if key.required then .error (s.missingColon key)
    else .ok none
  | _ => .ok none

/-- Whether nothing of the document can go on here: at the end of the text, and at
    a marker or a directive. -/
def atBoundary (s : Scanner) : Bool :=
  let text := s.cursor.text
  text.isEmpty || (s.cursor.column = 0 && (text.head? = some '%' || atMarker text))

/-- Ends the block collections that the next token is not part of. -/
def settle (s : Scanner) : Scanner :=
  s.unroll (if s.atBoundary then none else some s.cursor.column)

def marker (kind : Token.Kind) (s : Scanner) : Except Error Scanner := do
  let s ← s.dropKey
  return ({ s with keyAllowed := false }.add kind).skip 3

def takeDirective (s : Scanner) : Except Error Scanner := do
  let s ← s.dropKey
  let (directive, cursor) ← (Directive.read (s.cursor.skip 1)).mapError s.fault
  return { (s.add (.directive directive)) with cursor, keyAllowed := false }

def openFlow (kind : Token.Kind) (s : Scanner) : Except Error Scanner := do
  let s ← s.saveKey
  if maxDepth < s.keys.length then throw (s.fault .tooDeep)
  return ({ s with keys := none :: s.keys, keyAllowed := true }.add kind).skip 1

def closeFlow (kind : Token.Kind) (s : Scanner) : Except Error Scanner := do
  let s ← s.dropKey
  let keys := if s.flow then s.keys.drop 1 else s.keys
  return ({ s with keys, keyAllowed := false }.add kind).skip 1

def comma (s : Scanner) : Except Error Scanner := do
  let s ← s.dropKey
  return ({ s with keyAllowed := true }.add .flowEntry).skip 1

/-- Takes a dash or a question mark, which begin an entry or a key on their own. -/
def indicator (kind start : Token.Kind) (refusal : Cause) (s : Scanner) : Except Error Scanner := do
  if !s.flow && !s.keyAllowed then throw (s.fault refusal)
  let s ← s.roll s.cursor.column s.tokens.size s.line start
  let s ← s.dropKey
  let keyAllowed := kind = .blockEntry || !s.flow
  return ({ s with keyAllowed }.add kind).skip 1

def colon (s : Scanner) : Except Error Scanner := do
  match ← s.currentKey with
  | some key =>
    let place := key.position
    let s := s.insert key.index ⟨.key, place.line⟩
    let s ← s.roll place.column key.index place.line .mappingStart
    return ({ s with keys := none :: s.keys.drop 1, keyAllowed := false }.add .value).skip 1
  | none =>
    if !s.flow && !s.keyAllowed then throw (s.fault .valueNotAllowed)
    let s ← s.roll s.cursor.column s.tokens.size s.line .mappingStart
    return ({ s with keys := none :: s.keys.drop 1, keyAllowed := !s.flow }.add .value).skip 1

def takeAnchor (kind : Bytes → Token.Kind) (s : Scanner) : Except Error Scanner := do
  let s ← s.saveKey
  let name ← (anchorName (s.cursor.text.drop 1)).mapError s.fault
  return ({ s with keyAllowed := false }.add (kind (bytesOf name))).skip (name.length + 1)

def takeTag (s : Scanner) : Except Error Scanner := do
  let s ← s.saveKey
  let (tag, rest) ← (Shorthand.read s.cursor.text).mapError s.fault
  return { (s.add (.tag tag)) with cursor := s.cursor.skipTo rest, keyAllowed := false }

/-- How far lines of the present collection are indented at least. -/
def least (s : Scanner) : Nat := (s.indents.head?.map (· + 1)).getD 0

def takeBlock (literal : Bool) (s : Scanner) : Except Error Scanner := do
  let s ← s.dropKey
  let r ← blockScalar literal s.least s.line (s.cursor.skip 1)
  return { (s.add (.scalar false (bytesOf r.value))) with cursor := r.rest, keyAllowed := true }

def takeQuoted (single : Bool) (s : Scanner) : Except Error Scanner := do
  let s ← s.saveKey
  let c := s.cursor.skip 1
  let r ← quoted single s.line s.cursor.text.length [] {} c.position c.text
  return { (s.add (.scalar false (bytesOf r.value))) with cursor := r.rest, keyAllowed := false }

def takePlain (s : Scanner) : Except Error Scanner := do
  let s ← s.saveKey
  let r ← plain s.flow s.least s.line [] {} s.cursor.position s.cursor.text
  return { (s.add (.scalar true (bytesOf r.value))) with cursor := r.rest, keyAllowed := r.folded }

/-- Whether a plain scalar can begin with a character, given what follows it. -/
def startsPlain (flow : Bool) (c : Char) (rest : List Char) : Bool :=
  if c = '?' || c = ':' then !flow && !atBlank rest
  else !",[]\x7b\x7d#&*!|>'\"%@`\t".toList.contains c

def take (c : Char) (rest : List Char) (s : Scanner) : Except Error Scanner :=
  if s.cursor.column = 0 && c = '%' then s.takeDirective
  else if s.cursor.column = 0 && atMarker (c :: rest) then
    s.marker (if c = '-' then .documentStart else .documentEnd)
  else if c = '[' then s.openFlow .flowSequenceStart
  else if c = '\x7b' then s.openFlow .flowMappingStart
  else if c = ']' then s.closeFlow .flowSequenceEnd
  else if c = '\x7d' then s.closeFlow .flowMappingEnd
  else if c = ',' then s.comma
  else if c = '-' && atBlank rest then s.indicator .blockEntry .sequenceStart .entryNotAllowed
  else if c = '?' && (s.flow || atBlank rest) then s.indicator .key .mappingStart .keyNotAllowed
  else if c = ':' && (s.flow || atBlank rest) then s.colon
  else if c = '*' then s.takeAnchor .alias
  else if c = '&' then s.takeAnchor .anchor
  else if c = '!' then s.takeTag
  else if c = '|' && !s.flow then s.takeBlock true
  else if c = '>' && !s.flow then s.takeBlock false
  else if c = '\x27' then s.takeQuoted true
  else if c = '"' then s.takeQuoted false
  else if startsPlain s.flow c rest then s.takePlain
  else .error (s.fault .cannotStart)

/-- Moves past a comment on the line of the last token. One that follows a dash
    belongs to what comes next. -/
def afterToken (s : Scanner) : Scanner :=
  if (s.tokens.back?.map Token.kind) = some .blockEntry then s
  else { s with cursor := s.cursor.skipComment }

/-- The tokens that can be used when no more than the first `count` of them can. -/
def brokenAfter (count : Nat) (e : Error) (s : Scanner) : List Token :=
  (s.tokens.toList.take count) ++ [⟨.broken e, s.line⟩]

/-- The tokens that can be used when what follows them is broken: neither the last
    two, nor those from one on that may begin a key at the place before. -/
def stop (e : Error) (before s : Scanner) : List Token :=
  let pending := before.keys.filterMap fun key =>
    key.bind fun key => if key.isOpen before.cursor.position then some key.index else none
  s.brokenAfter (pending.foldl min (s.tokens.size - 2)) e

/-- A key that is required around the present flow collections and can no longer be
    one. -/
def lostKey? (s : Scanner) : Option SimpleKey :=
  (s.keys.drop 1).findSome? fun key =>
    key.bind fun key => if key.required && !key.isOpen s.cursor.position then some key else none

/-- The place of the end of the text, which is the beginning of a line. -/
def lastLine (s : Scanner) : Scanner :=
  let p := s.cursor.position
  if p.column = 0 then s else { s with cursor := ⟨[], ⟨p.index, p.line + 1, 0⟩⟩ }

/-- The tokens of the rest of a text. Every step takes a character at least, so that
    the length of the text is enough fuel. -/
def run : Nat → Scanner → List Token
  | 0, s => s.tokens.toList
  | fuel + 1, s =>
    let t := s.toToken.settle
    match t.cursor.text with
    | [] =>
      match t.lastLine.dropKey with
      | .ok t => (t.add .streamEnd).tokens.toList
      | .error e => stop e s t
    | c :: rest =>
      match t.take c rest with
      | .error e => stop e s t
      | .ok u =>
        match u.lostKey? with
        | some key => u.brokenAfter key.index (u.missingColon key)
        | none => run fuel u.afterToken

end Scanner

/-- The tokens of a text. -/
def Token.scan (source : Bytes) : List Token :=
  match Source.characters source with
  | .error cause => [⟨.broken { cause }, 0⟩]
  | .ok text => Scanner.run (text.length + 1) { cursor := { text } }

end Codegen.Yaml
