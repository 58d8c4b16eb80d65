import Codegen.Sexpr.Token

/-!
# Reading S-expression Documents

A document is one datum and nothing after it:

    datum = symbol | string | integer | ... | list | map
    list  = ( item* )        item = datum | ^ map
    map   = { } or { symbol : datum , symbol : datum ... }, with an optional last comma

The reader is a pushdown automaton. Its stack says what becomes of the datum
under way: the next item of a list, the value of a key, or more metadata of a
list. Each token is one `State.step`, so reading is a fold over the tokens with
neither fuel nor backtracking, and reading a printed datum does exactly what
pushing that datum does.

Several metadata maps in one list are merged. A key keeps the place of its first
occurrence and the value of its last.

The reader looks one token ahead. A lexical error is reported as soon as it is
the current or the next token, whatever else is wrong, because it may be the
cause of a confusing error of structure.
-/

namespace Codegen.Sexpr

/-- What the grammar allows at a point. -/
inductive Expectation where
  | datum | mapAfterCaret | closeList | key | colon | separator | closeMap | finish
  deriving DecidableEq, Repr

/-- Why a text is no document. -/
inductive ReadError where
  | lexical (cause : LexicalError)
  | unexpected (found : Token) (wanted : Expectation)
  deriving DecidableEq, Repr

namespace ReadError

/-- The part of a message between the offset and the token that was found. -/
def complaint : Expectation → Bytes
  | .datum => "unexpected token: "
  | .mapAfterCaret => "expected '\x7b' after '^' but got "
  | .closeList => "expected ')' but got "
  | .key => "expected symbol for map key but got "
  | .colon => "expected ':' after map key but got "
  | .separator => "expected ',' or '\x7d' in map but got "
  | .closeMap => "expected '\x7d' but got "
  | .finish => "expected EOF but got "

def message : ReadError → Bytes
  | .lexical cause => cause.message
  | .unexpected found wanted =>
    "offset " ++ Bytes.ofNat found.offset ++ ": " ++ complaint wanted ++ found.lexeme.describe

end ReadError

abbrev Entries := List (Bytes × Datum)

/-- Metadata with one more entry: a known key takes the new value where it
    stands, a new key goes to the end. -/
def mergeEntry (entries : Entries) (key : Bytes) (value : Datum) : Entries :=
  match entries with
  | [] => [(key, value)]
  | (k, v) :: rest => if k = key then (k, value) :: rest else (k, v) :: mergeEntry rest key value

/-- Metadata added to metadata. -/
def merge (entries added : Entries) : Entries :=
  added.foldl (fun es e => mergeEntry es e.1 e.2) entries

/-- What becomes of the datum under way. Items and entries of a map are kept last first. -/
inductive Frame where
  | item (items : List Datum) (notes : Entries)
  | value (entries : Entries) (key : Bytes)
  | note (items : List Datum) (notes : Entries)
  deriving Repr

/-- Where the reader stands. -/
inductive State where
  | datum (stack : List Frame)
  | inList (items : List Datum) (notes : Entries) (stack : List Frame)
  | afterCaret (items : List Datum) (notes : Entries) (stack : List Frame)
  | inMap (entries : Entries) (stack : List Frame)
  | afterKey (entries : Entries) (key : Bytes) (stack : List Frame)
  | afterValue (entries : Entries) (stack : List Frame)
  | done (result : Datum)
  deriving Repr

namespace State

def deliver (d : Datum) : List Frame → State
  | [] => .done d
  | .item items notes :: stack => .inList (d :: items) notes stack
  | .value entries key :: stack => .afterValue ((key, d) :: entries) stack
  | .note items notes :: stack => .inList items notes stack

def closeList (items : List Datum) (notes : Entries) (stack : List Frame) : State :=
  deliver (.list items.reverse (notes.map Prod.fst) (notes.map Prod.snd)) stack

/-- Ends a map: metadata of the list that waits for it, or a datum. -/
def closeMap (entries : Entries) : List Frame → State
  | .note items notes :: stack => .inList items (merge notes entries.reverse) stack
  | stack =>
    deliver (.map (entries.reverse.map Prod.fst) (entries.reverse.map Prod.snd)) stack

def begin (token : Token) (stack : List Frame) : Except ReadError State :=
  match token.lexeme with
  | .symbol text => .ok (deliver (.symbol text) stack)
  | .string text => .ok (deliver (.string text) stack)
  | .integer text => .ok (deliver (.integer text) stack)
  | .ellipsis => .ok (deliver .ellipsis stack)
  | .punct .openList => .ok (.inList [] [] stack)
  | .punct .openMap => .ok (.inMap [] stack)
  | _ => .error (.unexpected token .datum)

/-- One token. -/
def step (token : Token) : State → Except ReadError State
  | .datum stack => begin token stack
  | .inList items notes stack =>
    match token.lexeme with
    | .punct .closeList => .ok (closeList items notes stack)
    | .punct .caret => .ok (.afterCaret items notes stack)
    | .finish => .error (.unexpected token .closeList)
    | _ => begin token (.item items notes :: stack)
  | .afterCaret items notes stack =>
    match token.lexeme with
    | .punct .openMap => .ok (.inMap [] (.note items notes :: stack))
    | _ => .error (.unexpected token .mapAfterCaret)
  | .inMap entries stack =>
    match token.lexeme with
    | .punct .closeMap => .ok (closeMap entries stack)
    | .symbol key => .ok (.afterKey entries key stack)
    | .finish => .error (.unexpected token .closeMap)
    | _ => .error (.unexpected token .key)
  | .afterKey entries key stack =>
    match token.lexeme with
    | .punct .colon => .ok (.datum (.value entries key :: stack))
    | _ => .error (.unexpected token .colon)
  | .afterValue entries stack =>
    match token.lexeme with
    | .punct .comma => .ok (.inMap entries stack)
    | .punct .closeMap => .ok (closeMap entries stack)
    | _ => .error (.unexpected token .separator)
  | .done _ => .error (.unexpected token .finish)

end State

/-- How far the reader got: its result, and the tokens it has not consumed, the
    current one first. -/
structure Halt where
  result : Except ReadError Datum
  remaining : List Token

/-- Runs the reader from a state. The token `finish` stands for the end of the text. -/
def State.run (finish : Token) : State → List Token → Halt
  | .done d, [] => ⟨.ok d, []⟩
  | .done _, t :: rest => ⟨.error (.unexpected t .finish), t :: rest⟩
  | state, [] =>
    match state.step finish with
    | .error e => ⟨.error e, []⟩
    | .ok _ => ⟨.error (.unexpected finish .datum), []⟩
  | state, t :: rest =>
    match state.step t with
    | .ok next => State.run finish next rest
    | .error e => ⟨.error e, t :: rest⟩

/-- The reader. -/
def read (text : Bytes) : Except ReadError Datum :=
  let lexed := scan text
  let halt := State.run ⟨.finish, lexed.length⟩ (.datum []) lexed.tokens
  match lexed.failure, halt.remaining with
  | some cause, [] | some cause, [_] => .error (.lexical cause)
  | _, _ => halt.result

end Codegen.Sexpr
