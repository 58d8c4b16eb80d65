import Codegen.Text.Bytes

/-!
# Data of S-expression Documents

A document is one datum. Atoms are symbols, strings, integers and the ellipsis,
which is a wildcard in patterns. Lists hold items and may carry metadata, maps
hold values under keys. Integers stay text: whoever consumes one knows which
range it needs.

Metadata and maps are a list of keys beside a list of values. The reader always
makes the two equally long; a datum built by other means may leave a key
without a value, and everything here gives such a key no effect. A datum of
unknown kind holds a numeric code only; the reader never makes one.
-/

namespace Codegen

/-- A datum. -/
inductive Datum where
  | symbol (text : Bytes)
  | string (text : Bytes)
  | integer (text : Bytes)
  | ellipsis
  | list (items : List Datum) (noteKeys : List Bytes) (notes : List Datum)
  | map (keys : List Bytes) (values : List Datum)
  | unknown (code : Int)
  deriving Repr, Inhabited

namespace Datum

/-- A list without metadata. -/
def plain (items : List Datum) : Datum := .list items [] []

/-- The kinds of data; `other` is a code that names none of them. -/
inductive Kind where
  | symbol | string | integer | ellipsis | list | map
  | other (code : Int)
  deriving DecidableEq, Repr

namespace Kind

def ofCode : Int → Kind
  | 0 => .symbol
  | 1 => .string
  | 2 => .integer
  | 3 => .ellipsis
  | 4 => .list
  | 5 => .map
  | code => .other code

def name : Kind → Bytes
  | .symbol => "symbol"
  | .string => "string"
  | .integer => "integer"
  | .ellipsis => "ellipsis"
  | .list => "list"
  | .map => "map"
  | .other code => "NodeType(" ++ Bytes.ofInt code ++ ")"

def isAtom : Kind → Bool
  | .symbol | .string | .integer | .ellipsis => true
  | _ => false

end Kind

def kind : Datum → Kind
  | .symbol _ => .symbol
  | .string _ => .string
  | .integer _ => .integer
  | .ellipsis => .ellipsis
  | .list .. => .list
  | .map .. => .map
  | .unknown code => .other code

def isAtom (d : Datum) : Bool := d.kind.isAtom

def noteEntries : Datum → List (Bytes × Datum)
  | .list _ keys notes => keys.zip notes
  | _ => []

/-- The metadata value under a key. -/
def note? (d : Datum) (key : Bytes) : Option Datum := d.noteEntries.lookup key

def escape (text : Bytes) : Bytes :=
  text.flatMap fun b =>
    if b = '\\'.toNat.toUInt8 then "\\\\" else if b = '"'.toNat.toUInt8 then "\\\"" else [b]

mutual

/-- The text of a datum. -/
def print : Datum → Bytes
  | .symbol text => text
  | .integer text => text
  | .string text => "\"" ++ escape text ++ "\""
  | .ellipsis => "..."
  | .list items [] _ => "(" ++ printItems [] items ++ ")"
  | .list items (key :: keys) notes =>
    "(^\x7b" ++ printEntries [] (key :: keys) notes ++ "\x7d" ++ printItems " " items ++ ")"
  | .map keys values => "\x7b" ++ printEntries [] keys values ++ "\x7d"
  | .unknown code => "UNKNOWN_NODE_TYPE_" ++ Bytes.ofInt code

/-- Items with a space between neighbours and `lead` before the first. -/
def printItems (lead : Bytes) : List Datum → Bytes
  | [] => []
  | d :: rest => lead ++ print d ++ printItems " " rest

/-- Keys with their values, as far as there are values. -/
def printEntries (lead : Bytes) : List Bytes → List Datum → Bytes
  | key :: keys, d :: rest => lead ++ key ++ ": " ++ print d ++ printEntries ", " keys rest
  | _, _ => []

end

end Datum

end Codegen
