import Codegen.Text.Ascii
import Codegen.Text.Blank
import Codegen.Text.Punctuation

/-!
# Emphasis

A run of asterisks or underscores can open emphasis, close it, or both, depending
on its neighbours. Runs are paired from the left: a closing run takes the nearest
run before it that can open, and two marks of each are used up when both have
them, else one. Marks that are not used up are text, and so are all runs between
the two of a pair.
-/

namespace Codegen.Markdown

/-- A run of marks; `length` of its `count` marks are not used up. -/
structure Run where
  mark : UInt8
  count : Nat
  length : Nat
  opens : Bool
  closes : Bool
  deriving DecidableEq, Repr

namespace Run

/-- A run of marks between two characters. Underscores do not open or close
    emphasis within a word. -/
def between (mark : UInt8) (length before after : Nat) : Run :=
  let left := !isBlank after && (!isPunctuation after || isBlank before || isPunctuation before)
  let right := !isBlank before && (!isPunctuation before || isBlank after || isPunctuation after)
  let within := mark = Ascii.byte '_'
  { mark, count := length, length
    opens := left && (!within || !right || isPunctuation before)
    closes := right && (!within || !left || isPunctuation after) }

def text (r : Run) : Bytes := List.replicate r.length r.mark

def take (r : Run) (n : Nat) : Run := { r with length := r.length - n }

/-- How many marks of each a pair uses up; none when the lengths of runs that both
    open and close add up to a multiple of three. -/
def consumption (opener closer : Run) : Nat :=
  if (opener.closes || closer.opens) && (opener.count + closer.count) % 3 = 0
      && closer.count % 3 != 0 then 0
  else if 2 ≤ opener.length && 2 ≤ closer.length then 2
  else 1

def pairsWith (opener closer : Run) : Bool :=
  opener.opens && opener.mark = closer.mark && 0 < opener.consumption closer

end Run

/-- A piece of a line of text. A bracket may still become part of a link; it keeps
    the text after it. The text of a link or an image stands in a group. -/
inductive Piece where
  | text (bytes : Bytes)
  | code (bytes : Bytes)
  | run (run : Run)
  | bracket (image : Bool) (rest : Bytes)
  | group (hasLink : Bool) (bytes : Bytes)
  deriving DecidableEq, Repr

namespace Piece

def plainOne : Piece → Bytes
  | .text bytes | .code bytes | .group _ bytes => bytes
  | .run r => r.text
  | .bracket image _ => if image then "![" else "["

/-- The text of pieces. -/
def plain (ps : List Piece) : Bytes := ps.flatMap plainOne

/-- A run as text; any other piece as it is. -/
def settled : Piece → Piece
  | .run r => .text r.text
  | p => p

/-- Splits pieces, latest first, at the latest run that another can close. -/
def opener? (closer : Run) : List Piece → Option (List Piece × Run × List Piece)
  | [] => none
  | .run r :: rest =>
    if r.pairsWith closer then some ([], r, rest)
    else (opener? closer rest).map fun (inner, o, before) => (.run r :: inner, o, before)
  | p :: rest => (opener? closer rest).map fun (inner, o, before) => (p :: inner, o, before)

/-- Pairs a closing run with runs before it, latest first, as long as it has marks
    and there is one to pair it with. -/
def close : Nat → Run → List Piece → List Piece
  | 0, _, before => before
  | fuel + 1, closer, before =>
    if closer.length = 0 then before
    else match opener? closer before with
      | none => (if closer.opens then .run closer else .text closer.text) :: before
      | some (inner, o, outer) =>
        let n := o.consumption closer
        let left := o.take n
        let outer := if left.length = 0 then outer else .run left :: outer
        close fuel (closer.take n) (inner.map settled ++ outer)

/-- Adds a piece to pieces, latest first, and pairs it when it is a closing run. -/
def add (before : List Piece) : Piece → List Piece
  | .run r => if r.closes then close (r.length + 1) r before else .run r :: before
  | p => p :: before

/-- The pieces with all pairs of runs used up. -/
def pair (ps : List Piece) : List Piece := (ps.foldl add []).reverse

end Piece

end Codegen.Markdown
