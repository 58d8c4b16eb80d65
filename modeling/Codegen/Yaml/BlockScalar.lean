import Codegen.Yaml.Scalar

/-!
# Scalars of Several Lines

A scalar may be written on lines of its own, below a bar or an angle bracket. The
lines after a bar are kept as they are. After an angle bracket a line end between
two lines counts as a space, unless one of them begins with space. What becomes
of the line ends at the end can be said in the header, and so can the
indentation, which is otherwise the one of the first line.
-/

namespace Codegen.Yaml

/-- What becomes of the line ends at the end: one is kept, none or all. -/
inductive Chomping where
  | clip
  | strip
  | keep
  deriving DecidableEq, Repr

/-- What the first line of a scalar says: how its end is treated, and by how much
    it is indented, if it says so. -/
structure BlockHeader where
  chomping : Chomping := .clip
  increment : Option Nat := none
  deriving DecidableEq, Repr

namespace BlockHeader

def chomp (h : BlockHeader) (c : Cursor) : BlockHeader × Cursor :=
  if c.text.head? = some '+' then ({ h with chomping := .keep }, c.skip 1)
  else if c.text.head? = some '-' then ({ h with chomping := .strip }, c.skip 1)
  else (h, c)

def indent (h : BlockHeader) (c : Cursor) : Except Cause (BlockHeader × Cursor) :=
  match c.text with
  | '0' :: _ => .error .zeroIndentation
  | d :: _ =>
    if d.isDigit then .ok ({ h with increment := some (d.toNat - '0'.toNat) }, c.skip 1)
    else .ok (h, c)
  | [] => .ok (h, c)

end BlockHeader

/-- Reads the first line of a scalar, after the character that begins it. Its two
    parts come in any order, and a comment may follow. -/
def blockHeader (c : Cursor) : Except Cause (BlockHeader × Cursor) := do
  let (h, d) := BlockHeader.chomp {} c
  let (h, e) ← h.indent d
  let (h, e) := if d.text.length = c.text.length then h.chomp e else (h, e)
  let e := e.skipComment.skipBlanks
  if atBreak e.text then return (h, e.skip 1) else throw .headerEnd

/-- The space before a line with text: the column that it reaches at most, and the
    line ends, latest first. -/
structure BlockLead where
  reached : Nat := 0
  breaks : List Char := []
  deriving DecidableEq, Repr

/-- Moves past indentation and empty lines of a scalar that began on a line. No more
    than `indent` columns of a line are indentation, when that is known. -/
def blockLead (start : Nat) (indent : Option Nat) (lead : BlockLead) (p : Position) :
    List Char → Except Error (BlockLead × Cursor)
  | [] => .ok ({ lead with reached := max lead.reached p.column }, ⟨[], p⟩)
  | c :: rest =>
    let within := indent.all fun n => p.column < n
    if within && c = ' ' then blockLead start indent lead (p.past c) rest
    else
      let reached := max lead.reached p.column
      if within && c = '\t' then .error (.inToken .tabInBlock start p.line)
      else if isBreak c then
        blockLead start indent { reached, breaks := c :: lead.breaks } (p.past c) rest
      else .ok ({ lead with reached }, ⟨c :: rest, p⟩)

/-- The lines of a scalar so far, backward, and the line ends after them: the one
    that ends the last line, and those of empty lines, latest first. -/
structure BlockText where
  value : List Char := []
  first : Option Char := none
  breaks : List Char := []
  indented : Bool := false
  deriving DecidableEq, Repr

namespace BlockText

def add (t : BlockText) (literal : Bool) (line : List Char) : BlockText :=
  let indented := line.head?.any isBlank
  let joint :=
    if !literal && !t.indented && !indented && t.first = some '\n' then
      if t.breaks.isEmpty then [' '] else []
    else t.first.toList
  { value := line.reverse ++ (t.breaks ++ (joint ++ t.value)), indented }

def finish (t : BlockText) (chomping : Chomping) : List Char :=
  match chomping with
  | .strip => t.value.reverse
  | .clip => t.value.reverse ++ t.first.toList
  | .keep => t.value.reverse ++ (t.first.toList ++ t.breaks.reverse)

end BlockText

/-- Reads lines that are indented by `indent` columns. Every line has a character
    at least, so that the length of the text is enough fuel. -/
def blockLines (literal : Bool) (start indent : Nat) :
    Nat → BlockText → Cursor → Except Error (BlockText × Cursor)
  | 0, t, c => .ok (t, c)
  | fuel + 1, t, c =>
    if c.column != indent || c.text.isEmpty then .ok (t, c)
    else do
      let line := c.text.takeWhile fun b => !isBreak b
      let c := c.skip line.length
      let first := c.text.head?
      let c := c.skip 1
      let (lead, c) ← blockLead start (some indent) {} c.position c.text
      blockLines literal start indent fuel { t.add literal line with first, breaks := lead.breaks } c

/-- Reads a scalar, after the character that begins it. Its lines are indented by
    `least` columns at least. -/
def blockScalar (literal : Bool) (least start : Nat) (c : Cursor) : Except Error Scanned := do
  let (header, c) ← (blockHeader c).mapError fun cause => .inToken cause start start
  let known := header.increment.map fun n => (least - 1) + n
  let (lead, c) ← blockLead start known {} c.position c.text
  let indent := known.getD (max (max lead.reached least) 1)
  let (t, c) ← blockLines literal start indent c.text.length { breaks := lead.breaks } c
  return { value := t.finish header.chomping, rest := c }

end Codegen.Yaml
