import Codegen.Markdown.Definition
import Codegen.Markdown.Html
import Codegen.Markdown.Inline
import Codegen.Markdown.Marker

/-!
# Headings and Fenced Code

The headings and the fenced code of a document, in order, wherever they stand in
quotes and lists.

The reader keeps the containers that are open, from the outermost inward, and the
block in the innermost one. For each line it first finds out which containers go
on, then what the rest of the line begins. Text that begins nothing goes on with
an open paragraph even when a container does not go on.

A list item that has nothing in it when a blank line comes is stale, and as long as
no other item begins, no text can go on with a list.
-/

namespace Codegen.Markdown

/-- A block quote, or a list item with the last byte of its marker. Content of an item
    is indented by its offset; the item may have some already. -/
inductive Container where
  | quote
  | item (marker : UInt8) (offset : Nat) (filled : Bool)
  deriving DecidableEq, Repr

/-- How a container goes on with a line: with the rest of the line, with another item
    in place of this one, or not at all. -/
inductive Course where
  | inside (rest : Line)
  | sibling
  | over
  deriving DecidableEq, Repr

namespace Container

def isItem : Container → Bool
  | .item .. => true
  | .quote => false

/-- Whether the container is an item without content. -/
def isVacant : Container → Bool
  | .item _ _ filled => !filled
  | .quote => false

def fill : Container → Container
  | .item marker offset _ => .item marker offset true
  | .quote => .quote

/-- How a container goes on with a line. An item goes on with what is indented by its
    offset. Any other line has to be the next item of the same list, and for an item
    without content such an item comes first. -/
def follow (stale : Bool) : Container → Line → Course
  | .quote, l => match l.quote? with
    | some rest => .inside rest
    | none => .over
  | .item marker offset filled, l =>
    let indented := offset ≤ l.indent
    if l.isBlank then .inside l.lineEnd
    else if indented && filled then if stale then .over else .inside (l.dropColumns offset)
    else match if l.isFlush then l.listItem? else none with
      | some entry =>
        if entry.marker != marker || l.isBreak then .over
        else if indented && !stale then .inside (l.dropColumns offset)
        else .sibling
      | none =>
        if filled || !indented || stale then .over else .inside (l.dropColumns offset)

end Container

/-- The containers that go on with a line, what they leave of it, how the next one
    goes on when there is one, and whether an item is stale after the line. -/
structure Followed where
  going : List Container
  rest : Line
  next : Option Course
  stale : Bool
  deriving DecidableEq, Repr

def Container.followAll (stale : Bool) : List Container → Line → Followed
  | [], l => { going := [], rest := l, next := none, stale }
  | c :: inner, l =>
    match c.follow stale l with
    | .inside rest =>
      let f := followAll (stale || (l.isBlank && c.isVacant)) inner rest
      { f with going := c :: f.going }
    | course => { going := [], rest := l, next := some course, stale }

/-- The block in the innermost container. The lines of a paragraph and of fenced
    code are listed from the latest back. -/
inductive Leaf where
  | none
  | paragraph (lines : List TextLine)
  | fence (fence : Fence) (first : Option Nat) (body : List Bytes)
  | markup (ending : Html.Ending)
  deriving DecidableEq, Repr

/-- A heading, or fenced code with the number of its first line: that of the fence
    when there is no code. -/
inductive Block where
  | heading (text : Bytes)
  | fence (line : Nat) (language body : Bytes)
  deriving DecidableEq, Repr

/-- A heading with its markup, or fenced code. What is markup depends on which labels
    have a definition anywhere in the document. -/
inductive Draft where
  | heading (lines : List TextLine)
  | fence (line : Nat) (language body : Bytes)
  deriving DecidableEq, Repr

/-- A block without markup; `defined` says which labels have a definition. -/
def Draft.settle (defined : Bytes → Bool) : Draft → Block
  | .heading lines => .heading (Inline.plainText defined lines)
  | .fence line language body => .fence line language body

/-- The state between lines. Blocks and labels are listed from the latest back. -/
structure Reader where
  containers : List Container := []
  leaf : Leaf := .none
  stale : Bool := false
  blocks : List Draft := []
  labels : List Bytes := []
  deriving DecidableEq, Repr

/-- What a line begins. Markup may end on the line. -/
inductive Opening where
  | blank
  | underline
  | rule
  | code
  | heading (text : Bytes)
  | fence (fence : Fence)
  | markup (ending : Html.Ending) (ended : Bool)
  | text (line : TextLine)
  | quote (rest : Line)
  | item (item : ListItem)
  deriving DecidableEq, Repr

/-- Whether a list item can interrupt a paragraph: it is not empty, and its number
    is one when it has one. -/
def ListItem.interrupts (item : ListItem) : Bool := !item.empty && (item.start.getD 1 = 1)

namespace Opening

/-- The markup that a line begins. Only spaces can come before it. -/
def markup? (paragraph : Bool) (l : Line) : Option Opening := do
  let _ ← l.marked?
  let ending ← Html.block? paragraph (l.full.dropWhile (· = Line.space))
  return .markup ending (ending.within l.full)

/-- What a line begins. A paragraph may be open; it is `direct` when it stands in
    the container that the line is in. -/
def ofLine (paragraph direct : Bool) (l : Line) : Opening :=
  if l.isBlank then .blank
  else if !l.isFlush then if paragraph then .text l.trimmed else .code
  else if direct && l.isUnderline then .underline
  else if l.isBreak then .rule
  else match l.listItem?.filter fun entry => !direct || entry.interrupts with
    | some entry => .item entry
    | none =>
      match l.heading?, l.fence?, l.quote?, markup? paragraph l with
      | some title, _, _, _ => .heading title
      | _, some fenced, _, _ => .fence fenced
      | _, _, some rest, _ => .quote rest
      | _, _, _, some opening => opening
      | _, _, _, _ => .text l.trimmed

/-- The containers that a line begins, and what it begins in the innermost. The
    fuel is more than the length of the line. -/
def unfold : Nat → Opening → List Container × Opening
  | 0, _ => ([], .blank)
  | fuel + 1, .quote rest =>
    let (inner, opening) := unfold fuel (ofLine false false rest)
    (.quote :: inner, opening)
  | fuel + 1, .item entry =>
    if entry.empty then ([.item entry.marker entry.offset false], .blank)
    else
      let (inner, opening) := unfold fuel (ofLine false false entry.rest)
      (.item entry.marker entry.offset true :: inner, opening)
  | _, opening => ([], opening)

def isBlank : Opening → Bool
  | .blank => true
  | _ => false

end Opening

namespace Reader

/-- The lines of a paragraph in order, without the space at its end. -/
def paragraphLines (lines : List TextLine) : List TextLine :=
  match lines with
  | [] => []
  | last :: before => ({ last with bytes := Ascii.trimRight last.bytes } :: before).reverse

def closeLeaf (r : Reader) : Reader :=
  match r.leaf with
  | .paragraph lines =>
    let labels := (Definition.readAll (paragraphLines lines)).map fun d => Link.labelKey d.label
    { r with leaf := .none, labels := labels ++ r.labels }
  | .fence fence first body =>
    let block := .fence (first.getD fence.line) fence.language body.reverse.flatten
    { r with leaf := .none, blocks := block :: r.blocks }
  | _ => { r with leaf := .none }

def remaining (r : Reader) : List TextLine :=
  match r.leaf with
  | .paragraph lines =>
    let lines := paragraphLines lines
    Definition.without (Definition.readAll lines) lines
  | _ => []

def addHeading (lines : List TextLine) (r : Reader) : Reader :=
  { r with blocks := .heading lines :: r.blocks }

def begin (r : Reader) (going inner : List Container) (opening : Opening) : Reader :=
  let vacant := inner.isEmpty && opening.isBlank
  let outer := if vacant then going else going.map Container.fill
  let r :=
    { r.closeLeaf with containers := outer ++ inner, stale := r.stale && !inner.any Container.isItem }
  match opening with
  | .heading text => r.addHeading [{ before := Bytes.newline, bytes := text }]
  | .fence fence => { r with leaf := .fence fence none [] }
  | .markup ending ended => if ended then r else { r with leaf := .markup ending }
  | .text line => { r with leaf := .paragraph [line] }
  | _ => r

def start (r : Reader) (going : List Container) (opening : Opening) (l : Line) : Reader :=
  let (inner, opening) := opening.unfold (l.full.length + 2)
  r.begin going inner opening

/-- Reads a line, of which `rest` is left in the containers that go on, that is not
    part of fenced code or markup. The open paragraph is `direct` when all of them
    go on. -/
def read (r : Reader) (going : List Container) (direct : Bool) (rest : Line) : Reader :=
  match r.leaf with
  | .paragraph lines =>
    match Opening.ofLine true direct rest with
    | .text line => { r with leaf := .paragraph (line :: lines) }
    | .underline =>
      match r.remaining with
      | [] => r.start going (.ofLine false false rest) rest
      | text => (r.begin going [] .rule).addHeading text
    | opening => r.start going opening rest
  | _ => r.start going (.ofLine false false rest) rest

/-- Reads a line of which `rest` is left inside all containers. -/
def readInside (r : Reader) (rest : Line) : Reader :=
  match r.leaf with
  | .fence fence first body =>
    if fence.isClosedBy rest then r.closeLeaf
    else if rest.text.isEmpty then r
    else { r with leaf := .fence fence (first.or (some rest.number)) (fence.body rest :: body) }
  | .markup ending =>
    if ending.within rest.full || (ending = .blank && rest.isBlank) then r.closeLeaf else r
  | _ => r.read r.containers true rest

/-- Reads a line. -/
def step (r : Reader) (l : Line) : Reader :=
  let f := Container.followAll r.stale r.containers l
  let r := { r with stale := f.stale }
  match f.next, f.rest.listItem? with
  | none, _ => r.readInside f.rest
  | some .sibling, some entry => r.start f.going (.item entry) f.rest
  | some _, _ => r.read f.going false f.rest

end Reader

namespace Block

/-- The headings and the fenced code of a document. -/
def ofSource (source : Bytes) : List Block :=
  let r := ((Line.ofSource source).foldl Reader.step {}).closeLeaf
  (r.blocks.map (Draft.settle r.labels.contains)).reverse

end Block

end Codegen.Markdown
