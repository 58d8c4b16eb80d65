import Codegen.Yaml.Tag
import Codegen.Yaml.Token

/-!
# Trees of YAML Text

The first document of a text as a tree. What follows that document is not looked
at, apart from the tokens that are needed to see that it ends.
-/

namespace Codegen.Yaml

/-- A tree; every part has its line, counted from one, and its kind. An alias holds
    the part that it stands for. Within that very part it cannot: there it holds a
    part of the same kind without anything in it. -/
inductive Node where
  | scalar (line : Nat) (tag : Tag) (text : Bytes)
  | sequence (line : Nat) (tag : Tag) (items : List Node)
  | mapping (line : Nat) (tag : Tag) (entries : List (Node × Node))
  | alias (line : Nat) (name : Bytes) (within : Bool) (part : Node)
  deriving Repr

/-- What is known while a tree is read: the tokens to come, the parts that have
    names, with those that are not complete, and what the handles of tags stand
    for. -/
structure Reader where
  tokens : List Token
  anchors : List (Bytes × Bool × Node) := []
  handles : List (Bytes × Bytes) := []
  deriving Repr

namespace Node

def nothing (line : Nat) : Node := .scalar (line + 1) .null []

abbrev Reading := StateT Reader (Except Error)

def peek : Reading Token := do
  match (← get).tokens with
  | t :: _ =>
    match t.kind with
    | .broken e => throw e
    | _ => return t
  | [] => return ⟨.streamEnd, 0⟩

def advance : Reading Unit := modify fun r => { r with tokens := r.tokens.drop 1 }

def atAny (kinds : List Token.Kind) : Reading Bool := do return kinds.contains (← peek).kind

/-- Reads with `read`, or nothing where one of some kinds follows. -/
def orNothing (kinds : List Token.Kind) (line : Nat) (read : Reading Node) : Reading Node := do
  if ← atAny kinds then return nothing line else read

/-- The entries of a block sequence that began on a line. A sequence that is not
    indented ends where something else than an entry follows. -/
def blockEntries (read : Reading Node) (indented : Bool) (start : Nat) :
    Nat → List Node → Reading (List Node)
  | 0, items => return items.reverse
  | fuel + 1, items => do
    let t ← peek
    match t.kind with
    | .blockEntry =>
      advance
      let ends := if indented then [.blockEntry, .blockEnd] else [.blockEntry, .key, .value, .blockEnd]
      let item ← orNothing ends t.line read
      blockEntries read indented start fuel (item :: items)
    | .blockEnd =>
      if indented then advance
      return items.reverse
    | _ =>
      if indented then throw (.inCollection .sequenceEntry start t.line)
      else return items.reverse

def blockPairs (read : Reading Node) (start : Nat) :
    Nat → List (Node × Node) → Reading (List (Node × Node))
  | 0, entries => return entries.reverse
  | fuel + 1, entries => do
    let t ← peek
    match t.kind with
    | .blockEnd =>
      advance
      return entries.reverse
    | .key =>
      let ends := [.key, .value, .blockEnd]
      advance
      let key ← orNothing ends t.line read
      if ← atAny [.value] then
        advance
        let value ← orNothing ends t.line read
        blockPairs read start fuel ((key, value) :: entries)
      else blockPairs read start fuel ((key, nothing t.line) :: entries)
    | _ => throw (.inCollection .mappingKey start t.line)

/-- The value of an entry of a flow collection, when there is one. -/
def flowValue (read : Reading Node) (ends : List Token.Kind) (line : Nat) : Reading Node := do
  if ← atAny [.value] then
    advance
    orNothing ends line read
  else return nothing line

/-- Moves past the comma before any entry of a flow collection but the first. -/
def flowComma (first : Bool) (cause : Cause) (start : Nat) : Reading Unit := do
  let t ← peek
  if !first then
    if t.kind = .flowEntry then advance else throw (.inCollection cause start t.line)

/-- The only entry of a mapping that is written within a flow sequence without
    brackets of its own. The token after an empty key belongs to the key. -/
def flowPair (read : Reading Node) (line : Nat) : Reading (Node × Node) := do
  let ends := [.flowEntry, .flowSequenceEnd]
  let key ← if ← atAny (.value :: ends) then do advance; pure (nothing line) else read
  let value ← flowValue read ends line
  return (key, value)

def flowItems (read : Reading Node) (start : Nat) : Nat → List Node → Reading (List Node)
  | 0, items => return items.reverse
  | fuel + 1, items => do
    if ← atAny [.flowSequenceEnd] then
      advance
      return items.reverse
    flowComma items.isEmpty .flowSequence start
    let t ← peek
    match t.kind with
    | .key =>
      advance
      let pair ← flowPair read t.line
      flowItems read start fuel (.mapping (t.line + 1) .map [pair] :: items)
    | .flowSequenceEnd =>
      advance
      return items.reverse
    | _ => flowItems read start fuel ((← read) :: items)

def flowPairs (read : Reading Node) (start : Nat) :
    Nat → List (Node × Node) → Reading (List (Node × Node))
  | 0, entries => return entries.reverse
  | fuel + 1, entries => do
    let ends := [.flowEntry, .flowMappingEnd]
    if ← atAny [.flowMappingEnd] then
      advance
      return entries.reverse
    flowComma entries.isEmpty .flowMapping start
    let t ← peek
    match t.kind with
    | .key =>
      advance
      let key ← orNothing (.value :: ends) t.line read
      let value ← flowValue read ends t.line
      flowPairs read start fuel ((key, value) :: entries)
    | .flowMappingEnd =>
      advance
      return entries.reverse
    | _ => flowPairs read start fuel ((← read, nothing t.line) :: entries)

/-- Where a tree is read: within a flow collection, as part of a block collection,
    or as a part whose block sequence need not be indented. -/
inductive Place where
  | flow
  | block
  | entry
  deriving DecidableEq, Repr

/-- What is said of a part before the part itself: its line, name and tag. -/
structure Properties where
  line : Nat
  anchor : Option Bytes := none
  tag : Option Shorthand := none
  tagLine : Nat := 0
  deriving DecidableEq, Repr

namespace Properties

def readAnchor (p : Properties) : Reading Properties := do
  match (← peek).kind with
  | .anchor name =>
    advance
    return { p with anchor := some name }
  | _ => return p

def readTag (p : Properties) : Reading Properties := do
  let t ← peek
  match t.kind with
  | .tag tag =>
    advance
    return { p with tag := some tag, tagLine := t.line }
  | _ => return p

def read : Reading Properties := do
  let p : Properties := { line := (← peek).line }
  match (← peek).kind with
  | .anchor _ =>
    let p ← p.readAnchor
    p.readTag
  | .tag _ =>
    let p ← p.readTag
    p.readAnchor
  | _ => return p

/-- The address of a tag; none for the tag that says nothing. -/
def address? (p : Properties) : Reading (Option Bytes) := do
  match p.tag with
  | none => return none
  | some tag =>
    if tag.handle.isEmpty then return if tag.suffix = "!" then none else some tag.suffix
    else match (← get).handles.lookup tag.handle with
      | some address => return some (address ++ tag.suffix)
      | none => throw (.inCollection .unknownShorthand p.line p.tagLine)

def declare (p : Properties) (within : Bool) (node : Node) : Reading Unit :=
  match p.anchor with
  | some name => modify fun r => { r with anchors := (name, within, node) :: r.anchors }
  | none => return

/-- Reads the inside of a collection. Meanwhile its name stands for the collection
    without anything in it; afterwards it stands for all of it, unless something in
    it has the same name. -/
def around {α : Type} (p : Properties) (build : List α → Node) (inside : Reading (List α)) :
    Reading Node := do
  p.declare true (build [])
  let node := build (← inside)
  let anchors := (← get).anchors
  if (p.anchor.bind fun name => anchors.lookup name).any Prod.fst then p.declare false node
  return node

end Properties

def readAlias (line : Nat) (name : Bytes) : Reading Node := do
  match (← get).anchors.lookup name with
  | some (within, part) =>
    advance
    return .alias (line + 1) name within part
  | none => throw { cause := .unknownAnchor name }

/-- Reads a tree. The fuel bounds how deep it goes; `size` bounds the number of
    entries of a collection. -/
def tree (size : Nat) : Nat → Place → Reading Node
  | 0, _ => return nothing 0
  | fuel + 1, place => do
    let t ← peek
    if let .alias name := t.kind then return ← readAlias t.line name
    let p ← Properties.read
    let t ← peek
    let address ← p.address?
    let line := p.line + 1
    let tag := fun (other : Tag) => (address.map Tag.ofAddress).getD other
    let pairs := p.around (.mapping line (tag .map))
    let items := p.around (.sequence line (tag .seq))
    match t.kind, place with
    | .scalar plain text, _ =>
      advance
      let node := .scalar line (tag (.ofScalar plain text)) text
      p.declare false node
      return node
    | .flowSequenceStart, _ =>
      advance
      items (flowItems (tree size fuel .flow) t.line size [])
    | .flowMappingStart, _ =>
      advance
      pairs (flowPairs (tree size fuel .flow) t.line size [])
    | .blockEntry, .entry => items (blockEntries (tree size fuel .block) false t.line size [])
    | .sequenceStart, .block | .sequenceStart, .entry =>
      advance
      items (blockEntries (tree size fuel .block) true t.line size [])
    | .mappingStart, .block | .mappingStart, .entry =>
      advance
      pairs (blockPairs (tree size fuel .entry) t.line size [])
    | _, _ =>
      if p.anchor.isNone && p.tag.isNone then throw (.inCollection .nodeContent t.line t.line)
      let node := .scalar line (tag .null) []
      p.declare false node
      return node

def commonHandles : List (Bytes × Bytes) := [("!", "!"), ("!!", Tag.languageAddress)]

/-- Reads the directives of a document; `versioned` says whether there was a version
    before. -/
def directives : Nat → Bool → Reading Unit
  | 0, _ => return
  | fuel + 1, versioned => do
    let t ← peek
    match t.kind with
    | .directive (.version major minor) =>
      if versioned then throw (.inCollection .repeatedVersion 0 t.line)
      if major != 1 || minor != 1 then throw (.inCollection .unknownVersion 0 t.line)
      advance
      directives fuel true
    | .directive (.shorthand handle address) =>
      if ((← get).handles.lookup handle).isSome then
        throw (.inCollection .repeatedShorthand 0 t.line)
      modify fun r => { r with handles := r.handles ++ [(handle, address)] }
      advance
      directives fuel versioned
    | _ => modify fun r => { r with handles := r.handles ++ commonHandles }

def document (size : Nat) : Reading (Option Node) := do
  match (← peek).kind with
  | .streamEnd => return none
  | .documentStart | .directive _ =>
    directives size false
    let t ← peek
    if t.kind != .documentStart then throw (.inCollection .documentStart 0 t.line)
    advance
    match (← peek).kind with
    | .directive _ | .documentStart | .documentEnd | .streamEnd => return some (nothing t.line)
    | _ => return some (← tree size size .block)
  | _ =>
    directives size false
    return some (← tree size size .block)

/-- The tree of a text; none when there is no document. -/
def read (source : Bytes) : Except Error (Option Node) := do
  let tokens := Token.scan source
  let size := tokens.length + 1
  let (node, _) ← (do let node ← document size; let _ ← peek; return node : Reading _).run { tokens }
  return node

end Node

end Codegen.Yaml
