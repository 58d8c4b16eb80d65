import Codegen.Files
import Codegen.Options
import Codegen.Yaml.Node
import Codegen.Yaml.Tag

/-!
# Configuration Files

Options can be set in a file. A key that is missing, or has no value, leaves the
option as it was, and unknown keys are ignored. All values that do not fit are
reported together. Keys may not be repeated, known or not.

A mapping may merge others. What it sets itself comes first, and of those that it
merges an earlier one comes before a later one. So the file is a list of layers,
and an option is set by the first layer that has a key for it.

A file that is named has to exist; otherwise a file of a fixed name next to the
input is used, if there is one.
-/

namespace Codegen

namespace Config

/-- The part that an alias stands for; any other part is itself. -/
def resolved : Yaml.Node → Yaml.Node
  | .alias _ _ _ part => part
  | node => node

def lineOf : Yaml.Node → Nat
  | .scalar line _ _ | .sequence line _ _ | .mapping line _ _ | .alias line _ _ _ => line

def tagOf : Yaml.Node → Yaml.Tag
  | .scalar _ tag _ | .sequence _ tag _ | .mapping _ tag _ => tag
  | .alias _ _ _ part => tagOf part

/-- The text of a scalar and the name of an alias; nothing for any other part. -/
def textOf : Yaml.Node → Bytes
  | .scalar _ _ text => text
  | .alias _ name _ _ => name
  | _ => []

/-- How messages show a value: its beginning when it is long. -/
def shown (text : Bytes) : Bytes := if 10 < text.length then text.take 7 ++ "..." else text

/-- The message for a part that is not of the wanted type. -/
def mismatch (node : Yaml.Node) (type : Bytes) : Bytes :=
  let tag := tagOf node
  let value : Bytes := if tag = .seq || tag = .map then [] else " `" ++ shown (textOf node) ++ "`"
  "line " ++ Bytes.ofNat (lineOf node) ++ ": cannot unmarshal " ++ tag.name ++ value
    ++ " into " ++ type

/-- Whether two keys are the same: scalars of one text, aliases of one name, and any
    two sequences or mappings. -/
def sameKey : Yaml.Node → Yaml.Node → Bool
  | .scalar _ _ a, .scalar _ _ b => a == b
  | .alias _ a _ _, .alias _ b _ _ => a == b
  | .sequence _ _ _, .sequence _ _ _ => true
  | .mapping _ _ _, .mapping _ _ _ => true
  | _, _ => false

def repetitions : List Yaml.Node → List Bytes
  | [] => []
  | key :: rest =>
    (rest.filter (sameKey key)).map (fun again =>
      "line " ++ Bytes.ofNat (lineOf again) ++ ": mapping key " ++ quote (textOf again)
        ++ " already defined at line " ++ Bytes.ofNat (lineOf key)) ++ repetitions rest

/-- The messages for a part that is not a scalar where one is wanted. -/
def refusal (node : Yaml.Node) (type : Bytes) : List Bytes :=
  match node with
  | .mapping _ _ entries =>
    match repetitions (entries.map Prod.fst) with
    | [] => [mismatch node type]
    | errors => errors
  | _ => [mismatch node type]

/-- What a part is where something is wanted: the thing, nothing, or not such a
    thing, with the messages that say so. -/
inductive Reading (α : Type) where
  | value (a : α)
  | nothing
  | refused (errors : List Bytes)
  deriving DecidableEq, Repr

def reading {α : Type} (type : Bytes) (convert : Bytes → Yaml.Value → Option α)
    (node : Yaml.Node) : Except Yaml.Cause (Reading α) :=
  match resolved node with
  | .scalar line tag text => do
    let value ← tag.value text
    if value = .nothing then return .nothing
    return match convert text value with
      | some a => .value a
      | none => .refused [mismatch (.scalar line tag text) type]
  | part => .ok (.refused (refusal part type))

/-- The text that a part denotes. Numbers and truth values are as they are written. -/
def string (node : Yaml.Node) : Except Yaml.Cause (Reading Bytes) :=
  reading "string" (fun written value => match value with
    | .text text => some text
    | _ => some written) node

def bool (node : Yaml.Node) : Except Yaml.Cause (Reading Bool) :=
  reading "bool" (fun _ value => value.truth?) node

/-- A mapping of the file: its entries, the messages that refuse it, or the reason
    why it cannot be merged. -/
inductive Layer where
  | entries (entries : List (Yaml.Node × Yaml.Node))
  | refused (errors : List Bytes)
  | unfit (cause : Yaml.Cause)
  deriving Repr

def isMerge : Yaml.Node → Bool
  | .scalar _ tag text => tag = .merge && text = "<<"
  | _ => false

/-- A mapping before those that it merges; they do not count when it is refused. -/
def Layer.over (entries : List (Yaml.Node × Yaml.Node)) (more : List Layer) : List Layer :=
  match repetitions (entries.map Prod.fst) with
  | [] => .entries entries :: more
  | errors => [.refused errors]

mutual

/-- The mappings that a part merges into the one it belongs to: a mapping, an alias
    of one, or a sequence of those. -/
def merged : Yaml.Node → List Layer
  | .sequence _ _ items => mergedItems items
  | .mapping _ _ entries => Layer.over entries (mergedEntries entries)
  | .alias _ name within part => mergedAlias name within part
  | .scalar _ _ _ => [.unfit .mergeValue]

def mergedItem : Yaml.Node → List Layer
  | .mapping _ _ entries => Layer.over entries (mergedEntries entries)
  | .alias _ name within part => mergedAlias name within part
  | _ => [.unfit .mergeValue]

def mergedItems : List Yaml.Node → List Layer
  | [] => []
  | item :: rest => mergedItem item ++ mergedItems rest

/-- The mappings that an alias merges: it has to stand for a mapping, and not for one
    that it is part of. -/
def mergedAlias (name : Bytes) (within : Bool) : Yaml.Node → List Layer
  | .mapping _ _ entries =>
    if within then [.unfit (.selfReference name)]
    else Layer.over entries (mergedEntries entries)
  | _ => [.unfit .mergeValue]

def mergedEntries : List (Yaml.Node × Yaml.Node) → List Layer
  | [] => []
  | (key, value) :: rest => if isMerge key then merged value else mergedEntries rest

end

/-- A mapping and those that it merges, in the order of their weight. -/
def layers (entries : List (Yaml.Node × Yaml.Node)) : List Layer :=
  Layer.over entries (mergedEntries entries)

/-- The options, the texts of the values that did not fit, and the keys that had
    their turn. -/
structure Assignment where
  options : Options
  errors : List Bytes := []
  taken : List Bytes := []
  deriving DecidableEq, Repr

namespace Assignment

def refuse (a : Assignment) (errors : List Bytes) : Assignment :=
  { a with errors := a.errors ++ errors }

def set {α : Type} (a : Assignment) (value : Reading α) (update : Options → α → Options) :
    Assignment :=
  match value with
  | .value v => { a with options := update a.options v }
  | .nothing => a
  | .refused errors => a.refuse errors

def fields : List Bytes := ["target", "os", "optimize", "strict", "output"]

def assign (a : Assignment) (name : Bytes) (value : Yaml.Node) :
    Except Yaml.Cause Assignment := do
  if name = "target" then return a.set (← string value) fun o v => { o with target := v }
  else if name = "os" then return a.set (← string value) fun o v => { o with os := v }
  else if name = "optimize" then return a.set (← bool value) fun o v => { o with optimize := v }
  else if name = "strict" then return a.set (← bool value) fun o v => { o with strict := v }
  else if name = "output" then return a.set (← string value) fun o v => { o with output := v }
  else return a

def twice (key : Yaml.Node) (name : Bytes) : Bytes :=
  "line " ++ Bytes.ofNat (lineOf key) ++ ": field " ++ name ++ " already set in type main.Options"

def entry (isMerged : Bool) (a : Assignment) (key value : Yaml.Node) :
    Except Yaml.Cause Assignment := do
  if isMerge key then return a
  match ← string key with
  | .refused errors => return a.refuse errors
  | .nothing => return a
  | .value name =>
    if !a.taken.contains name then assign { a with taken := name :: a.taken } name value
    else if !isMerged && fields.contains name then return a.refuse [twice key name]
    else return a

def layer (isMerged : Bool) (a : Assignment) : Layer → Except Yaml.Cause Assignment
  | .entries entries => entries.foldlM (fun a (key, value) => a.entry isMerged key value) a
  | .refused errors => return a.refuse errors
  | .unfit cause => throw cause

def all (a : Assignment) : List Layer → Except Yaml.Cause Assignment
  | [] => return a
  | first :: more => do more.foldlM (layer true) (← a.layer false first)

end Assignment

/-- The options after a document. -/
def decode (base : Options) (node : Yaml.Node) : Except Yaml.Cause Assignment :=
  let a : Assignment := { options := base }
  match node with
  | .mapping _ _ entries => a.all (layers entries)
  | _ => do
    let read : Reading Unit ← reading "main.Options" (fun _ _ => none) node
    return a.set read fun o _ => o

/-- Why the text of a file is refused. -/
inductive ParseError where
  | malformed (cause : Yaml.Error)
  | mismatched (errors : List Bytes)
  deriving DecidableEq, Repr

def ParseError.message : ParseError → Bytes
  | .malformed cause => cause.message
  | .mismatched errors => "yaml: unmarshal errors:\n  " ++ Bytes.join "\n  " errors

/-- What reads the text of a file on top of options. -/
abbrev Decoder := Options → Bytes → Except ParseError Options

def parse (base : Options) (source : Bytes) : Except ParseError Options := do
  match ← (Yaml.Node.read source).mapError .malformed with
  | none => return base
  | some node =>
    let a ← (decode base node).mapError fun cause => .malformed { cause }
    if a.errors.isEmpty then return a.options else throw (.mismatched a.errors)

end Config

/-- Why a file is refused. -/
inductive ConfigError where
  | unreadable (path : Bytes) (cause : FileError)
  | unparsable (path : Bytes) (cause : Config.ParseError)
  | invalid (path : Bytes) (cause : OptionError)
  deriving DecidableEq, Repr

def ConfigError.message : ConfigError → Bytes
  | .unreadable path cause => "reading config " ++ path ++ ": " ++ cause.message
  | .unparsable path cause => "parsing config " ++ path ++ ": " ++ cause.message
  | .invalid path cause => "config " ++ path ++ ": " ++ cause.message

namespace Options

/-- The options after a file. -/
def load (files : Files) (path : Bytes) (base : Options) (decode : Config.Decoder := Config.parse) :
    Except ConfigError Options := do
  let source ← (files.read path).mapError (.unreadable path)
  let opts ← (decode base source).mapError (.unparsable path)
  opts.validate.mapError (.invalid path)
  return opts

def defaultFile : Bytes := "kwc.yaml"

/-- The file that is used for an input when none is named. -/
def implicitFile (input : Bytes) : Bytes := Path.join (Path.dir input) defaultFile

/-- The options of an input before the command line. No file is named by an empty
    path. -/
def resolve (files : Files) (config input : Bytes) (decode : Config.Decoder := Config.parse) :
    Except ConfigError Options :=
  if !config.isEmpty then load files config {} decode
  else if files.isThere (implicitFile input) then load files (implicitFile input) {} decode
  else .ok {}

/-- The path of the output: as the options say, or the input's with the extension
    of the target. -/
def outputPath (o : Options) (input : Bytes) : Bytes :=
  if !o.output.isEmpty then o.output else Path.stem input ++ o.extension

end Options

end Codegen
