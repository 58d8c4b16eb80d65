import Codegen.Path

/-!
# Files

A directory with everything in it, as a value. Directories exist as far as there
is something in them, unless they are listed on their own. Errors name the path as
it was given.

A file is opened for writing before anything is written, and with that it is empty. If
the device does not take all of the text, the beginning of the text is what is left.
-/

namespace Codegen

/-- The files below a directory by their paths, directories that may be empty, and how many bytes
    the device takes for a file, if there is a limit. -/
structure Files where
  contents : List (Bytes × Bytes) := []
  directories : List Bytes := []
  limit : Option Nat := none
  deriving DecidableEq, Repr

/-- Why a file cannot be read or written. -/
inductive FileError where
  | absent (path : Bytes)
  | notDirectory (path : Bytes)
  | openDirectory (path : Bytes)
  | readDirectory (path : Bytes)
  | full (path : Bytes)
  deriving DecidableEq, Repr

def FileError.message : FileError → Bytes
  | .absent path => "open " ++ path ++ ": no such file or directory"
  | .notDirectory path => "open " ++ path ++ ": not a directory"
  | .openDirectory path => "open " ++ path ++ ": is a directory"
  | .readDirectory path => "read " ++ path ++ ": is a directory"
  | .full path => "write " ++ path ++ ": no space left on device"

namespace Files

/-- What is at a place. -/
inductive Entry where
  | file (contents : Bytes)
  | directory
  | nothing
  deriving DecidableEq, Repr

/-- What is at a path without superfluous parts. -/
def entry (files : Files) (path : Bytes) : Entry :=
  match files.contents.lookup path with
  | some contents => .file contents
  | none =>
    let within := fun other : Bytes => Bytes.startsWith other (path ++ [Path.slash])
    if path = "." || files.directories.contains path
        || files.contents.any (fun f => within f.1) || files.directories.any within then .directory
    else .nothing

/-- The place that the parts of a path lead to, from a place inward; every part but
    the last has to be a directory. -/
def follow (files : Files) (rooted : Bool) (path : Bytes) (here : List Bytes) :
    List Bytes → Except FileError Bytes
  | [] => .ok (place here)
  | [part] => .ok (place (Path.addPart rooted here part))
  | part :: rest =>
    let next := Path.addPart rooted here part
    match files.entry (place next) with
    | .directory => follow files rooted path next rest
    | .file _ => .error (.notDirectory path)
    | .nothing => .error (.absent path)
where
  /-- The path of parts, latest first. -/
  place (here : List Bytes) : Bytes :=
    let body := Bytes.join [Path.slash] here.reverse
    if rooted then Path.slash :: body else if body.isEmpty then "." else body

def locate (files : Files) (path : Bytes) : Except FileError Bytes :=
  if path.isEmpty then .error (.absent path)
  else follow files (Path.isRooted path) path [] (Path.parts path)

/-- Whether a path can only be a directory's. -/
def namesDirectory (path : Bytes) : Bool := path.endsWith "/"

/-- The contents of a file. -/
def read (files : Files) (path : Bytes) : Except FileError Bytes := do
  match files.entry (← files.locate path) with
  | .file contents =>
    if namesDirectory path then throw (.notDirectory path) else return contents
  | .directory => throw (.readDirectory path)
  | .nothing => throw (.absent path)

/-- Whether there is something at a path. -/
def isThere (files : Files) (path : Bytes) : Bool :=
  match files.read path with
  | .ok _ | .error (.readDirectory _) => true
  | .error _ => false

def set (files : Files) (place contents : Bytes) : Files :=
  { files with contents := (place, contents) :: files.contents.filter fun f => f.1 != place }

/-- The place that a file is written to. -/
def destination (files : Files) (path : Bytes) : Except FileError Bytes := do
  let place ← files.locate path
  match files.entry place with
  | .file _ => if namesDirectory path then throw (.notDirectory path) else return place
  | .directory => throw (.openDirectory path)
  | .nothing => if namesDirectory path then throw (.openDirectory path) else return place

/-- As much of a text as the device takes. -/
def taken (files : Files) (contents : Bytes) : Bytes :=
  match files.limit with
  | none => contents
  | some limit => contents.take limit

/-- Whether that is all of it. -/
def checkRoom (files : Files) (path contents : Bytes) : Except FileError Unit :=
  if (files.taken contents).length < contents.length then .error (.full path) else .ok ()

def precedes : Bytes → Bytes → Bool
  | [], _ => true
  | _ :: _, [] => false
  | a :: rest, b :: other => a < b || (a = b && precedes rest other)

/-- The files that are new or different. -/
def changes (before after : Files) : List (Bytes × Bytes) :=
  (after.contents.filter fun f => before.contents.lookup f.1 != some f.2).mergeSort
    fun f g => precedes f.1 g.1

end Files

end Codegen
