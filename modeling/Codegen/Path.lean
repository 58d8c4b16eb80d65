import Codegen.Text.Bytes

/-!
# Paths

Paths of files, with slashes between their parts.
-/

namespace Codegen.Path

def slash : UInt8 := '/'.toNat.toUInt8

/-- The parts of a path. -/
def parts (path : Bytes) : List Bytes :=
  (Bytes.splitOn slash path).filter fun part => part != [] && part != "."

def isRooted (path : Bytes) : Bool := path.startsWith "/"

/-- Adds a part to parts, latest first. Two points take the latest part away. -/
def addPart (rooted : Bool) (before : List Bytes) (part : Bytes) : List Bytes :=
  if part != ".." then part :: before
  else match before with
    | [] => if rooted then [] else [part]
    | last :: rest => if last = ".." then part :: before else rest

/-- The shortest path that names the same file. -/
def clean (path : Bytes) : Bytes :=
  let rooted := isRooted path
  let kept := ((parts path).foldl (addPart rooted) []).reverse
  let body := Bytes.join [slash] kept
  if rooted then slash :: body else if body.isEmpty then "." else body

def upToSlash (path : Bytes) : Bytes := (path.reverse.dropWhile (· != slash)).reverse

/-- The path of the directory of a file. -/
def dir (path : Bytes) : Bytes := clean (upToSlash path)

/-- The path of a file in a directory. -/
def join (directory name : Bytes) : Bytes := clean (directory ++ [slash] ++ name)

/-- The end of a path from its last point on, when that is in its last part. -/
def extension (path : Bytes) : Bytes :=
  let isPoint : UInt8 → Bool := fun b => b = '.'.toNat.toUInt8
  let tail := path.reverse.takeWhile fun b => !isPoint b && b != slash
  match path.reverse.drop tail.length with
  | b :: _ => if isPoint b then b :: tail.reverse else []
  | [] => []

/-- The path without its extension. -/
def stem (path : Bytes) : Bytes := path.take (path.length - (extension path).length)

end Codegen.Path
