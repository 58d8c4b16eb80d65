import Codegen.CommandLine.Session

/-!
# The Program

Loads what a command line may look at, runs it, and carries out what it did.
-/

namespace Codegen

/-- Bytes as a string; stray bytes are dropped. -/
def stringOf (bytes : Bytes) : String := (String.fromUTF8? ⟨bytes.toArray⟩).getD ""

/-- Adds what is at a path; what can be opened and not read is a directory. -/
def loadFile (files : Files) (path : Bytes) : IO Files := do
  try
    let contents ← IO.FS.readBinFile (stringOf path)
    return files.set (Path.clean path) contents.toList
  catch _ =>
    try
      let _ ← IO.FS.Handle.mk (stringOf path) .read
      return { files with directories := Path.clean path :: files.directories }
    catch _ => return files

/-- The files and directories at some paths. -/
def loadFiles (paths : List Bytes) : IO Files := paths.foldlM loadFile {}

/-- Writes the files that changed. -/
def storeFiles (before after : Files) : IO Unit := do
  for (path, contents) in Files.changes before after do
    IO.FS.writeBinFile (stringOf path) ⟨contents.toArray⟩

/-- The machine that programs would run on; no tools are started from here. -/
def localHost : Host := { arch := "amd64" }

def writeTo (stream : IO.FS.Stream) (bytes : Bytes) : IO Unit := do
  stream.write ⟨bytes.toArray⟩
  stream.flush

end Codegen

open Codegen in
/-- The program. -/
def main (args : List String) : IO UInt32 := do
  let args := args.map Bytes.ofString
  let before ← loadFiles (Session.inputs args)
  let start : World := { files := before }
  let (result, world) := start.run localHost args
  storeFiles before world.files
  writeTo (← IO.getStdout) world.stdout
  writeTo (← IO.getStderr) world.stderr
  match result with
  | .ok () => return 0
  | .error cause =>
    writeTo (← IO.getStderr) ("error: " ++ cause.message ++ "\n")
    return 1
