import Codegen.Text.Quoted

/-!
# Toolchains

Running generated text takes tools of the host: the system compiler on a host of
the same architecture for AArch64 assembly, an assembler and an interpreter for
WebAssembly. Whether they are there is asked before anything else is done.

What a tool writes to its error stream becomes part of a message, so only its
beginning is kept.
-/

namespace Codegen

/-- A machine: its architecture, and the tools that can be started. -/
structure Host where
  arch : Bytes
  tools : List Bytes := []
  deriving DecidableEq, Repr

/-- Why generated text cannot be run. -/
inductive ToolchainError where
  | unknownTarget (target : Bytes)
  | otherArchitecture (target arch : Bytes)
  | missingTool (target tool : Bytes)
  deriving DecidableEq, Repr

def ToolchainError.message : ToolchainError → Bytes
  | .unknownTarget target => "unknown target " ++ quote target
  | .otherArchitecture target arch =>
    "running " ++ target ++ " code needs an arm64 host, have " ++ arch
  | .missingTool target tool =>
    "running " ++ target ++ " code: exec: " ++ quote tool ++ ": executable file not found in $PATH"

namespace Host

def need (host : Host) (target : Bytes) (tools : List Bytes) : Except ToolchainError Unit :=
  match tools.find? fun tool => !host.tools.contains tool with
  | some tool => .error (.missingTool target tool)
  | none => .ok ()

/-- Whether text for a target can be run. -/
def check (host : Host) (target : Bytes) : Except ToolchainError Unit :=
  if target = "arm64" then
    if host.arch = "arm64" then host.need target ["cc"]
    else .error (.otherArchitecture target host.arch)
  else if target = "wasm" then host.need target ["wat2wasm", "node"]
  else .error (.unknownTarget target)

end Host

/-- The beginning of a stream. -/
structure Capture where
  kept : Bytes := []
  deriving DecidableEq, Repr

namespace Capture

def limit : Nat := 4096

/-- Takes in more of the stream, as far as there is room. The bytes beyond count
    as written. -/
def write (c : Capture) (bytes : Bytes) : Capture :=
  ⟨c.kept ++ bytes.take (limit - c.kept.length)⟩

end Capture

end Codegen
