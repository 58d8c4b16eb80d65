import Codegen.Arm64.Generate
import Codegen.Ast.Document
import Codegen.Optimize
import Codegen.Options
import Codegen.Report.Problem
import Codegen.Wasm.Generate

/-!
# Compilation

A document is read, optimized unless that is turned off, and handed to the
generator of its target. The text is complete even when there are limitations;
they are part of the result.
-/

namespace Codegen

/-- The text of a program and its limitations. -/
structure Generated where
  text : Bytes
  limitations : List Limitation

def Generated.problem (g : Generated) : Option Problem := Problem.ofLimitations g.limitations

def Arm64.Flavor.ofOs (os : Bytes) : Arm64.Flavor := if os = "darwin" then .darwin else .linux

/-- The generator of the target. -/
def generate (opts : Options) (root : Tree) : Except Fault Generated := do
  let (text, limitations) ←
    if opts.target = Wasm.target then Wasm.compile root
    else Arm64.compile (.ofOs opts.os) root
  return ⟨text, limitations⟩

/-- Compiles a tree in an arena, optimizing it in place. -/
def compile (opts : Options) (root : NodeId) : Arena.Build (Except OptionError Generated) := do
  match opts.validate with
  | .error cause => return .error cause
  | .ok () =>
    let root ← if opts.optimize then Prod.fst <$> Optimize.run root else pure root
    match generate opts ((← get).tree root) with
    | .ok result => return .ok result
    | .error fault => throw fault

/-- Why a document has no text. -/
inductive CompileError where
  | document (cause : DocumentError)
  | options (cause : OptionError)
  | fault (cause : Fault)
  deriving Repr

namespace CompileError

/-- The text of an error. A fault has none of its own unless it breaks a rule. -/
def message : CompileError → Bytes
  | .document cause => cause.message
  | .options cause => cause.message
  | .fault cause => cause.assertion?.getD "missing node"

end CompileError

/-- Compiles a document. -/
def compileSource (opts : Options) (source : Bytes) : Except CompileError Generated := do
  let t ← (Document.tree source).mapError .document
  let run : Arena.Build (Except OptionError Generated) := do
    let root ← Arena.add t
    compile opts root
  match run.run {} with
  | (.ok (.ok result), _) => return result
  | (.ok (.error cause), _) => throw (.options cause)
  | (.error fault, _) => throw (.fault fault)

end Codegen
