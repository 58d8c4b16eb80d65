import Codegen.Text.Quoted

/-!
# Options

What one compilation is asked to do. Options come from several places (defaults,
a configuration file, the command line), so a target or an object format may be
any text until the options are validated.
-/

namespace Codegen

/-- The options of one compilation. -/
structure Options where
  target : Bytes := "arm64"
  os : Bytes := "linux"
  /-- Whether the tree is optimized before code is generated. -/
  optimize : Bool := true
  /-- Whether limitations are errors. -/
  strict : Bool := false
  /-- The output file; when empty it is derived from the input file. -/
  output : Bytes := []
  deriving DecidableEq, Repr

/-- Why options are refused. -/
inductive OptionError where
  | unknownTarget (target : Bytes)
  | unknownOs (os : Bytes)
  deriving DecidableEq, Repr

namespace OptionError

def message : OptionError → Bytes
  | .unknownTarget target => "unknown target " ++ quote target ++ " (want \"arm64\" or \"wasm\")"
  | .unknownOs os => "unknown os " ++ quote os ++ " (want \"linux\" or \"darwin\")"

end OptionError

namespace Options

/-- Refuses targets and object formats that there are not. -/
def validate (o : Options) : Except OptionError Unit :=
  if o.target != "arm64" && o.target != "wasm" then .error (.unknownTarget o.target)
  else if o.os != "linux" && o.os != "darwin" then .error (.unknownOs o.os)
  else .ok ()

/-- The usual file extension of the output. -/
def extension (o : Options) : Bytes := if o.target = "wasm" then ".wat" else ".s"

end Options

end Codegen
