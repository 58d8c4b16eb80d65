import Codegen.CommandLine.Command
import Codegen.Compile
import Codegen.Ast.Printer
import Codegen.Config
import Codegen.Toolchain

/-!
# Running a Command Line

A command line works on files and two streams of text. It is a function of them:
what it reads, writes and prints is in its state, and what it did before it failed
is kept.

Flags that were set win over the configuration file. The switches can only turn
something on: a switch that is set to false changes nothing.

With a level of verbosity, messages are logged to files in a directory of their own, or
to a stream. What they say is left out, and so are those about single functions and helpers;
`World.logged` is whether there are such files.
-/

namespace Codegen

/-- The files, the text on the two streams, and whether there are log files. -/
structure World where
  files : Files := {}
  stdout : Bytes := []
  stderr : Bytes := []
  logged : Bool := false
  deriving DecidableEq, Repr

/-- Why a command line failed. -/
inductive CommandError where
  | unknownCommand (name : Bytes)
  | flags (cause : FlagError)
  | argumentCount (given : Nat)
  | config (cause : ConfigError)
  | options (cause : OptionError)
  | unreadable (path : Bytes) (cause : FileError)
  | unwritable (path : Bytes) (cause : FileError)
  | document (path : Bytes) (cause : DocumentError)
  | compilation (cause : Problem)
  | toolchain (cause : ToolchainError)
  | fault (cause : Fault)

/-- The text of an error; a fault has none. -/
def CommandError.message : CommandError → Bytes
  | .unknownCommand name => Command.unknownMessage name
  | .flags cause => cause.message
  | .argumentCount given => "accepts 1 arg(s), received " ++ Bytes.ofNat given
  | .config cause => cause.message
  | .options cause => cause.message
  | .unreadable path cause => "reading " ++ path ++ ": " ++ cause.message
  | .unwritable path cause => "writing " ++ path ++ ": " ++ cause.message
  | .document path cause => path ++ ": " ++ cause.message
  | .compilation cause => cause.text
  | .toolchain cause => cause.message
  | .fault cause => cause.assertion?.getD []

/-- Operations on the world that can fail. -/
abbrev Session := ExceptT CommandError (StateM World)

namespace Session

def print (text : Bytes) : Session Unit := modify fun w => { w with stdout := w.stdout ++ text }

def warn (text : Bytes) : Session Unit := modify fun w => { w with stderr := w.stderr ++ text }

def lift {ε α : Type} (wrap : ε → CommandError) : Except ε α → Session α
  | .ok value => pure value
  | .error cause => throw (wrap cause)

def readFile (path : Bytes) : Session Bytes := do
  lift (.unreadable path) ((← get).files.read path)

def writeFile (path contents : Bytes) : Session Unit := do
  let files := (← get).files
  let place ← lift (.unwritable path) (files.destination path)
  modify fun w => { w with files := files.set place (files.taken contents) }
  lift (.unwritable path) (files.checkRoom path contents)

/-- Whether messages of a level are logged to files. -/
def logs (p : Parsed) (level : Int64) : Bool :=
  decide (level ≤ p.integer "verbose") && !p.switch "logtostderr"

/-- Logs a message of a level, if there is one. -/
def note (p : Parsed) (level : Int64) (isThere : Bool) : Session Unit :=
  modify fun w => { w with logged := w.logged || (isThere && logs p level) }

def override (p : Parsed) (o : Options) : Options :=
  { target := if p.isSet "target" then p.text "target" else o.target
    os := if p.isSet "os" then p.text "os" else o.os
    output := if p.isSet "output" then p.text "output" else o.output
    optimize := if p.switch "no-opt" then false else o.optimize
    strict := if p.switch "strict" then true else o.strict }

def options (p : Parsed) (input : Bytes) (decode : Config.Decoder := Config.parse) :
    Session Options := do
  let files := (← get).files
  note p 3 (!(p.text "config").isEmpty || files.isThere (Options.implicitFile input))
  let base ← lift .config (Options.resolve files (p.text "config") input decode)
  let opts := override p base
  lift .options opts.validate
  return opts

def compile (p : Parsed) (name source : Bytes) (opts : Options) : Session Bytes := do
  match compileSource opts source with
  | .ok g =>
    note p 1 opts.optimize
    note p 2 !g.limitations.isEmpty
    let outcome := Problem.report name opts.strict g.problem
    warn outcome.warnings
    match outcome.failure with
    | some cause => throw (.compilation cause)
    | none => return g.text
  | .error (.document cause) => throw (.document name cause)
  | .error (.options cause) => throw (.compilation (.wrap name (.plain cause.message)))
  | .error (.fault cause) => throw (.fault cause)

def compileFile (p : Parsed) (path : Bytes) (opts : Options) : Session Bytes := do
  compile p path (← readFile path) opts

def build (p : Parsed) (input : Bytes) : Session Unit := do
  let opts ← options p input
  let text ← compileFile p input opts
  let output := opts.outputPath input
  writeFile output text
  print ("Generated " ++ output ++ " (" ++ Bytes.ofNat text.length ++ " bytes)\n")

def execute (host : Host) (p : Parsed) (input : Bytes) : Session Unit := do
  let opts ← options p input
  let _ ← compileFile p input opts
  lift .toolchain (host.check opts.target)

def eval (p : Parsed) (source : Bytes) : Session Unit := do
  let opts ← options p "."
  print (← compile p "<eval>" source opts)

def showTree (optimize : Bool) (t : Tree) : Session Bytes := do
  let act : Arena.Build NodeId := do
    let root ← Arena.add t
    if optimize then Prod.fst <$> Optimize.run root else pure root
  match act.run {} with
  | (.error cause, _) => throw (.fault cause)
  | (.ok root, arena) => match (arena.tree root).print? with
    | some text => return text
    | none => throw (.fault .missingNode)

def check (p : Parsed) (path : Bytes) : Session Unit := do
  let source ← readFile path
  let t ← lift (.document path) (Document.tree source)
  print (path ++ ": no errors found\n")
  if 0 < p.integer "verbose" then
    note p 3 !p.switch "no-opt"
    print ("AST: " ++ (← showTree (!p.switch "no-opt") t) ++ "\n")

def perform (host : Host) (command : Command) (p : Parsed) (arg : Bytes) : Session Unit :=
  match command with
  | .build => build p arg
  | .run => execute host p arg
  | .eval => eval p arg
  | .check => check p arg
  | _ => pure ()

def isRunnable (command : Command) : Bool := [.build, .run, .eval, .check].contains command

/-- What a command line does. Asking for help does nothing else. -/
def commandLine (host : Host) (args : List Bytes) : Session Unit := do
  let (command, rest) ← lift .unknownCommand (Command.find args)
  let p ← lift .flags (Parsed.ofArgs (command.flags ++ [Command.helpFlag]) rest)
  if p.switch "help" || !isRunnable command then return
  match p.args with
  | [arg] => perform host command p arg
  | args => throw (.argumentCount args.length)

/-- The paths that a command line may look at: the input, the configuration files
    and the directory of the output. -/
def inputs (args : List Bytes) : List Bytes :=
  match Command.find args with
  | .error _ => []
  | .ok (command, rest) =>
    match Parsed.ofArgs (command.flags ++ [Command.helpFlag]) rest with
    | .error _ => []
    | .ok p =>
      let config := p.text "config"
      p.args.flatMap (fun arg => [arg, Path.dir arg, Options.implicitFile arg])
        ++ [Options.defaultFile, config, Path.dir (p.text "output")]

end Session

/-- Runs a command line. -/
def World.run (w : World) (host : Host) (args : List Bytes) : Except CommandError Unit × World :=
  (Session.commandLine host args).run.run w

end Codegen
