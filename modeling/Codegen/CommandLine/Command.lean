import Codegen.CommandLine.Flag

/-!
# Commands

The first argument that is neither a flag nor the value of one names the command.
At that point the flags of the command are not known yet: an unknown flag is taken
to have a value in the next argument. A name that is no command is answered with
the commands that come close to it.
-/

namespace Codegen

/-- The commands; `root` is none in particular. -/
inductive Command where
  | root
  | build
  | run
  | eval
  | check
  | help
  | completion
  deriving DecidableEq, Repr

namespace Command

def name : Command → Bytes
  | .root => "kwc"
  | .build => "build"
  | .run => "run"
  | .eval => "eval"
  | .check => "check"
  | .help => "help"
  | .completion => "completion"

def all : List Command := [.build, .run, .eval, .check, .help, .completion]

def suggested : List Command := [.build, .run, .eval, .check, .completion]

def commonFlags : List Flag :=
  [{ name := "logtostderr", type := .switch },
   { name := "verbose", letter := some (Ascii.byte 'v'), type := .integer }]

def compileFlags : List Flag :=
  [{ name := "config", type := .text },
   { name := "target", letter := some (Ascii.byte 't'), type := .text },
   { name := "os", type := .text },
   { name := "no-opt", type := .switch },
   { name := "strict", type := .switch }]

def helpFlag : Flag := { name := "help", letter := some (Ascii.byte 'h'), type := .switch }

/-- The flags of a command, apart from the one that asks for help. -/
def flags : Command → List Flag
  | .build =>
    compileFlags ++ [{ name := "output", letter := some (Ascii.byte 'o'), type := .text }]
      ++ commonFlags
  | .run | .eval => compileFlags ++ commonFlags
  | .check => { name := "no-opt", type := .switch } :: commonFlags
  | _ => commonFlags

/-- Whether an argument is a flag whose value is in the next argument. -/
def takesNext (flags : List Flag) (arg : Bytes) : Bool :=
  !arg.contains Parsed.equals &&
    match arg with
    | a :: b :: rest =>
      a = Ascii.byte '-' &&
        if b = Ascii.byte '-' then !(Flag.named? flags rest).any Flag.isSwitch
        else rest.isEmpty && !(Flag.lettered? flags b).any Flag.isSwitch
    | _ => false

def isFlag (arg : Bytes) : Bool := arg.startsWith "-"

/-- The arguments that are neither flags nor their values. A flag before the last
    argument ends the search. -/
def operands (flags : List Flag) : List Bytes → List Bytes
  | [] => []
  | arg :: rest =>
    if arg = "--" then []
    else if takesNext flags arg then
      match rest with
      | _ :: next :: tail => operands flags (next :: tail)
      | _ => []
    else if arg.isEmpty || isFlag arg then operands flags rest
    else arg :: operands flags rest

/-- The arguments without the first one that is a given name. -/
def without (flags : List Flag) (name : Bytes) : List Bytes → List Bytes
  | [] => []
  | arg :: rest =>
    if arg = "--" then arg :: rest
    else if takesNext flags arg then
      match rest with
      | value :: tail => arg :: value :: without flags name tail
      | [] => [arg]
    else if !isFlag arg && arg = name then rest
    else arg :: without flags name rest

/-- The next row of the table of edit distances between beginnings of two texts,
    given its first entry and the row before. -/
def nextRow (b : UInt8) : Bytes → Nat → List Nat → List Nat
  | c :: text, left, diagonal :: above :: row =>
    let here := if b = c then diagonal else min left (min above diagonal) + 1
    left :: nextRow b text here (above :: row)
  | _, left, _ => [left]

/-- The number of bytes to insert, delete or replace to get from one text to
    another. -/
def distance (a b : Bytes) : Nat :=
  let rows := a.foldl (fun row c => nextRow c b (row.headD 0 + 1) row) (List.range (b.length + 1))
  rows.getLastD 0

/-- The commands that come close to a name. -/
def suggestions (name : Bytes) : List Command :=
  let typed := Ascii.lowerAll name
  suggested.filter fun c => distance typed c.name ≤ 2 || c.name.startsWith typed

def unknownMessage (name : Bytes) : Bytes :=
  let close := suggestions name
  let line : Command → Bytes := fun c => "\t" ++ c.name ++ "\n"
  let hint : Bytes :=
    if close.isEmpty then [] else "\n\nDid you mean this?\n" ++ close.flatMap line
  "unknown command " ++ quote name ++ " for " ++ quote root.name ++ hint

/-- The command of a command line and its own arguments, or the name that is no
    command. -/
def find (args : List Bytes) : Except Bytes (Command × List Bytes) :=
  match operands root.flags args with
  | [] => .ok (.root, args)
  | name :: _ =>
    match all.find? fun c => c.name == name with
    | some c => .ok (c, without root.flags name args)
    | none => .error name

end Command

end Codegen
