import Codegen.Number.Based

/-!
# Flags

Flags stand anywhere among the arguments, up to two dashes on their own. A flag
has a long name, `--name value` or `--name=value`, and may have a letter, `-l
value`, `-lvalue` or `-l=value`; letters of switches can be run together. A switch
takes a value only after an equals sign.
-/

namespace Codegen

/-- The types of values. -/
inductive FlagType where
  | text
  | switch
  | integer
  deriving DecidableEq, Repr

/-- A flag, and the type of its value. -/
structure Flag where
  name : Bytes
  letter : Option UInt8 := none
  type : FlagType
  deriving DecidableEq, Repr

/-- The value of a flag. -/
inductive FlagValue where
  | text (value : Bytes)
  | switch (value : Bool)
  | integer (value : Int64)
  deriving DecidableEq, Repr

/-- What is wrong with the flags. -/
inductive FlagError where
  | badSyntax (arg : Bytes)
  | unknown (name : Bytes)
  | unknownLetter (letter : UInt8) (letters : Bytes)
  | needsValue (name : Bytes)
  | letterNeedsValue (letter : UInt8) (letters : Bytes)
  | badValue (flag : Flag) (value cause : Bytes)
  deriving DecidableEq, Repr

def Flag.display (f : Flag) : Bytes :=
  match f.letter with
  | some letter => "-" ++ [letter] ++ ", --" ++ f.name
  | none => "--" ++ f.name

/-- A letter as messages show it: the first byte of its encoding, as a character. -/
def Flag.displayLetter (letter : UInt8) : Bytes :=
  quoteChar ((Utf8.encode letter.toNat).headD letter).toNat

def FlagError.message : FlagError → Bytes
  | .badSyntax arg => "bad flag syntax: " ++ arg
  | .unknown name => "unknown flag: --" ++ name
  | .unknownLetter letter letters =>
    "unknown shorthand flag: " ++ Flag.displayLetter letter ++ " in -" ++ letters
  | .needsValue name => "flag needs an argument: --" ++ name
  | .letterNeedsValue letter letters =>
    "flag needs an argument: " ++ Flag.displayLetter letter ++ " in -" ++ letters
  | .badValue flag value cause =>
    "invalid argument " ++ quote value ++ " for " ++ quote flag.display ++ " flag: " ++ cause

namespace Flag

def trueWords : List Bytes := ["1", "t", "T", "true", "TRUE", "True"]

def falseWords : List Bytes := ["0", "f", "F", "false", "FALSE", "False"]

def read (f : Flag) (value : Bytes) : Except FlagError FlagValue :=
  match f.type with
  | .text => .ok (.text value)
  | .switch =>
    if trueWords.contains value then .ok (.switch true)
    else if falseWords.contains value then .ok (.switch false)
    else .error (.badValue f value (NumeralFault.malformed.message "ParseBool" value))
  | .integer =>
    match Based.read value with
    | .ok n => .ok (.integer n)
    | .error fault => .error (.badValue f value (fault.message "ParseInt" value))

/-- Whether a flag can stand without a value. -/
def isSwitch (f : Flag) : Bool := f.type = .switch

def named? (flags : List Flag) (name : Bytes) : Option Flag := flags.find? fun f => f.name == name

def lettered? (flags : List Flag) (letter : UInt8) : Option Flag :=
  flags.find? fun f => f.letter == some letter

end Flag

/-- The values that were set, latest first, and the arguments that are not flags. -/
structure Parsed where
  values : List (Bytes × FlagValue) := []
  args : List Bytes := []
  deriving DecidableEq, Repr

namespace Parsed

def set (p : Parsed) (flag : Flag) (value : Bytes) : Except FlagError Parsed := do
  return { p with values := (flag.name, ← flag.read value) :: p.values }

def isSet (p : Parsed) (name : Bytes) : Bool := (p.values.lookup name).isSome

def text (p : Parsed) (name : Bytes) : Bytes :=
  match p.values.lookup name with
  | some (.text value) => value
  | _ => []

def switch (p : Parsed) (name : Bytes) : Bool :=
  match p.values.lookup name with
  | some (.switch value) => value
  | _ => false

def integer (p : Parsed) (name : Bytes) : Int64 :=
  match p.values.lookup name with
  | some (.integer value) => value
  | _ => 0

def equals : UInt8 := Ascii.byte '='

/-- What a flag of an argument still waits for: a value in the next argument, with
    the error if there is none. -/
structure Waiting where
  flag : Flag
  missing : FlagError

/-- Takes an argument with a long name, given what follows its dashes. -/
def long (flags : List Flag) (p : Parsed) (arg body : Bytes) :
    Except FlagError (Parsed × Option Waiting) :=
  match body with
  | [] => .error (.badSyntax arg)
  | b :: _ =>
    if b = Ascii.byte '-' || b = equals then .error (.badSyntax arg)
    else
      let (name, rest) := body.span (· != equals)
      match Flag.named? flags name, rest with
      | none, _ => .error (.unknown name)
      | some flag, _ :: value => do return (← p.set flag value, none)
      | some flag, [] =>
        if flag.isSwitch then do return (← p.set flag "true", none)
        else .ok (p, some ⟨flag, .needsValue name⟩)

def letters (flags : List Flag) (p : Parsed) : Bytes → Except FlagError (Parsed × Option Waiting)
  | [] => .ok (p, none)
  | letter :: rest =>
    match Flag.lettered? flags letter with
    | none => .error (.unknownLetter letter (letter :: rest))
    | some flag =>
      if rest.head? = some equals && 1 < rest.length then do
        return (← p.set flag (rest.drop 1), none)
      else if flag.isSwitch then do letters flags (← p.set flag "true") rest
      else if !rest.isEmpty then do return (← p.set flag rest, none)
      else .ok (p, some ⟨flag, .letterNeedsValue letter [letter]⟩)

def take (flags : List Flag) (p : Parsed) (arg : Bytes) :
    Except FlagError (Parsed × Option Waiting) :=
  match arg with
  | a :: b :: rest =>
    if a != Ascii.byte '-' then .ok ({ p with args := p.args ++ [arg] }, none)
    else if b = Ascii.byte '-' then long flags p arg rest
    else letters flags p (b :: rest)
  | _ => .ok ({ p with args := p.args ++ [arg] }, none)

/-- Takes arguments after others, of which a flag may wait for a value. -/
def takeAll (flags : List Flag) (p : Parsed) (waiting : Option Waiting) :
    List Bytes → Except FlagError Parsed
  | [] =>
    match waiting with
    | some w => .error w.missing
    | none => .ok p
  | arg :: rest =>
    match waiting with
    | some w => do takeAll flags (← p.set w.flag arg) none rest
    | none =>
      if arg = "--" then .ok { p with args := p.args ++ rest }
      else do
        let (p, waiting) ← take flags p arg
        takeAll flags p waiting rest

/-- The flags and the arguments of a command line. -/
def ofArgs (flags : List Flag) (args : List Bytes) : Except FlagError Parsed :=
  takeAll flags {} none args

end Parsed

end Codegen
