import Codegen.Report.Limitation

/-!
# Problems

What a compilation reports when it does not go through cleanly: limitations,
plain errors, errors with a context put before them, and collections of errors.
A collection is reported as a list with a count. A collection inside a
collection is spliced into it when it is collected; behind a context it stays
as it is.
-/

namespace Codegen

/-- What a compilation reports. -/
inductive Problem where
  | limitation (cause : Limitation)
  | plain (message : Bytes)
  | wrap (context : Bytes) (cause : Problem)
  | many (causes : List Problem)
  deriving Repr

namespace Problem

/-- A collection, with the members of inner collections in their place. -/
def collect (causes : List Problem) : Problem :=
  .many (causes.flatMap fun
    | .many inner => inner
    | cause => [cause])

def listText (members : List Bytes) : Bytes :=
  let count : Bytes :=
    if members.length = 1 then "1 error occurred:" else Bytes.ofNat members.length ++ " errors occurred:"
  count ++ "\n\t" ++ Bytes.join "\n\t" (members.map fun m => "* " ++ m) ++ "\n\n"

mutual

/-- The text of a problem. -/
def text : Problem → Bytes
  | .limitation cause => cause.text
  | .plain message => message
  | .wrap context cause => context ++ ": " ++ text cause
  | .many causes => listText (texts causes)

def texts : List Problem → List Bytes
  | [] => []
  | cause :: rest => text cause :: texts rest

end

/-- Whether a problem is a limitation behind any number of contexts. -/
def isLimitation : Problem → Bool
  | .limitation _ => true
  | .wrap _ cause => cause.isLimitation
  | _ => false

/-- Whether a problem consists of limitations only: one of them, or a collection
    of them. -/
def onlyLimitations : Problem → Bool
  | .many causes => causes.all isLimitation
  | cause => cause.isLimitation

/-- The collection of the limitations of a generation pass, if there are any. -/
def ofLimitations : List Limitation → Option Problem
  | [] => none
  | ls => some (.many (ls.map .limitation))

/-- What becomes of a problem: an error to stop with, and text for the error
    stream. Limitations are warnings, or errors in strict mode. -/
structure Outcome where
  failure : Option Problem := none
  warnings : Bytes := []

/-- What becomes of a problem with a file. -/
def report (path : Bytes) (strict : Bool) : Option Problem → Outcome
  | none => {}
  | some cause =>
    if !cause.onlyLimitations then { failure := some (.wrap path cause) }
    else if strict then { failure := some (.wrap (path ++ ": strict mode") cause) }
    else { warnings := "warning: " ++ path ++ ": " ++ cause.text ++ "\n" }

end Problem

end Codegen
