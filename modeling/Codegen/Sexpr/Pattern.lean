import Codegen.Sexpr.Datum

/-!
# Matching a Datum Against a Pattern

A pattern is a datum in which an ellipsis stands for anything: alone it matches
every datum, among the items of a list it matches all remaining ones. Metadata
and keys that the pattern names have to be present with matching values; those
it does not name are ignored.

A mismatch is a value: the path from the root to the first difference and what
was found there. Its message is a function of that value.
-/

namespace Codegen.Pattern

/-- One step from a datum to one of its parts. -/
inductive Step where
  | item (index : Nat)
  | note (key : Bytes)
  | entry (key : Bytes)
  deriving DecidableEq, Repr

def Step.text : Step → Bytes
  | .item index => "[" ++ Bytes.ofNat index ++ "]"
  | .note key => "^" ++ key
  | .entry key => "." ++ key

/-- What is wrong with a datum. -/
inductive Reason where
  | differs (pattern actual : Datum)
  | missingNote (key : Bytes)
  | missingKey (key : Bytes)
  | itemCount (wanted found : Nat) (actual : Datum)
  | incomparable (pattern : Datum)
  deriving Repr

def Reason.text : Reason → Bytes
  | .differs pattern actual => "expected " ++ pattern.print ++ ", got " ++ actual.print
  | .missingNote key => "missing metadata " ++ key
  | .missingKey key => "missing key " ++ key
  | .itemCount wanted found actual =>
    "expected " ++ Bytes.ofNat wanted ++ " items, got " ++ Bytes.ofNat found ++ " in "
      ++ actual.print
  | .incomparable pattern => "cannot compare " ++ pattern.print

/-- The first difference between a pattern and a datum. -/
structure Mismatch where
  path : List Step
  reason : Reason
  deriving Repr

def Mismatch.message (m : Mismatch) : Bytes :=
  "root" ++ m.path.flatMap Step.text ++ ": " ++ m.reason.text

/-- Why matching did not succeed. A key without a value is `ragged`; data that
    were read from a document have none. -/
inductive Failure where
  | mismatch (cause : Mismatch)
  | ragged
  deriving Repr

def fail (path : List Step) (reason : Reason) : Except Failure Unit :=
  .error (.mismatch ⟨path, reason⟩)

/-- The values that a map stores under a key; `none` where the value is absent. -/
def candidates (key : Bytes) : List Bytes → List Datum → List (Option Datum)
  | [], _ => []
  | k :: keys, [] => if k = key then none :: candidates key keys [] else candidates key keys []
  | k :: keys, v :: values =>
    if k = key then some v :: candidates key keys values else candidates key keys values

mutual

/-- Compares a datum with a pattern; `path` leads to both. -/
def checkAt (path : List Step) : Datum → Datum → Except Failure Unit
  | .ellipsis, _ => .ok ()
  | .symbol p, actual =>
    match actual with
    | .symbol a => if p = a then .ok () else fail path (.differs (.symbol p) actual)
    | _ => fail path (.differs (.symbol p) actual)
  | .string p, actual =>
    match actual with
    | .string a => if p = a then .ok () else fail path (.differs (.string p) actual)
    | _ => fail path (.differs (.string p) actual)
  | .integer p, actual =>
    match actual with
    | .integer a => if p = a then .ok () else fail path (.differs (.integer p) actual)
    | _ => fail path (.differs (.integer p) actual)
  | .list items keys notes, actual =>
    match actual with
    | .list actualItems _ _ => do
      checkNotes path actual keys notes
      checkItems path actual items.length actualItems.length 0 items actualItems
    | _ => fail path (.differs (.list items keys notes) actual)
  | .map keys values, actual =>
    match actual with
    | .map actualKeys actualValues => checkEntries path actualKeys actualValues keys values
    | _ => fail path (.differs (.map keys values) actual)
  | .unknown code, actual =>
    if actual.kind = .other code then fail path (.incomparable (.unknown code))
    else fail path (.differs (.unknown code) actual)
termination_by structural pattern => pattern

def checkNotes (path : List Step) (actual : Datum) (keys : List Bytes) :
    List Datum → Except Failure Unit
  | [] =>
    match keys with
    | [] => .ok ()
    | key :: _ =>
      match actual.note? key with
      | none => fail path (.missingNote key)
      | some _ => .error .ragged
  | p :: patterns =>
    match keys with
    | [] => .ok ()
    | key :: keys =>
      match actual.note? key with
      | none => fail path (.missingNote key)
      | some value => do
        checkAt (path ++ [.note key]) p value
        checkNotes path actual keys patterns
termination_by structural patterns => patterns

def checkItems (path : List Step) (actual : Datum) (wanted found index : Nat) :
    List Datum → List Datum → Except Failure Unit
  | [], _ => if wanted = found then .ok () else fail path (.itemCount wanted found actual)
  | p :: patterns, rest =>
    if p.kind = .ellipsis then .ok ()
    else match rest with
      | [] => fail path (.itemCount wanted found actual)
      | a :: rest => do
        checkAt (path ++ [.item index]) p a
        checkItems path actual wanted found (index + 1) patterns rest
termination_by structural patterns => patterns

/-- Compares the values that a pattern names; a repeated key of the datum has to
    match each time. -/
def checkEntries (path : List Step) (actualKeys : List Bytes) (actualValues : List Datum)
    (keys : List Bytes) : List Datum → Except Failure Unit
  | [] =>
    match keys with
    | [] => .ok ()
    | key :: _ =>
      if (candidates key actualKeys actualValues).isEmpty then fail path (.missingKey key)
      else .error .ragged
  | p :: patterns =>
    match keys with
    | [] => .ok ()
    | key :: keys => do
      let found := candidates key actualKeys actualValues
      if found.isEmpty then fail path (.missingKey key)
      else
        found.forM fun
          | none => .error .ragged
          | some value => checkAt (path ++ [.entry key]) p value
        checkEntries path actualKeys actualValues keys patterns
termination_by structural patterns => patterns

end

/-- The matcher. -/
def check (pattern actual : Datum) : Except Failure Unit := checkAt [] pattern actual

end Codegen.Pattern
