import Codegen.Markdown.Outline
import Codegen.Sexpr.Reader
import Codegen.Text.Blank
import Codegen.Text.Utf8

/-!
# Test Cases in Documents

Test cases are written in Markdown. A heading `Test: NAME` begins a case; a fence
below it holds the input, and others say what is expected. Fences without a
language are prose; any other has to belong to a case and have a known language.
-/

namespace Codegen.Fixture

/-- What the input of a case is: one statement or expression, or a program. -/
inductive InputType where
  | ast
  | program
  deriving DecidableEq, Repr

def InputType.language : InputType → Bytes
  | .ast => "kw-ast"
  | .program => "kw-program"

/-- What is checked: the optimized tree against a pattern, lines of either
    target's text, the output of the program, or the limitations. -/
inductive Check where
  | ast
  | arm64
  | wat
  | execute
  | diagnostics
  deriving DecidableEq, Repr

def Check.language : Check → Bytes
  | .ast => "ast"
  | .arm64 => "arm64"
  | .wat => "wat"
  | .execute => "execute"
  | .diagnostics => "diagnostics"

/-- What a fence is for. -/
inductive Role where
  | input (type : InputType)
  | assertion (check : Check)
  deriving DecidableEq, Repr

def Role.language : Role → Bytes
  | .input type => type.language
  | .assertion check => check.language

def Role.all : List Role :=
  [InputType.ast, .program].map .input ++
    [Check.ast, .arm64, .wat, .execute, .diagnostics].map .assertion

def Role.ofLanguage? (language : Bytes) : Option Role :=
  all.find? fun role => role.language == language

/-- Something that is expected. Only a check of the tree has a pattern. -/
structure Assertion where
  check : Check
  content : Bytes
  pattern : Option Datum := none

/-- Text without surrounding white space. -/
def trimBlank (text : Bytes) : Bytes :=
  let drop := List.dropWhile fun g : Glyph => isBlank g.code
  Utf8.bytesOf (drop (drop (Utf8.glyphs text)).reverse).reverse

/-- The lines of an assertion, without surrounding white space and empty lines. -/
def Assertion.expectedLines (a : Assertion) : List Bytes :=
  (a.content.lines.map trimBlank).filter fun line => !line.isEmpty

/-- A test case. The line is the first one of the input. -/
structure TestCase where
  name : Bytes
  input : Bytes := []
  inputType : Option InputType := none
  line : Nat := 0
  assertions : List Assertion := []

/-- What is wrong with a case or a fence. -/
inductive CaseError where
  | noInput (name : Bytes)
  | noAssertion (name : Bytes)
  | unknownOutside (line : Nat) (language : Bytes)
  | outside (line : Nat) (language : Bytes)
  | unknownInside (line : Nat) (language name : Bytes)
  | secondInput (line : Nat) (name : Bytes)
  | badPattern (line : Nat) (name : Bytes) (cause : Sexpr.ReadError)

def CaseError.message : CaseError → Bytes
  | .noInput name => "test '" ++ name ++ "' has no input fence"
  | .noAssertion name => "test '" ++ name ++ "' has no assertion fences"
  | .unknownOutside line language =>
    "line " ++ Bytes.ofNat line ++ ": unknown fence language '" ++ language
      ++ "' found outside of test case"
  | .outside line language =>
    "line " ++ Bytes.ofNat line ++ ": " ++ language ++ " fence found outside of test case"
  | .unknownInside line language name =>
    "line " ++ Bytes.ofNat line ++ ": unknown fence language '" ++ language ++ "' in test '" ++ name
      ++ "'"
  | .secondInput line name =>
    "line " ++ Bytes.ofNat line ++ ": multiple input fences found in test '" ++ name ++ "'"
  | .badPattern line name cause =>
    "line " ++ Bytes.ofNat line ++ ": failed to parse ast assertion in test '" ++ name ++ "': "
      ++ cause.message

/-- Why a document cannot be used: an error on the way through it, or in the case
    that is under way at its end. -/
inductive ExtractError where
  | walking (cause : CaseError)
  | closing (cause : CaseError)

def ExtractError.message : ExtractError → Bytes
  | .walking cause => "error walking markdown AST: " ++ cause.message
  | .closing cause => cause.message

/-- The cases that are complete, and the one under way. -/
structure Collected where
  done : List TestCase := []
  current : Option TestCase := none

namespace Collected

def flush (c : Collected) : Except CaseError Collected :=
  match c.current with
  | none => .ok c
  | some test =>
    if test.input.isEmpty then .error (.noInput test.name)
    else if test.assertions.isEmpty then .error (.noAssertion test.name)
    else .ok { done := c.done ++ [test], current := none }

def heading (c : Collected) (text : Bytes) : Except CaseError Collected :=
  if text.startsWith "Test: " then do
    let c ← c.flush
    return { c with current := some { name := text.drop 6 } }
  else .ok c

def pattern (test : TestCase) (line : Nat) (check : Check) (content : Bytes) :
    Except CaseError (Option Datum) :=
  match check with
  | .ast => match Sexpr.read content with
    | .ok d => .ok (some d)
    | .error cause => .error (.badPattern line test.name cause)
  | _ => .ok none

/-- Takes in a fence of a case. An input without text does not count. -/
def fence (test : TestCase) (line : Nat) (role : Role) (content : Bytes) :
    Except CaseError TestCase :=
  match role with
  | .input type =>
    if !test.input.isEmpty then .error (.secondInput line test.name)
    else .ok { test with input := content, inputType := some type, line }
  | .assertion check => do
    let p ← pattern test line check content
    return { test with assertions := test.assertions ++ [{ check, content, pattern := p }] }

def block (c : Collected) : Markdown.Block → Except CaseError Collected
  | .heading text => c.heading text
  | .fence line language body =>
    if language.isEmpty then .ok c
    else match c.current, Role.ofLanguage? language with
      | none, none => .error (.unknownOutside line language)
      | none, some _ => .error (.outside line language)
      | some test, none => .error (.unknownInside line language test.name)
      | some test, some role => do
        let test ← fence test line role (Bytes.trimRight (· = Bytes.newline) body)
        return { c with current := some test }

end Collected

/-- The cases that headings and fences make up, in the order of the document. -/
def ofBlocks (blocks : List Markdown.Block) : Except ExtractError (List TestCase) := do
  let c ← (blocks.foldlM Collected.block {}).mapError .walking
  let c ← c.flush.mapError .closing
  return c.done

/-- The test cases of a document. -/
def extract (source : Bytes) : Except ExtractError (List TestCase) :=
  ofBlocks (Markdown.Block.ofSource source)

end Codegen.Fixture
