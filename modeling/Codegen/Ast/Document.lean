import Codegen.Ast.Arena
import Codegen.Number.Numeral
import Codegen.Sexpr.Reader

/-!
# Reading Syntax Trees from Documents

A front end hands over a typed syntax tree as an S-expression document:

    (program
      (func "add" (params (param "a" integer) (param "b" integer)) integer
        (block (return (binary "+" (ident "a") (ident "b")))))
      (call (ident "print") (call (ident "add") 2 3)))

Integers are bare, every other node is a list that begins with the head of its
kind. Any list may carry the type that was resolved for it, as `^{type: T}`.

The children of a node are always the last items of its list. `Form.ofItems`
checks everything before them and says how many items that is; the children
follow by recursion on the items.

A refusal keeps the trees that were complete before it, from left to right,
because reading into an arena leaves their nodes behind.
-/

namespace Codegen

/-- What an argument of a list has to be. -/
inductive ArgumentShape where
  | string
  | symbol
  deriving DecidableEq, Repr

/-- Why a document is no syntax tree. -/
inductive DocumentError where
  | unreadable (cause : Sexpr.ReadError)
  | integerLiteral (text : Bytes) (fault : NumeralFault)
  | decimalLiteral (text : Bytes) (fault : NumeralFault)
  | notANode (found : Datum)
  | integerShape (found : Datum)
  | booleanWord (word : Bytes)
  | argument (head : Bytes) (position : Nat) (wanted : ArgumentShape)
  | operandCount (head : Bytes) (wanted found : Nat)
  | missingCallee
  | tooManyInitializers (name : Bytes)
  | classShape (name : Bytes)
  | conditionalShape
  | tooManyValues
  | functionShape (name : Bytes)
  | paramList (head : Bytes) (found : Datum)
  | param (head : Bytes) (found : Datum)
  | unknownHead (head : Bytes)
  | typeMetadata (cause : DocumentError)
  | inFunction (name : Bytes) (cause : DocumentError)
  deriving Repr

namespace DocumentError

def message : DocumentError → Bytes
  | .unreadable cause => "parsing AST document: " ++ cause.message
  | .integerLiteral text fault =>
    "integer literal " ++ text ++ ": " ++ fault.message "ParseInt" text
  | .decimalLiteral text fault =>
    "decimal literal " ++ quote text ++ ": " ++ fault.message "ParseFloat" text
  | .notANode found => "expected a node, got " ++ found.print
  | .integerShape found => "integer: expected one integer, got " ++ found.print
  | .booleanWord word => "boolean: expected true or false, got " ++ word
  | .argument head position .string =>
    head ++ ": argument " ++ Bytes.ofNat position ++ " must be a string"
  | .argument head position .symbol =>
    head ++ ": argument " ++ Bytes.ofNat position ++ " must be a symbol"
  | .operandCount head wanted found =>
    head ++ ": expected " ++ Bytes.ofNat wanted ++ " operands, got " ++ Bytes.ofNat found
  | .missingCallee => "call: missing callee"
  | .tooManyInitializers name => "var " ++ name ++ ": too many initializers"
  | .classShape name => "class " ++ name ++ ": expected (fields ...)"
  | .conditionalShape => "if: expected a condition and a body"
  | .tooManyValues => "return: too many values"
  | .functionShape name => "func " ++ name ++ ": expected (params ...) RESULT BODY"
  | .paramList head found => "expected (" ++ head ++ " ...), got " ++ found.print
  | .param head found => "expected (" ++ head ++ " NAME TYPE), got " ++ found.print
  | .unknownHead head => "unknown node kind " ++ quote head
  | .typeMetadata cause => "type metadata: " ++ cause.message
  | .inFunction name cause => "func " ++ name ++ ": " ++ cause.message

end DocumentError

/-- A payload, how many items of its list come before the children, and the
    function that errors among the children are reported to lie in. -/
structure Form where
  payload : Payload
  skip : Nat
  function : Option Bytes := none

namespace Form

/-- The text of an atom; none of its own for anything else. -/
def atomText : Datum → Bytes
  | .symbol text | .string text | .integer text => text
  | _ => []

def stringArg (head : Bytes) (args : List Datum) (i : Nat) : Except DocumentError Bytes :=
  match args[i]? with
  | some (.string text) => .ok text
  | _ => .error (.argument head (i + 1) .string)

def symbolArg (head : Bytes) (args : List Datum) (i : Nat) : Except DocumentError Bytes :=
  match args[i]? with
  | some (.symbol text) => .ok text
  | _ => .error (.argument head (i + 1) .symbol)

/-- The type at a position. A class whose name is no symbol is written as a string. -/
def typeArg (head : Bytes) (args : List Datum) (i : Nat) : Except DocumentError Ty :=
  match args[i]? with
  | some (.string text) => .ok ⟨text⟩
  | _ => do
    let text ← symbolArg head args i
    return if text = "unknown" then .unknown else ⟨text⟩

/-- A parameter or field, `(itemHead NAME TYPE)`. -/
def param (itemHead : Bytes) (d : Datum) : Except DocumentError Param :=
  match d with
  | .list [first, second, third] _ _ =>
    if atomText first = itemHead then do
      let name ← stringArg itemHead [second, third] 0
      let type ← typeArg itemHead [second, third] 1
      return ⟨name, type⟩
    else .error (.param itemHead d)
  | _ => .error (.param itemHead d)

/-- A list of parameters or fields, `(listHead (itemHead NAME TYPE)...)`. -/
def params (listHead itemHead : Bytes) (d : Datum) : Except DocumentError (List Param) :=
  match d with
  | .list (first :: items) _ _ =>
    if atomText first = listHead then items.mapM (param itemHead)
    else .error (.paramList listHead d)
  | _ => .error (.paramList listHead d)

def exactly (head : Bytes) (operands : List Datum) (count : Nat) : Except DocumentError Unit :=
  if operands.length = count then .ok ()
  else .error (.operandCount head count operands.length)

def integer (text : Bytes) : Except DocumentError Payload :=
  match Integer.read text with
  | .ok n => .ok { kind := .integer, integer := n, type := .integer }
  | .error fault => .error (.integerLiteral text fault)

/-- Checks the items of the list `d` up to the children, given its kind and the
    items after its head. -/
def ofArgs (d : Datum) (kind : Kind) (args : List Datum) : Except DocumentError Form :=
  let head := kind.head
  let leaf := args.length + 1
  match kind with
  | .integer =>
    match args with
    | [.integer text] => do return { payload := ← integer text, skip := leaf }
    | _ => .error (.integerShape d)
  | .decimal => do
    let text ← stringArg head args 0
    match Decimal.read text with
    | .ok value =>
      return { payload := { kind, decimal := value, type := .decimal }, skip := leaf }
    | .error fault => throw (.decimalLiteral text fault)
  | .boolean => do
    let word ← symbolArg head args 0
    if word = "true" then
      return { payload := { kind, boolean := true, type := .boolean }, skip := leaf }
    else if word = "false" then
      return { payload := { kind, type := .boolean }, skip := leaf }
    else throw (.booleanWord word)
  | .string => do
    let text ← stringArg head args 0
    return { payload := { kind, text, type := .text }, skip := leaf }
  | .ident => do
    let name ← stringArg head args 0
    return { payload := { kind, name }, skip := leaf }
  | .binary => do
    let op ← stringArg head args 0
    exactly head (args.drop 1) 2
    return { payload := { kind, op }, skip := 2 }
  | .unary => do
    let op ← stringArg head args 0
    exactly head (args.drop 1) 1
    return { payload := { kind, op }, skip := 2 }
  | .call => do
    if args.isEmpty then throw .missingCallee
    return { payload := { kind }, skip := 1 }
  | .varDecl => do
    let name ← stringArg head args 0
    let type ← typeArg head args 1
    if 3 < args.length then throw (.tooManyInitializers name)
    return { payload := { kind, name, type }, skip := 3 }
  | .funcDecl => do
    let name ← stringArg head args 0
    match args with
    | [_, ps, _, _] =>
      let params ← (params "params" "param" ps).mapError (.inFunction name)
      let result ← typeArg head args 2
      return { payload := { kind, name, params, result }, skip := 4, function := some name }
    | _ => throw (.functionShape name)
  | .classDecl => do
    let name ← stringArg head args 0
    match args with
    | [_, fs] =>
      let fields ← params "fields" "field" fs
      return { payload := { kind, name, fields }, skip := leaf }
    | _ => throw (.classShape name)
  | .cond => do
    if args.length < 2 then throw .conditionalShape
    return { payload := { kind }, skip := 1 }
  | .forRange => do
    let name ← stringArg head args 0
    exactly head (args.drop 1) 3
    return { payload := { kind, name }, skip := 2 }
  | .pipe | .whileLoop | .assign | .index => do
    exactly head args 2
    return { payload := { kind }, skip := 1 }
  | .brk | .cont => do
    exactly head args 0
    return { payload := { kind }, skip := leaf }
  | .ret => do
    if 1 < args.length then throw .tooManyValues
    return { payload := { kind }, skip := 1 }
  | .array => return { payload := { kind, type := .array }, skip := 1 }
  | .block | .program => return { payload := { kind }, skip := 1 }
  | .other name => .error (.unknownHead name)

def ofDatum (d : Datum) : Except DocumentError Form :=
  match d with
  | .integer text => do return { payload := ← integer text, skip := 0 }
  | .list (.symbol head :: args) _ _ =>
    match Kind.ofHead? head with
    | some kind => ofArgs d kind args
    | none => .error (.unknownHead head)
  | _ => .error (.notANode d)

/-- The payload with the type that metadata give it. Declarations of variables
    and functions have a type of their own and keep it. -/
def annotate (form : Form) (d : Datum) : Except DocumentError Payload :=
  match d.note? "type" with
  | none => .ok form.payload
  | some note => do
    let type ← (typeArg form.payload.kind.head [note] 0).mapError .typeMetadata
    match form.payload.kind with
    | .varDecl | .funcDecl => return form.payload
    | _ => return { form.payload with type }

def locate (form : Form) (cause : DocumentError) : DocumentError :=
  match form.function with
  | some name => .inFunction name cause
  | none => cause

end Form

/-- Why a datum is no tree, and the trees that were complete before. -/
structure Refusal where
  finished : List Tree
  cause : DocumentError

namespace Tree

mutual

/-- The tree of a datum. -/
def ofDatum (d : Datum) : Except Refusal Tree :=
  match Form.ofDatum d with
  | .error cause => .error ⟨[], cause⟩
  | .ok form =>
    let children :=
      match d with
      | .list items _ _ => ofItems form.skip items
      | _ => .ok []
    match children with
    | .error refusal => .error { refusal with cause := form.locate refusal.cause }
    | .ok ts =>
      match form.annotate d with
      | .error cause => .error ⟨ts, cause⟩
      | .ok payload => .ok (.node payload ts)
termination_by structural d

/-- The trees of all items after the first `skip`. -/
def ofItems (skip : Nat) (items : List Datum) : Except Refusal (List Tree) :=
  match items with
  | [] => .ok []
  | d :: rest =>
    match skip with
    | n + 1 => ofItems n rest
    | 0 =>
      match ofDatum d with
      | .error refusal => .error refusal
      | .ok t =>
        match ofItems 0 rest with
        | .error refusal => .error { refusal with finished := t :: refusal.finished }
        | .ok ts => .ok (t :: ts)
termination_by structural items

end

end Tree

namespace Arena

/-- Reads a datum into an arena. When the datum is refused, the nodes of the
    trees before the error stay behind. -/
def load (d : Datum) : Build (Except DocumentError NodeId) := do
  match Tree.ofDatum d with
  | .ok t => return .ok (← add t)
  | .error refusal =>
    let _ ← addAll refusal.finished
    return .error refusal.cause

end Arena

namespace Document

def tree (source : Bytes) : Except DocumentError Tree :=
  match Sexpr.read source with
  | .error cause => .error (.unreadable cause)
  | .ok d => (Tree.ofDatum d).mapError Refusal.cause

/-- Lays a tree without holes out in a new arena. -/
def layout (t : Tree) : Except Fault NodeId × Arena := (Arena.add t).run {}

end Document

end Codegen
