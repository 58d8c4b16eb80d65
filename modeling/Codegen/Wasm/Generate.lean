import Codegen.Wasm.Lower
import Codegen.Wasm.Text

/-!
# WebAssembly Modules

A program is declared before anything is generated. Then come the functions, and
last the exported entry `main`: the statements at the top level in order, and a
call of the program's own `main` function if it has one without parameters. That
function is not exported; every other one is.
-/

namespace Codegen

namespace Wasm

/-- Declares the statements of a program. -/
def declareTop : Tree → Emit (Option Symbol)
  | .missing => throw .missingNode
  | .node p ts =>
    match p.kind with
    | .funcDecl => do
      let sym ← Gen.declareFunction p.name p.params p.result ("$fn_" ++ mangle p.name)
      return if p.name = "main" && p.params.isEmpty then some sym else none
    | .classDecl => do
      let _ ← Gen.declareClass p.name p.fields
      return none
    | .varDecl => do
      let type ←
        match ts with
        | init :: _ => if p.type = .unknown then Gen.typeOf (.ofTree init) else pure p.type
        | [] => pure p.type
      let storage : Bytes := "$g_" ++ mangle p.name
      let _ ← Gen.declareGlobal p.name type storage
      emitGlobal storage
      if type.rep = .fat then emitGlobal (lengthCell storage)
      return none
    | _ => return none

/-- Declares the statements of a program; the last `main` function counts. -/
def declareAll : List Tree → Emit (Option Symbol)
  | [] => return none
  | s :: rest => do
    let first ← declareTop s
    let later ← declareAll rest
    return later.orElse fun _ => first

def declared (name : Bytes) : Emit Symbol := do
  match (← getThe Context).lookup? name with
  | some sym => return sym
  | none => throw .missingNode

def bindParams : List Param → Emit Unit
  | [] => return ()
  | param :: rest => do
    let _ ← Gen.declareLocal param.name param.type
    bindParams rest

def paramCells (params : List Param) : Nat :=
  params.foldr (fun p n => p.type.rep.words + n) 0

/-- Ends the function under way and gives the number of its local cells. -/
def finish (params : Nat) : Emit Nat := do
  let used ← Gen.slotsUsed
  Gen.endFunction
  return used - params

/-- The code of a function of the program. -/
def function (userMain : Option Symbol) (p : Payload) (children : List Tree) : Emit Unit := do
  match children with
  | [] => throw .missingNode
  | body :: _ =>
    let sym ← declared p.name
    Gen.beginFunction p.name p.result
    bindParams p.params
    let scratch ← Gen.hiddenLocal .integer
    let c ← stmt scratch (.ofTree body)
    let params := paramCells p.params
    let locals ← finish params
    emitFunc
      { name := sym.storage
        exportName := if userMain = some sym then none else some p.name
        params
        hasResult := p.result.hasResult
        locals
        body := c ++ (if p.result.hasResult then [.const 0] else []) }

def functions (userMain : Option Symbol) : List Tree → Emit Unit
  | [] => return ()
  | .node p ts :: rest => do
    if p.kind = .funcDecl then function userMain p ts
    functions userMain rest
  | .missing :: _ => throw .missingNode

/-- Stores the initializer of a top-level variable, or zero. -/
def initVar (scratch : Nat) (sym : Symbol) : List Tree → Emit Code
  | init :: _ => do
    let c ← valueAs scratch (.ofTree init) sym.type
    return c ++ store sym
  | [] => return zero sym.type.rep ++ store sym

def topStatements (scratch : Nat) : List Tree → Emit Code
  | [] => return []
  | s :: rest => do
    let c ←
      match s with
      | .missing => throw .missingNode
      | .node p ts =>
        match p.kind with
        | .funcDecl | .classDecl => pure []
        | .varDecl => do initVar scratch (← declared p.name) ts
        | _ => stmt scratch (.ofTree s)
    return c ++ (← topStatements scratch rest)

/-- Calls the program's own `main` function and drops its result. -/
def callMain (userMain : Option Symbol) : Code :=
  match userMain with
  | none => []
  | some sym => [.call sym.storage] ++ (if sym.result.hasResult then [.drop] else [])

/-- The code of the entry, which runs the statements at the top level. -/
def entry (statements : List Tree) (userMain : Option Symbol) : Emit Unit := do
  Gen.beginFunction "main" .void
  let scratch ← Gen.hiddenLocal .integer
  let c ← topStatements scratch statements
  let locals ← finish 0
  emitFunc
    { name := "$main", exportName := some "main", locals, body := c ++ callMain userMain }

/-- The whole module. -/
def generate (root : Tree) : Emit Unit := do
  let userMain ← declareAll root.statements
  functions userMain root.statements
  entry root.statements userMain

def pageSize : Nat := 65536

/-- The number of pages that hold a number of bytes; at least one. -/
def pagesFor (size : Int) : Int :=
  let pages := (Integer.narrow (size + pageSize - 1)).tdiv pageSize
  if pages = 0 then 1 else pages

def assemble (out : Output) (data : DataSegment) : Module :=
  { pages := pagesFor data.size
    globals := out.globals
    funcs := out.funcs
    helpers := out.helpers
    data := data.contents }

end Wasm

def Wasm.target : Bytes := "wasm"

def Wasm.compile (root : Tree) : Except Fault (Bytes × List Limitation) := do
  let (((), out), ctx) ← ((Wasm.generate root).run {}).run { target := Wasm.target }
  return ((Wasm.assemble out ctx.data).text, ctx.limitations)

end Codegen
