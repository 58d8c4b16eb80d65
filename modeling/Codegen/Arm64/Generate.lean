import Codegen.Arm64.Lower

/-!
# AArch64 Programs

A program is declared before anything is generated, so bodies can refer to
anything at the top level whatever the order. Then come the functions, and last
the entry `main`: the statements at the top level in order, and a call of the
program's own `main` function if it has one without parameters.

Frames are reserved once, for every local that a function declares. That the
frame was large enough is checked at the end of each function.
-/

namespace Codegen

namespace Arm64

def wordsOf (words : Option Nat) : Emit Nat :=
  match words with
  | some n => return n
  | none => throw .missingNode

/-- Declares the statements of a program. -/
def declareTop : Tree → Emit (Option Symbol)
  | .missing => throw .missingNode
  | .node p ts =>
    match p.kind with
    | .funcDecl => do
      let sym ← Gen.declareFunction p.name p.params p.result ("fn_" ++ mangle p.name)
      return if p.name = "main" && p.params.isEmpty then some sym else none
    | .classDecl => do
      let _ ← Gen.declareClass p.name p.fields
      return none
    | .varDecl => do
      let type ←
        match ts with
        | init :: _ => if p.type = .unknown then Gen.typeOf (.ofTree init) else pure p.type
        | [] => pure p.type
      let storage : Bytes := "g_" ++ mangle p.name
      let _ ← Gen.declareGlobal p.name type storage
      reserveStorage storage (type.rep.words * 8)
      return none
    | _ => return none

/-- Declares the statements of a program; the last `main` function counts. -/
def declareAll : List Tree → Emit (Option Symbol)
  | [] => return none
  | s :: rest => do
    let first ← declareTop s
    let later ← declareAll rest
    return later.orElse fun _ => first

def declared (name : Bytes) : Emit Symbol := do
  match (← getThe Context).lookup? name with
  | some sym => return sym
  | none => throw .missingNode

def storeParam (reg : Nat) (sym : Symbol) : Code :=
  match sym.type.rep with
  | .scalar => storeSlot (.x reg) sym.slot
  | .fat => storeSlot (.x reg) sym.slot ++ storeSlot (.x (reg + 1)) (sym.slot + 1)

/-- Makes parameters locals, with their words in registers from `reg` on. A
    parameter that does not fit is declared all the same. -/
def bindParams (function : Bytes) (reg : Nat) : List Param → Emit Code
  | [] => return []
  | param :: rest => do
    let sym ← Gen.declareLocal param.name param.type
    let words := param.type.rep.words
    if 8 < reg + words then
      Gen.limit .funcDecl (.parameterOverflow param.name function)
      bindParams function reg rest
    else
      let c ← bindParams function (reg + words) rest
      return storeParam reg sym ++ c

/-- Ends the function under way: its slots have to fit in the frame. -/
def finish (name : Bytes) (words : Nat) (result : Rep) : Emit Code := do
  let used ← Gen.slotsUsed
  if used ≤ words then
    let ret ← Gen.returnLabel
    Gen.endFunction
    return zero result ++ epilogue ret
  else throw (.frameOverflow name used words)

def paramWords (params : List Param) : Nat :=
  params.foldr (fun p n => p.type.rep.words + n) 0

/-- The code of a function of the program. -/
def function (flavor : Flavor) (p : Payload) (children : List Tree) : Emit Unit := do
  match children with
  | [] => throw .missingNode
  | body :: _ =>
    let sym ← declared p.name
    let words := (← wordsOf body.localWords) + paramWords p.params
    Gen.beginFunction p.name p.result
    let params ← bindParams p.name 0 p.params
    let c ← stmt flavor (.ofTree body)
    let ending ← finish p.name words p.result.rep
    emit (prologue sym.storage words ++ params ++ c ++ ending)

def functions (flavor : Flavor) : List Tree → Emit Unit
  | [] => return ()
  | .node p ts :: rest => do
    if p.kind = .funcDecl then function flavor p ts
    functions flavor rest
  | .missing :: _ => throw .missingNode

/-- Stores the initializer of a top-level variable, or zero. -/
def initVar (flavor : Flavor) (sym : Symbol) : List Tree → Emit Code
  | init :: _ => do
    let (c, _) ← expr flavor (.ofTree init)
    return c ++ store sym
  | [] => return zero sym.type.rep ++ store sym

def topStatements (flavor : Flavor) : List Tree → Emit Code
  | [] => return []
  | s :: rest => do
    let c ←
      match s with
      | .missing => throw .missingNode
      | .node p ts =>
        match p.kind with
        | .funcDecl | .classDecl => pure []
        | .varDecl => do initVar flavor (← declared p.name) ts
        | _ => stmt flavor (.ofTree s)
    return c ++ (← topStatements flavor rest)

/-- The code of the entry, which runs the statements at the top level. -/
def entry (flavor : Flavor) (root : Tree) (userMain : Option Symbol) : Emit Unit := do
  let words ← wordsOf root.entryWords
  Gen.beginFunction "main" .integer
  let c ← topStatements flavor root.statements
  let own :=
    match userMain with
    | some sym => code [.bl sym.storage]
    | none => []
  let ending ← finish "main" words .scalar
  emit (prologue "main" words ++ c ++ own ++ ending)

/-- All sections of a program. -/
def generate (flavor : Flavor) (root : Tree) : Emit Unit := do
  let userMain ← declareAll root.statements
  functions flavor root.statements
  entry flavor root userMain

end Arm64

def Arm64.target : Bytes := "arm64"

def Arm64.compile (flavor : Arm64.Flavor) (root : Tree) : Except Fault (Bytes × List Limitation) := do
  let (((), out), ctx) ← ((Arm64.generate flavor root).run {}).run { target := Arm64.target }
  return (out.text flavor, ctx.limitations)

end Codegen
