import Codegen.Context.Literal
import Codegen.Context.Symbol
import Codegen.Fault
import Codegen.Report.Limitation

/-!
# The Generation Context

The state that one pass of a code generator threads through a program: fresh
labels, the literal table and data segment, scopes, the helpers emitted so far,
the function under way and the limitations met.

Operations live in `Gen`, a state monad over failure. An operation that fails has
no state to hand on, so whoever catches the failure still has the state from
before it.
-/

namespace Codegen

/-- Where `break` and `continue` go. -/
structure LoopTargets where
  brk : Label
  cont : Label
  deriving DecidableEq, Repr

/-- The function under way. Slots below `nextSlot` are taken. -/
structure FunctionState where
  name : Bytes
  result : Ty
  nextSlot : Nat := 0
  ret : Label
  loop : Option LoopTargets := none
  deriving DecidableEq, Repr

/-- The state of a generation pass. The scopes inside the global one are listed
    from the innermost outward. -/
structure Context where
  target : Bytes
  labels : Nat := 0
  data : DataSegment := {}
  globals : Scope := []
  scopes : List Scope := []
  helpers : List Bytes := []
  function : Option FunctionState := none
  limitations : List Limitation := []
  deriving DecidableEq, Repr

/-- Operations on it. -/
abbrev Gen := StateT Context (Except Fault)

namespace Context

def lookup? (ctx : Context) (name : Bytes) : Option Symbol :=
  Scope.resolve? (ctx.scopes ++ [ctx.globals]) name

def varNamed? (ctx : Context) (name : Bytes) : Option Symbol :=
  (ctx.lookup? name).filter fun sym => sym.kind == .variable

def funcNamed? (ctx : Context) (name : Bytes) : Option Symbol :=
  (ctx.lookup? name).filter fun sym => sym.kind == .function

def declareHere (ctx : Context) (sym : Symbol) : Context :=
  match ctx.scopes with
  | [] => { ctx with globals := ctx.globals.declare sym }
  | scope :: outer => { ctx with scopes := scope.declare sym :: outer }

def declareGlobally (ctx : Context) (sym : Symbol) : Context :=
  { ctx with globals := ctx.globals.declare sym }

/-- Whether the slots from one on were taken for a value of a type. Where they end is found in 64
    bits, so slots at the very end of the range pass for taken ones. -/
def reserves (ctx : Context) (type : Ty) (slot : Int) : Bool :=
  (ctx.function.map FunctionState.nextSlot).any fun next : Nat =>
    Integer.narrow (slot + type.rep.words) ≤ next

def returnType (ctx : Context) : Ty := (ctx.function.map FunctionState.result).getD .void

/-- Where `break` and `continue` go; none outside of a loop. -/
def loopTargets? (ctx : Context) : Option LoopTargets := ctx.function.bind FunctionState.loop

end Context

namespace Gen

def current : Gen FunctionState := do
  match (← get).function with
  | some fn => return fn
  | none => throw .noFunction

def setCurrent (fn : FunctionState) : Gen Unit := modify fun ctx => { ctx with function := some fn }

/-- A label that was not handed out before. -/
def newLabel : Gen Label := do
  let ctx ← get
  set { ctx with labels := ctx.labels + 1 }
  return ⟨ctx.labels⟩

/-- Opens a scope. -/
def enterScope : Gen Unit := modify fun ctx => { ctx with scopes := [] :: ctx.scopes }

def leaveScope : Gen Unit := do
  let ctx ← get
  match ctx.scopes with
  | [] => throw .leavingGlobalScope
  | _ :: outer => set { ctx with scopes := outer }

def declareGlobal (name : Bytes) (type : Ty) (storage : Bytes) : Gen Symbol := do
  let sym := Symbol.staticVar name type storage
  modify fun ctx => ctx.declareGlobally sym
  return sym

/-- Takes the next slots of the function under way for a value of a type. -/
def allocSlots (type : Ty) : Gen Nat := do
  match (← get).function with
  | none => throw .localOutsideFunction
  | some fn =>
    setCurrent { fn with nextSlot := fn.nextSlot + type.rep.words }
    return fn.nextSlot

/-- Declares a local variable in slots of its own. -/
def declareLocal (name : Bytes) (type : Ty) : Gen Symbol := do
  let sym := Symbol.localVar name type (← allocSlots type)
  modify fun ctx => ctx.declareHere sym
  return sym

def hiddenLocal (type : Ty) : Gen Nat := allocSlots type

/-- Names slots that were taken before. -/
def bindLocal (name : Bytes) (type : Ty) (slot : Int) : Gen Symbol := do
  if (← get).reserves type slot then
    let sym := Symbol.localVar name type slot
    modify fun ctx => ctx.declareHere sym
    return sym
  else throw (.unreservedSlot name slot)

def declareFunction (name : Bytes) (params : List Param) (result : Ty) (storage : Bytes) :
    Gen Symbol := do
  let sym := Symbol.ofFunction name params result storage
  modify fun ctx => ctx.declareGlobally sym
  return sym

def declareClass (name : Bytes) (fields : List Param) : Gen Symbol := do
  let sym := Symbol.ofClass name fields
  modify fun ctx => ctx.declareHere sym
  return sym

/-- Begins a function: no slots taken, a return label and a scope of its own. -/
def beginFunction (name : Bytes) (result : Ty) : Gen Unit := do
  let ret ← newLabel
  setCurrent { name, result, ret }
  enterScope

def endFunction : Gen Unit := do
  leaveScope
  modify fun ctx => { ctx with function := none }

def returnLabel : Gen Label := do return (← current).ret

def slotsUsed : Gen Nat := do return (← current).nextSlot

/-- Sets where `break` and `continue` go, and gives where they went before. -/
def enterLoop (targets : LoopTargets) : Gen (Option LoopTargets) := do
  let fn ← current
  setCurrent { fn with loop := some targets }
  return fn.loop

/-- Restores where `break` and `continue` went. -/
def leaveLoop (saved : Option LoopTargets) : Gen Unit := do
  let fn ← current
  setCurrent { fn with loop := saved }

def addLiteral (raw : Bytes) : Gen Literal := do
  let ctx ← get
  let (lit, data) := ctx.data.addLiteral raw
  set { ctx with data }
  return lit

def reserveData (size align : Int) : Gen Int := do
  let ctx ← get
  let (offset, data) := ctx.data.reserve size align
  set { ctx with data }
  return offset

/-- Marks a helper as emitted; false when it already was. -/
def claimHelper (name : Bytes) : Gen Bool := do
  let ctx ← get
  if ctx.helpers.contains name then return false
  else
    set { ctx with helpers := name :: ctx.helpers }
    return true

/-- Records a limitation at a node whose kind has the given name. -/
def record (kind message : Bytes) : Gen Unit :=
  modify fun ctx =>
    { ctx with limitations := ctx.limitations ++ [⟨ctx.target, kind, message⟩] }

def limit (kind : Kind) (cause : Unsupported) : Gen Unit := record kind.name cause.message

end Gen

/-- Runs `emit` the first time a helper is asked for, and says whether it did. The
    helper counts as emitted from the start, so `emit` may ask for it again. -/
def requestHelper {m : Type → Type} [Monad m] [MonadLiftT Gen m] (name : Bytes) (emit : m Unit) :
    m Bool := do
  if ← (liftM (Gen.claimHelper name) : m Bool) then
    emit
    return true
  else return false

end Codegen
