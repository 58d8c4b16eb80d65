import Codegen.Context.Typing
import Codegen.Wasm.Primitive

/-!
# Lowering to WebAssembly

An expression leaves as many cells on the operand stack as its code says: none
after a call that returns nothing, one, or two for a fat value. `value` makes sure
that there is a value, `valueAs` that it has the representation of a type.

What cannot be lowered becomes a `nop`, and zero cells where a value is needed,
and a limitation is recorded.
-/

namespace Codegen.Wasm

def settle : Code × Nat → Code × Rep
  | (c, 0) => (c ++ [.const 0], .scalar)
  | (c, 2) => (c, .fat)
  | (c, _) => (c, .scalar)

/-- Makes sure that a value has the representation of a type; zero cells replace
    one that does not. -/
def coerce (t : Term) (type : Ty) (v : Code × Rep) : Emit Code := do
  let (c, rep) := v
  if rep = type.rep then return c
  else
    Gen.limit t.kind (.representation rep type)
    return c ++ discard rep.words ++ zero type.rep

def unsupported (kind : Kind) (cause : Unsupported) : Emit (Code × Nat) := do
  Gen.limit kind cause
  return (placeholder, 1)

/-- The statements `break` and `continue`. -/
def jump (kind : Kind) : Emit Code := do
  match (← getThe Context).loopTargets? with
  | some targets => return [.br (if kind = .brk then targets.brk else targets.cont)]
  | none =>
    Gen.limit kind (.outsideLoop kind.head)
    return [.nop]

def readName (p : Payload) : Emit (Code × Nat) := do
  match (← getThe Context).varNamed? p.name with
  | some sym => return (load sym, sym.type.rep.words)
  | none =>
    Gen.limit p.kind (.unresolvedName p.name)
    let rep := (← Gen.typeOf (.node p [])).rep
    return (zero rep, rep.words)

/-- Combines two operands that `left` and `right` evaluate. -/
def combine (p : Payload) (lt rt : Ty) (left right : Emit (Code × Rep)) : Emit (Code × Nat) := do
  if lt.rep = .fat || rt.rep = .fat then unsupported p.kind (.operatorOn p.op lt rt)
  else
    match BinaryOp.ofText? p.op with
    | some (.logic op) =>
      let (l, _) ← left
      let (r, _) ← right
      let join : NumOp := match op with | .and => .and | .or => .or
      return (l ++ truth ++ [.num .extendU] ++ r ++ truth ++ [.num .extendU] ++ [.num join], 1)
    | op? =>
      if lt = .decimal || rt = .decimal then
        match op?.bind decimalOp? with
        | none => unsupported p.kind (.decimalOperator p.op)
        | some c =>
          let (l, _) ← left
          let (r, _) ← right
          return (l ++ toFloat lt ++ r ++ toFloat rt ++ c, 1)
      else
        match op?.bind integerOp? with
        | none => unsupported p.kind (.operator p.op)
        | some c =>
          let (l, _) ← left
          let (r, _) ← right
          return (l ++ r ++ c, 1)

/-- Applies a unary operator to an operand that `operand` evaluates. -/
def applyUnary (p : Payload) (type : Ty) (operand : Emit (Code × Rep)) : Emit (Code × Nat) := do
  if p.op = "not" then
    let (c, _) ← operand
    return (c ++ [.num .eqz, .num .extendU], 1)
  else if p.op = "-" && type = .decimal then
    let (c, _) ← operand
    return (c ++ [.num .ofBits, .num .fneg, .num .toBits], 1)
  else if p.op = "-" && type.rep = .scalar then
    let (c, _) ← operand
    return ([.const 0] ++ c ++ [.num .sub], 1)
  else unsupported p.kind (.unaryOperator p.op type)

/-- Calls a function of the program; `pass` evaluates its arguments. -/
def callFunction (scratch : Nat) (p : Payload) (name : Bytes) (count : Nat)
    (pass : List Param → Emit Code) : Emit (Code × Nat) := do
  match (← getThe Context).funcNamed? name with
  | none =>
    Gen.limit p.kind (.unresolvedFunction name)
    return ([.nop], 0)
  | some sym =>
    if count = sym.params.length then
      let c ← pass sym.params
      let called := c ++ [.call sym.storage]
      if !sym.result.hasResult then return (called, 0)
      else if sym.result.rep = .fat then return (called ++ unpack scratch, 2)
      else return (called, 1)
    else
      Gen.limit p.kind (.argumentCount name count sym.params.length)
      return ([.nop], 0)

/-- The length of a fat value that `operand` evaluates, if the type is one of a
    text or an array. -/
def lengthOf (scratch : Nat) (p : Payload) (type : Ty) (operand : Emit (Code × Rep)) :
    Emit (Code × Nat) := do
  if type = .text || type = .array then
    let (c, _) ← operand
    return (c ++ [.localSet scratch, .drop, .localGet scratch], 1)
  else
    Gen.limit p.kind .lengthArgument
    return ([.const 0], 1)

def stringText? : Term → Option Bytes
  | .node p _ => if p.kind = .string then some p.text else none
  | _ => none

/-- Prints a value that `lowered` evaluates. -/
def printValue (scratch : Nat) (arg : Term) (lowered : Emit (Code × Nat)) : Emit Code := do
  let type ← Gen.typeOf arg
  if type = .text then
    match stringText? arg with
    | some raw =>
      let lit ← Gen.addLiteral raw
      return literal32 lit ++ [.call printTextName]
    | none =>
      let (c, rep) := settle (← lowered)
      let length : Code := if rep = .fat then [] else [.const 0]
      return c ++ length ++ [.localSet scratch, .num .wrap, .localGet scratch, .num .wrap,
        .call printTextName]
  else if type = .boolean then
    let (c, _) := settle (← lowered)
    return c ++ [.call (← requestPrintBool)]
  else if type = .decimal then
    Gen.limit arg.kind .decimalPrint
    let (c, _) := settle (← lowered)
    return c ++ [.num .ofBits, .num .toInteger, .call printIntegerName]
  else if type = .array || type = .void then
    Gen.limit arg.kind (.printOf type)
    let (c, cells) ← lowered
    return c ++ discard cells ++ [.nop]
  else
    let (c, _) := settle (← lowered)
    return c ++ [.call printIntegerName]

def elementAddress (base : Code × Rep) (index : Code) : Code :=
  base.1 ++ (match base.2 with | .fat => [.drop] | .scalar => []) ++ [.num .wrap] ++ index
    ++ [.num .wrap, .const32 8, .num .mul32, .num .add32]

mutual

/-- Lowers an expression. Built-in functions are known by name and come before
    those of the program. -/
def expr (scratch : Nat) : Term → Emit (Code × Nat)
  | .missing => throw .missingNode
  | .call _ none _ => throw .missingNode
  | .call p (some name) args =>
    if name = "print" then do
      return (← printAll scratch args, 0)
    else if name = "length" then
      match args with
      | [arg] => do
        let type ← Gen.typeOf arg
        lengthOf scratch p type (settle <$> expr scratch arg)
      | _ => do
        Gen.limit p.kind .lengthArgument
        return ([.const 0], 1)
    else callFunction scratch p name args.length fun params => passArgs scratch params args
  | .node p parts =>
    match p.kind with
    | .integer => return ([.const p.integer.toInt], 1)
    | .decimal => return ([.const p.decimal.bits.toInt64.toInt], 1)
    | .boolean => return ([.const (if p.boolean then 1 else 0)], 1)
    | .string => do
      let lit ← Gen.addLiteral p.text
      return ([.const lit.offset, .const lit.length], 2)
    | .ident => readName p
    | .binary =>
      match parts with
      | left :: right :: _ => do
        let lt ← Gen.typeOf left
        let rt ← Gen.typeOf right
        combine p lt rt (settle <$> expr scratch left) (settle <$> expr scratch right)
      | _ => throw .missingNode
    | .unary =>
      match parts with
      | operand :: _ => do
        let type ← Gen.typeOf operand
        applyUnary p type (settle <$> expr scratch operand)
      | [] => throw .missingNode
    | .array => do
      let base ← Gen.reserveData (8 * parts.length) 8
      let c ← elements scratch base parts
      return (c ++ [.const base, .const parts.length], 2)
    | .index =>
      match parts with
      | base :: index :: _ => do
        let b ← expr scratch base
        let i ← expr scratch index
        return (elementAddress (settle b) (settle i).1 ++ [.load], 1)
      | _ => throw .missingNode
    | .assign => do
      let c ← assign scratch p.kind parts
      return (c, 0)
    | kind => unsupported kind .notAnExpression
termination_by structural t => t

def passArgs (scratch : Nat) (params : List Param) : List Term → Emit Code
  | [] => return []
  | arg :: rest =>
    match params with
    | [] => return []
    | param :: params => do
      let v ← expr scratch arg
      let c ← coerce arg param.type (settle v)
      return c ++ (← passArgs scratch params rest)
termination_by structural ts => ts

def printAll (scratch : Nat) : List Term → Emit Code
  | [] => return []
  | arg :: rest => do
    let c ← printValue scratch arg (expr scratch arg)
    return c ++ (← printAll scratch rest)
termination_by structural ts => ts

def elements (scratch : Nat) (address : Int) : List Term → Emit Code
  | [] => return []
  | element :: rest => do
    let (c, rep) := settle (← expr scratch element)
    match rep with
    | .fat =>
      Gen.limit element.kind (.arrayElement (← Gen.typeOf element))
      return [.const32 address] ++ c ++ [.drop, .drop, .const 0, .store]
        ++ (← elements scratch (address + 8) rest)
    | .scalar =>
      return [.const32 address] ++ c ++ [.store] ++ (← elements scratch (address + 8) rest)
termination_by structural ts => ts

/-- The code of an assignment. -/
def assign (scratch : Nat) (kind : Kind) : List Term → Emit Code
  | .node p parts :: rest =>
    match p.kind with
    | .ident => do
      match (← getThe Context).varNamed? p.name with
      | none =>
        Gen.limit kind (.unresolvedTarget p.name)
        return [.nop]
      | some sym =>
        match rest with
        | value :: _ =>
          let v ← expr scratch value
          let c ← coerce value sym.type (settle v)
          return c ++ store sym
        | [] => throw .missingNode
    | .index =>
      match parts, rest with
      | base :: index :: _, value :: _ => do
        let b ← expr scratch base
        let i ← expr scratch index
        let v ← expr scratch value
        let c ← coerce value .integer (settle v)
        return elementAddress (settle b) (settle i).1 ++ c ++ [.store]
      | _, _ => throw .missingNode
    | other => do
      Gen.limit kind (.assignmentTo other)
      return [.nop]
  | .call p _ _ :: _ => do
    Gen.limit kind (.assignmentTo p.kind)
    return [.nop]
  | _ => throw .missingNode
termination_by structural ts => ts

end

/-- An expression where a value is needed. -/
def value (scratch : Nat) (t : Term) : Emit (Code × Rep) := settle <$> expr scratch t

/-- The same where it has to be of a type. -/
def valueAs (scratch : Nat) (t : Term) (type : Ty) : Emit Code := do
  coerce t type (← value scratch t)

def condition (scratch : Nat) (t : Term) : Emit Code := do
  let (c, _) ← value scratch t
  return c ++ truth

def effect (scratch : Nat) (t : Term) : Emit Code := do
  let (c, cells) ← expr scratch t
  return c ++ discard cells

/-- Declares a variable and stores its first value. The initializer is evaluated
    before the name is in scope. -/
def declareVar (scratch : Nat) (p : Payload) (parts : List Term) : Emit Code := do
  match parts with
  | init :: _ =>
    let type ← if p.type = .unknown then Gen.typeOf init else pure p.type
    let c ← valueAs scratch init type
    let sym ← Gen.declareLocal p.name type
    return c ++ store sym
  | [] =>
    let sym ← Gen.declareLocal p.name p.type
    return zero p.type.rep ++ store sym

def returnValue (scratch : Nat) (parts : List Term) : Emit Code := do
  let result := (← getThe Context).returnType
  match result.hasResult, parts with
  | false, [] => return [.ret]
  | false, t :: _ => return (← effect scratch t) ++ [.ret]
  | true, [] => return [.const 0, .ret]
  | true, t :: _ =>
    let (c, rep) ← value scratch t
    return c ++ (match rep with | .fat => pack scratch | .scalar => []) ++ [.ret]

/-- A loop that tests before each round. -/
def whileCode (done top : Label) (condition body : Code) : Code :=
  [.block done [.loop top (condition ++ [.num .eqz32, .brIf done] ++ body ++ [.br top])]]

/-- A loop that counts a local up from a first value to a last one, both included.
    The body has a block of its own, so that `continue` reaches the step. -/
def forCode (counter limit : Nat) (done top step : Label) (first last body : Code) : Code :=
  first ++ [.localSet counter] ++ last ++ [.localSet limit]
    ++ [.block done [.loop top
      ([.localGet counter, .localGet limit, .num .gtS, .brIf done, .block step body]
        ++ [.localGet counter, .const 1, .num .add, .localSet counter, .br top])]]

mutual

/-- The code of a statement. -/
def stmt (scratch : Nat) : Term → Emit Code
  | .missing => throw .missingNode
  | .call p callee args => effect scratch (.call p callee args)
  | .node p parts =>
    match p.kind with
    | .block => do
      Gen.enterScope
      let c ← stmts scratch parts
      Gen.leaveScope
      return c
    | .varDecl => declareVar scratch p parts
    | .assign => assign scratch p.kind parts
    | .cond => ifChain scratch parts
    | .whileLoop =>
      match parts with
      | t :: body :: _ => do
        let done ← Gen.newLabel
        let top ← Gen.newLabel
        let c ← condition scratch t
        let saved ← Gen.enterLoop ⟨done, top⟩
        let b ← stmt scratch body
        Gen.leaveLoop saved
        return whileCode done top c b
      | _ => throw .missingNode
    | .forRange =>
      match parts with
      | first :: last :: body :: _ => do
        Gen.enterScope
        let counter ← Gen.hiddenLocal .integer
        let limit ← Gen.hiddenLocal .integer
        let a ← valueAs scratch first .integer
        let b ← valueAs scratch last .integer
        let _ ← Gen.bindLocal p.name .integer counter
        let done ← Gen.newLabel
        let top ← Gen.newLabel
        let step ← Gen.newLabel
        let saved ← Gen.enterLoop ⟨done, step⟩
        let c ← stmt scratch body
        Gen.leaveLoop saved
        Gen.leaveScope
        return forCode counter limit done top step a b c
      | _ => throw .missingNode
    | .ret => returnValue scratch parts
    | .brk => jump .brk
    | .cont => jump .cont
    | .classDecl => do
      let _ ← Gen.declareClass p.name p.fields
      return [.comment ("class " ++ p.name ++ ": " ++ Bytes.ofNat p.fields.length ++ " fields")]
    | .funcDecl => do
      Gen.limit p.kind (.nestedFunction p.name)
      return [.nop]
    | .program => do
      Gen.limit p.kind .nestedProgram
      return [.nop]
    | .other name => do
      Gen.limit (.other name) .unknownStatement
      return [.nop]
    | .integer | .decimal | .boolean | .string | .ident | .binary | .unary | .call | .pipe
    | .array | .index => effect scratch (.node p parts)
termination_by structural t => t

def stmts (scratch : Nat) : List Term → Emit Code
  | [] => return []
  | s :: rest => do
    let c ← stmt scratch s
    return c ++ (← stmts scratch rest)
termination_by structural ts => ts

/-- Lowers conditions with their bodies, and a last body without condition, each
    inside the `else` of the one before. -/
def ifChain (scratch : Nat) : List Term → Emit Code
  | t :: body :: rest => do
    let c ← condition scratch t
    let yes ← stmt scratch body
    match rest with
    | [] => return c ++ [.cond yes none]
    | _ :: _ => return c ++ [.cond yes (some (← ifChain scratch rest))]
  | [body] => stmt scratch body
  | [] => return []
termination_by structural ts => ts

end

end Codegen.Wasm
