import Codegen.Arm64.Helper
import Codegen.Context.Typing

/-!
# Lowering to AArch64

Every expression leaves its value in `x0`, and in `x1` when it is fat. A binary
operator keeps the left operand on the stack while the right one is evaluated;
there is no register allocation.

Lowering never refuses a term that was read from a document: what it cannot
lower becomes a comment and a zero, and a limitation is recorded.
-/

namespace Codegen.Arm64

/-- The operation of an integer operator; the remainder needs two instructions. -/
def arithCode : Arith → Code
  | .add => code [.word .add x0 x1 x0]
  | .sub => code [.word .sub x0 x1 x0]
  | .mul => code [.word .mul x0 x1 x0]
  | .div => code [.word .sdiv x0 x1 x0]
  | .rem => code [.word .sdiv x2 x1 x0, .msub x0 x2 x0 x1]

def compareCond : Compare → Cond
  | .eq => .eq
  | .ne => .ne
  | .lt => .lt
  | .le => .le
  | .gt => .gt
  | .ge => .ge

def floatCond : Compare → Cond
  | .eq => .eq
  | .ne => .ne
  | .lt => .mi
  | .le => .ls
  | .gt => .gt
  | .ge => .ge

def floatOp? : Arith → Option FloatOp
  | .add => some .fadd
  | .sub => some .fsub
  | .mul => some .fmul
  | .div => some .fdiv
  | .rem => none

/-- Combines two truth values, left in `x1` and right in `x0`, each made 0 or 1 first. -/
def logicCode (op : Logic) : Code :=
  code [.cmpImm x1 0, .cset x1 .ne, .cmpImm x0 0, .cset x0 .ne,
    .word (match op with | .and => .and | .or => .orr) x0 x1 x0]

def placeholder (comment : Bytes) : Code := .comment comment :: zero .scalar

/-- The integer operation on `x1` and `x0`, if the operator has one. -/
def integerOp? : BinaryOp → Option Code
  | .arith op => some (arithCode op)
  | .compare op => some (code [.cmp x1 x0, .cset x0 (compareCond op)])
  | .logic _ => none

/-- The decimal operation on `d0` and `d1`, if the operator has one. -/
def decimalOp? : BinaryOp → Option Code
  | .arith op => (floatOp? op).map fun op => code [.float op 0 0 1, .fmovOut x0 0]
  | .compare op => some (code [.fcmp 0 1, .cset x0 (floatCond op)])
  | .logic _ => none

/-- How many arguments fit in the eight argument registers, from the first on. -/
def fitting (words : Nat) : List Term → Gen Nat
  | [] => return 0
  | arg :: rest => do
    let w := (← Gen.typeOf arg).rep.words
    if 8 < words + w then return 0 else return (← fitting (words + w) rest) + 1

/-- Takes arguments from the stack into registers from a number on. -/
def popArgs (n : Nat) : List Rep → Code
  | [] => []
  | rep :: rest => pop rep n ++ popArgs (n + rep.words) rest

/-- Stores an array element that is in `x0`. -/
def storeElement (storage : Bytes) (index : Nat) : Code :=
  let offset := index * 8
  loadAddress x9 storage ++
    if offset ≤ 32760 then code [.str x0 (.offset x9 offset)]
    else loadNat x10 offset ++ code [.str x0 (.sum x9 x10)]

def arrayStorage (count : Nat) : Emit Bytes := do
  let out ← get
  let storage : Bytes := "kw_arr" ++ Bytes.ofNat out.arrays
  set { out with arrays := out.arrays + 1 }
  reserveStorage storage (if count = 0 then 8 else count * 8)
  return storage

/-- The statements `break` and `continue`. -/
def jump (kind : Kind) : Emit Code := do
  match (← getThe Context).loopTargets? with
  | some targets =>
    return code [.branch (if kind = .brk then targets.brk else targets.cont)]
  | none =>
    Gen.limit kind (.outsideLoop kind.head)
    return [.comment (kind.name ++ " outside of a loop")]

def readName (p : Payload) : Emit (Code × Rep) := do
  match (← getThe Context).varNamed? p.name with
  | some sym => return (load sym, sym.type.rep)
  | none =>
    Gen.limit p.kind (.unresolvedName p.name)
    let rep := (← Gen.typeOf (.node p [])).rep
    return (zero rep, rep)

/-- Combines two operands whose code is given, the left value in `x1` and the right
    one in `x0`. -/
def combine (p : Payload) (lt rt : Ty) (l r : Code) : Emit (Code × Rep) := do
  match BinaryOp.ofText? p.op with
  | some (.logic op) => return (l ++ push .scalar ++ r ++ pop .scalar 1 ++ logicCode op, .scalar)
  | op? =>
    if lt = .decimal || rt = .decimal then
      let operands := l ++ toDecimalBits lt ++ push .scalar ++ r ++ toDecimalBits rt
        ++ pop .scalar 1 ++ code [.fmovIn 0 x1, .fmovIn 1 x0]
      match op?.bind decimalOp? with
      | some c => return (operands ++ c, .scalar)
      | none =>
        Gen.limit p.kind (.decimalOperator p.op)
        return (operands ++ placeholder ("unsupported decimal operator " ++ p.op), .scalar)
    else
      let operands := l ++ push .scalar ++ r ++ pop .scalar 1
      match op?.bind integerOp? with
      | some c => return (operands ++ c, .scalar)
      | none =>
        Gen.limit p.kind (.operator p.op)
        return (operands ++ placeholder ("unsupported operator " ++ p.op), .scalar)

def applyUnary (p : Payload) (type : Ty) (c : Code) (rep : Rep) : Emit (Code × Rep) := do
  if p.op = "not" then
    return (c ++ code [.cmpImm x0 0, .cset x0 .eq], .scalar)
  else if p.op = "-" && type = .decimal then
    return (c ++ code [.fmovIn 0 x0, .fneg 0 0, .fmovOut x0 0], .scalar)
  else if p.op = "-" && rep = .scalar then
    return (c ++ code [.neg x0 x0], .scalar)
  else
    Gen.limit p.kind (.unaryOperator p.op type)
    return (c ++ placeholder ("unsupported unary " ++ p.op), .scalar)

/-- Calls a function of the program; `pushes` lowers a number of its arguments. -/
def callFunction (p : Payload) (name : Bytes) (args : List Term)
    (pushes : Nat → Emit (Code × List Rep)) : Emit (Code × Rep) := do
  match (← getThe Context).funcNamed? name with
  | none =>
    Gen.limit p.kind (.unresolvedFunction name)
    return (placeholder ("call to unresolved " ++ name ++ " omitted"), .scalar)
  | some sym =>
    let count ← fitting 0 args
    if count < args.length then Gen.limit p.kind (.argumentOverflow name)
    let (c, reps) ← pushes count
    return (c ++ popArgs 0 reps ++ code [.bl sym.storage], sym.result.rep)

/-- Prints a value that `lowered` evaluates. -/
def printValue (flavor : Flavor) (arg : Term) (lowered : Emit (Code × Rep)) : Emit Code := do
  let type ← Gen.typeOf arg
  if type = .array || type = .void then
    Gen.limit arg.kind (.printOf type)
    return [.comment ("print of " ++ type.name ++ " omitted")]
  else
    let (c, rep) ← lowered
    let printer : Printer :=
      if type = .text then .text
      else if type = .boolean then .boolean
      else if type = .decimal then .decimal
      else .integer
    let helper ← printer.request flavor
    let length := if type = .text && rep = .scalar then code [.movImm x1 0] else []
    return c ++ length ++ code [.bl helper]

mutual

/-- Lowers an expression. Built-in functions are known by name and come before
    those of the program. -/
def expr (flavor : Flavor) : Term → Emit (Code × Rep)
  | .missing => throw .missingNode
  | .call _ none _ => throw .missingNode
  | .call p (some name) args =>
    if name = "print" then do
      return (← printAll flavor args, .scalar)
    else if name = "length" then
      match args with
      | [arg] => do
        let (c, rep) ← expr flavor arg
        if rep = .fat then return (c ++ code [.mov x0 x1], .scalar)
        else
          Gen.limit p.kind .lengthArgument
          return (c ++ zero .scalar, .scalar)
      | _ => do
        Gen.limit p.kind .lengthArgument
        return (zero .scalar, .scalar)
    else callFunction p name args fun count => pushArgs flavor count args
  | .node p parts =>
    match p.kind with
    | .integer => return (loadImm x0 p.integer, .scalar)
    | .decimal => return (loadImm x0 p.decimal.bits.toInt64, .scalar)
    | .boolean => return (code [.movImm x0 (if p.boolean then 1 else 0)], .scalar)
    | .string => do
      let lit ← Gen.addLiteral p.text
      emitLiteral lit
      return (loadAddress x0 (literalSymbol lit) ++ loadNat x1 lit.length, .fat)
    | .ident => readName p
    | .binary =>
      match parts with
      | left :: right :: _ => do
        let lt ← Gen.typeOf left
        let rt ← Gen.typeOf right
        if lt.rep = .fat || rt.rep = .fat then
          Gen.limit p.kind (.operatorOn p.op lt rt)
          return (placeholder ("unsupported " ++ p.op ++ " on " ++ lt.name ++ " and " ++ rt.name),
            .scalar)
        else
          let (l, _) ← expr flavor left
          let (r, _) ← expr flavor right
          combine p lt rt l r
      | _ => throw .missingNode
    | .unary =>
      match parts with
      | operand :: _ => do
        let type ← Gen.typeOf operand
        let (c, rep) ← expr flavor operand
        applyUnary p type c rep
      | [] => throw .missingNode
    | .array => do
      let storage ← arrayStorage parts.length
      let c ← elements flavor storage 0 parts
      return (c ++ loadAddress x0 storage ++ loadNat x1 parts.length, .fat)
    | .index =>
      match parts with
      | base :: index :: _ => do
        let (b, _) ← expr flavor base
        let (i, _) ← expr flavor index
        return (b ++ push .scalar ++ i ++ pop .scalar 1 ++ code [.ldr x0 (.word x1 x0)], .scalar)
      | _ => throw .missingNode
    | .assign => do
      let c ← assign flavor p.kind parts
      return (c ++ zero .scalar, .scalar)
    | kind => do
      Gen.limit kind .notAnExpression
      return (placeholder ("unsupported expression " ++ kind.name), .scalar)
termination_by structural t => t

/-- Lowers the first `count` arguments onto the stack, the last of them first. -/
def pushArgs (flavor : Flavor) (count : Nat) : List Term → Emit (Code × List Rep)
  | [] => return ([], [])
  | arg :: rest =>
    match count with
    | 0 => return ([], [])
    | n + 1 => do
      let (pushes, reps) ← pushArgs flavor n rest
      let (c, rep) ← expr flavor arg
      return (pushes ++ c ++ push rep, rep :: reps)
termination_by structural ts => ts

def printAll (flavor : Flavor) : List Term → Emit Code
  | [] => return []
  | arg :: rest => do
    let c ← printValue flavor arg (expr flavor arg)
    return c ++ (← printAll flavor rest)
termination_by structural ts => ts

def elements (flavor : Flavor) (storage : Bytes) (index : Nat) : List Term → Emit Code
  | [] => return []
  | element :: rest => do
    let (c, rep) ← expr flavor element
    match rep with
    | .fat =>
      Gen.limit element.kind (.arrayElement (← Gen.typeOf element))
      return c ++ (← elements flavor storage (index + 1) rest)
    | .scalar =>
      return c ++ storeElement storage index ++ (← elements flavor storage (index + 1) rest)
termination_by structural ts => ts

/-- The code of an assignment. -/
def assign (flavor : Flavor) (kind : Kind) : List Term → Emit Code
  | .node p parts :: rest =>
    match p.kind with
    | .ident => do
      match (← getThe Context).varNamed? p.name with
      | none =>
        Gen.limit kind (.unresolvedTarget p.name)
        return [.comment ("assignment to unresolved " ++ p.name ++ " omitted")]
      | some sym =>
        match rest with
        | value :: _ =>
          let (c, _) ← expr flavor value
          return c ++ store sym
        | [] => throw .missingNode
    | .index =>
      match parts, rest with
      | base :: index :: _, value :: _ => do
        let (b, _) ← expr flavor base
        let (i, _) ← expr flavor index
        let (v, _) ← expr flavor value
        return b ++ push .scalar ++ i ++ push .scalar ++ v ++ pop .scalar 2 ++ pop .scalar 1
          ++ code [.str x0 (.word x1 x2)]
      | _, _ => throw .missingNode
    | other => do
      Gen.limit kind (.assignmentTo other)
      return [.comment ("assignment to " ++ other.name ++ " omitted")]
  | .call p _ _ :: _ => do
    Gen.limit kind (.assignmentTo p.kind)
    return [.comment ("assignment to " ++ p.kind.name ++ " omitted")]
  | _ => throw .missingNode
termination_by structural ts => ts

end

/-- Declares a variable and stores its first value. The initializer is evaluated
    before the name is in scope. -/
def declareVar (flavor : Flavor) (p : Payload) (parts : List Term) : Emit Code := do
  match parts with
  | init :: _ =>
    let type ← if p.type = .unknown then Gen.typeOf init else pure p.type
    let (c, _) ← expr flavor init
    let sym ← Gen.declareLocal p.name type
    return c ++ store sym
  | [] =>
    let sym ← Gen.declareLocal p.name p.type
    return zero p.type.rep ++ store sym

def returnValue (flavor : Flavor) (parts : List Term) : Emit Code := do
  match parts with
  | value :: _ =>
    let (c, _) ← expr flavor value
    return c ++ code [.branch (← Gen.returnLabel)]
  | [] =>
    let rep := (← getThe Context).returnType.rep
    return zero rep ++ code [.branch (← Gen.returnLabel)]

/-- A loop that tests before each round. -/
def whileCode (start done : Label) (condition body : Code) : Code :=
  [.label start] ++ condition ++ code [.cbz x0 done] ++ body ++ code [.branch start]
    ++ [.label done]

/-- A loop that counts a slot up from a first value to a last one, both included. -/
def forCode (counter limit : Nat) (start step done : Label) (first last body : Code) : Code :=
  first ++ storeSlot x0 counter ++ last ++ storeSlot x0 limit
    ++ [.label start] ++ loadSlot x0 counter ++ loadSlot x1 limit
    ++ code [.cmp x0 x1, .branchIf .gt done] ++ body
    ++ [.label step] ++ loadSlot x0 counter ++ code [.addImm x0 x0 1] ++ storeSlot x0 counter
    ++ code [.branch start] ++ [.label done]

mutual

/-- The code of a statement. -/
def stmt (flavor : Flavor) : Term → Emit Code
  | .missing => throw .missingNode
  | .call p callee args => do
    let (c, _) ← expr flavor (.call p callee args)
    return c
  | .node p parts =>
    match p.kind with
    | .block => do
      Gen.enterScope
      let c ← stmts flavor parts
      Gen.leaveScope
      return c
    | .varDecl => declareVar flavor p parts
    | .assign => assign flavor p.kind parts
    | .cond => do
      let join ← Gen.newLabel
      let c ← ifChain flavor join parts
      return c ++ [.label join]
    | .whileLoop =>
      match parts with
      | condition :: body :: _ => do
        let start ← Gen.newLabel
        let done ← Gen.newLabel
        let (c, _) ← expr flavor condition
        let saved ← Gen.enterLoop ⟨done, start⟩
        let b ← stmt flavor body
        Gen.leaveLoop saved
        return whileCode start done c b
      | _ => throw .missingNode
    | .forRange =>
      match parts with
      | first :: last :: body :: _ => do
        Gen.enterScope
        let counter ← Gen.hiddenLocal .integer
        let limit ← Gen.hiddenLocal .integer
        let (a, _) ← expr flavor first
        let (b, _) ← expr flavor last
        let _ ← Gen.bindLocal p.name .integer counter
        let start ← Gen.newLabel
        let step ← Gen.newLabel
        let done ← Gen.newLabel
        let saved ← Gen.enterLoop ⟨done, step⟩
        let c ← stmt flavor body
        Gen.leaveLoop saved
        Gen.leaveScope
        return forCode counter limit start step done a b c
      | _ => throw .missingNode
    | .ret => returnValue flavor parts
    | .brk => jump .brk
    | .cont => jump .cont
    | .classDecl => do
      let _ ← Gen.declareClass p.name p.fields
      return [.comment ("class " ++ p.name ++ ": " ++ Bytes.ofNat p.fields.length ++ " fields")]
    | .funcDecl => do
      Gen.limit p.kind (.nestedFunction p.name)
      return [.comment ("nested function " ++ p.name ++ " omitted")]
    | .program => do
      Gen.limit p.kind .nestedProgram
      return [.comment "nested program omitted"]
    | .other name => do
      Gen.limit (.other name) .unknownStatement
      return [.comment ("unsupported statement " ++ name)]
    | .integer | .decimal | .boolean | .string | .ident | .binary | .unary | .call | .pipe
    | .array | .index => do
      let (c, _) ← expr flavor (.node p parts)
      return c
termination_by structural t => t

def stmts (flavor : Flavor) : List Term → Emit Code
  | [] => return []
  | s :: rest => do
    let c ← stmt flavor s
    return c ++ (← stmts flavor rest)
termination_by structural ts => ts

/-- Lowers conditions with their bodies, and a last body without condition. A body
    that belongs to a condition jumps to `join` at its end. -/
def ifChain (flavor : Flavor) (join : Label) : List Term → Emit Code
  | condition :: body :: rest => do
    let next ← Gen.newLabel
    let (c, _) ← expr flavor condition
    let b ← stmt flavor body
    return c ++ code [.cbz x0 next] ++ b ++ code [.branch join] ++ [.label next]
      ++ (← ifChain flavor join rest)
  | [body] => stmt flavor body
  | [] => return []
termination_by structural ts => ts

end

end Codegen.Arm64
