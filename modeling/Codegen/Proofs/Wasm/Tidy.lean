import Codegen.Proofs.Wasm.Survey

/-!
# Programs That Give Every Place Its Cells

A value is one cell or two, and which of them follows from what an expression is lowered
to, not from the type that is written for it. Most places look at the cells: a variable, a
parameter and an element drop a value that does not fit and put zeros there. Some places
trust the type, or take one cell without looking. A condition, an operand, an index and
most printed values are taken as one cell, and `length` takes two.

A program is tidy when those places get what they take. What is refused is not lowered, so
nothing is asked of it. The names matter as well: a variable of the top level whose name
means a function is stored where there is no cell, and two functions whose names are the
same in the module must agree in what they take and give.

Everything here is computed from the program, with the survey for the number of cells.
-/

namespace Codegen.Wasm

/-- An expression whose value is one cell. -/
def single (env : Context) (t : Term) : Bool := (rules.survey env t).rep = .scalar

/-- Whether the operands of an operator are left out, since it does not work on their types. -/
def refusesOperands (env : Context) (p : Payload) (left right : Term) : Bool :=
  (env.typed left).rep = .fat || (env.typed right).rep = .fat
    || !(p.operatorIssues (env.typed left) (env.typed right)).isEmpty

def refusesOperand (env : Context) (p : Payload) (operand : Term) : Bool :=
  !(p.unaryIssues (env.typed operand) (env.typed operand).rep).isEmpty

/-- Whether a printed value has the cells that its type asks for. Texts are looked at, and
    arrays and values that are none are dropped. -/
def printFits (env : Context) (t : Term) : Bool :=
  env.typed t = .text || env.typed t = .array || env.typed t = .void || single env t

/-- Whether the length of a value of this type can be asked for. -/
def hasLength (env : Context) (t : Term) : Bool := env.typed t = .text || env.typed t = .array

mutual

/-- Whether operands in an expression are one cell each wherever one is needed. -/
def tidy (env : Context) : Term → Bool
  | .missing => true
  | .call _ callee args =>
    if callee.getD [] = "print" then tidyPrints env args
    else if callee.getD [] = "length" then
      match args with
      | [arg] => !hasLength env arg || (!single env arg && tidy env arg)
      | _ => true
    else
      match env.funcNamed? (callee.getD []) with
      | none => true
      | some sym => args.length != sym.params.length || tidyAll env args
  | .node p parts =>
    match p.kind, parts with
    | .binary, left :: right :: _ =>
      refusesOperands env p left right
        || (single env left && tidy env left && (single env right && tidy env right))
    | .unary, operand :: _ =>
      refusesOperand env p operand || (single env operand && tidy env operand)
    | .array, parts => tidyAll env parts
    | .index, base :: index :: _ => tidy env base && (single env index && tidy env index)
    | .assign, parts => tidyAssign env parts
    | _, _ => true

def tidyAll (env : Context) : List Term → Bool
  | [] => true
  | t :: ts => tidy env t && tidyAll env ts

def tidyPrints (env : Context) : List Term → Bool
  | [] => true
  | t :: ts => printFits env t && tidy env t && tidyPrints env ts

/-- The same for an assignment, given its target and its value. -/
def tidyAssign (env : Context) : List Term → Bool
  | .node q parts :: value :: _ =>
    match q.kind, parts with
    | .ident, _ => (env.varNamed? q.name).isNone || tidy env value
    | .index, base :: index :: _ =>
      tidy env base && (single env index && tidy env index) && tidy env value
    | _, _ => true
  | _ => true

end

mutual

/-- Whether every place in a statement gets the cells it takes. The condition of a loop may
    leave a cell too many, which the jump back to its start drops. -/
def tidyStmt (env : Context) : Term → Bool
  | .node p parts =>
    match p.kind, parts with
    | .block, parts => tidyStmts env parts
    | .varDecl, init :: _ => tidy env init
    | .assign, parts => tidyAssign env parts
    | .cond, parts => tidyChain env parts
    | .whileLoop, condition :: body :: _ => tidy env condition && tidyStmt env body
    | .forRange, first :: last :: body :: _ =>
      tidy env first && tidy env last && tidyStmt (env.counting p.name) body
    | .ret, value :: _ => tidy env value
    | _, parts => tidy env (.node p parts)
  | t => tidy env t

def tidyStmts (env : Context) : List Term → Bool
  | [] => true
  | s :: rest => tidyStmt env s && tidyStmts (env.after s) rest

def tidyChain (env : Context) : List Term → Bool
  | condition :: body :: rest =>
    single env condition && tidy env condition && tidyStmt env body
      && tidyChain (env.after body) rest
  | [body] => tidyStmt env body
  | [] => true

end

def tidyFunction (env : Context) : Term → Bool
  | .node p (body :: _) => p.kind != .funcDecl || tidyStmt (env.withParams p.params) body
  | _ => true

/-- The same for a statement of the top level. The name of a variable must mean one there. -/
def tidyTop (env : Context) (s : Term) : Bool :=
  match s.kind, s with
  | .funcDecl, _ | .classDecl, _ => true
  | .varDecl, .node p parts =>
    (env.varNamed? p.name).isSome && (match parts with | init :: _ => tidy env init | [] => true)
  | _, s => tidyStmt env s

def tidyTops (env : Context) : List Term → Bool
  | [] => true
  | s :: rest =>
    tidyTop env s && tidyTops (if s.kind.isDeclaration then env else env.after s) rest

def headers (ss : List Term) : List Payload :=
  (ss.filterMap Term.payload?).filter fun p => p.kind == .funcDecl

/-- Whether two functions can be told apart, or need not be. -/
def compatible (p q : Payload) : Bool :=
  mangle p.name != mangle q.name
    || (paramCells p.params == paramCells q.params && p.result.hasResult == q.result.hasResult)

def isMain (p : Payload) : Bool := p.name = "main" && p.params.isEmpty

/-- Whether functions with the same name in the module have the same type, and the name of the
    program's own entry means a function. -/
def tidyNames (ss : List Term) : Bool :=
  (headers ss).all fun p => (headers ss).all (compatible p)
    && (!isMain p || ((Context.ofProgram ss).funcNamed? "main").isSome)

/-- Programs. -/
def tidyProgram (ss : List Term) : Bool :=
  ss.all (tidyFunction (.ofProgram ss)) && tidyTops (.ofProgram ss) ss && tidyNames ss

end Codegen.Wasm
