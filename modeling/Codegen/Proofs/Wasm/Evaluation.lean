import Codegen.Proofs.Shape
import Codegen.Proofs.Steps
import Codegen.Proofs.Wasm.Uses

/-!
# How WebAssembly Code of Expressions Comes About

`Produces` says what a run of `expr` and its relatives was, one rule for each way that they
can go: the code that was put together, the cells that it leaves, the names that were looked
up, and the output and context before and after.

The code of an operand is made fit for its use by `settle` and `coerce`. Both only add plain
code at its end.
-/

namespace Codegen.Wasm

/-- The output and the context at a point of a run. -/
abbrev Stage := Output × Context

/-- What is lowered: an expression, the arguments of a call, a printed value or several, the
    elements of an array literal from an address on, or an assignment. -/
inductive Job where
  | expr (t : Term)
  | passes (params : List Param) (args : List Term)
  | print (arg : Term)
  | prints (args : List Term)
  | elements (address : Int) (ts : List Term)
  | assign (kind : Kind) (parts : List Term)

/-- Code, the number of cells it leaves, and the names that were looked up. -/
structure Lowered where
  code : Code
  cells : Nat
  reads : List Read

def literal? (p : Payload) : Option Int :=
  match p.kind with
  | .integer => some p.integer.toInt
  | .decimal => some p.decimal.bits.toInt64.toInt
  | .boolean => some (if p.boolean then 1 else 0)
  | _ => none

/-- The code of a value where one of a type is needed, and what is reported. -/
def coercion (t : Term) (type : Ty) (v : Code × Rep) : Code × List Issue :=
  if v.2 = type.rep then (v.1, [])
  else (v.1 ++ discard v.2.words ++ zero type.rep, [⟨t.kind, .representation v.2 type⟩])

def afterCall (scratch : Nat) (result : Ty) : Code × Nat :=
  if !result.hasResult then ([], 0)
  else if result.rep = .fat then (unpack scratch, 2)
  else ([], 1)

/-- The helper that prints truth values, for the places of its two texts. -/
def printBool (yes no : Literal) : Func :=
  { name := printBoolName
    params := 1
    body := [.localGet 0, .num .eqz, .cond (literal32 no) (some (literal32 yes)),
      .call printTextName] }

def Output.withHelper (s : Output) (f : Func) : Output := { s with helpers := s.helpers ++ [f] }

/-- The helper for truth values is added the first time that it is asked for. -/
inductive Requests : Stage → Stage → Prop where
  | old {s ctx} (h : printBoolName ∈ ctx.helpers) : Requests (s, ctx) (s, ctx)
  | new {s ctx yes no data data'} (h : printBoolName ∉ ctx.helpers)
      (hyes : ctx.data.addLiteral "true" = (yes, data))
      (hno : data.addLiteral "false" = (no, data')) :
      Requests (s, ctx)
        (s.withHelper (printBool yes no), { ctx.claiming printBoolName with data := data' })

variable (scratch : Nat) in
/-- How code of expressions comes about. -/
inductive Produces : Job → Stage → Lowered → Stage → Prop where
  | printCall {p args st c reads st'} (h : Produces (.prints args) st ⟨c, 0, reads⟩ st') :
      Produces (.expr (.call p (some "print") args)) st ⟨c, 0, reads⟩ st'
  | length {p arg s ctx type c cells reads st'} (htype : ctx.typeOf arg = .ok type)
      (hfat : type = .text ∨ type = .array)
      (h : Produces (.expr arg) (s, ctx) ⟨c, cells, reads⟩ st') :
      Produces (.expr (.call p (some "length") [arg])) (s, ctx)
        ⟨(settle (c, cells)).1 ++ [.localSet scratch, .drop, .localGet scratch], 1, reads⟩ st'
  | lengthRefused {p arg s ctx type} (htype : ctx.typeOf arg = .ok type)
      (hfat : ¬ (type = .text ∨ type = .array)) :
      Produces (.expr (.call p (some "length") [arg])) (s, ctx) ⟨[.const 0], 1, []⟩
        (s, ctx.reporting [⟨p.kind, .lengthArgument⟩])
  | lengthArity {p args s ctx} (h : args.length ≠ 1) :
      Produces (.expr (.call p (some "length") args)) (s, ctx) ⟨[.const 0], 1, []⟩
        (s, ctx.reporting [⟨p.kind, .lengthArgument⟩])
  | unresolved {p args s ctx} {name : Bytes} (hprint : name ≠ "print") (hlength : name ≠ "length")
      (hsym : ctx.funcNamed? name = none) :
      Produces (.expr (.call p (some name) args)) (s, ctx)
        ⟨[.nop], 0, [ctx.reading name]⟩ (s, ctx.reporting [⟨p.kind, .unresolvedFunction name⟩])
  | callArity {p args s ctx sym} {name : Bytes} (hprint : name ≠ "print")
      (hlength : name ≠ "length") (hsym : ctx.funcNamed? name = some sym)
      (hcount : args.length ≠ sym.params.length) :
      Produces (.expr (.call p (some name) args)) (s, ctx) ⟨[.nop], 0, [ctx.reading name]⟩
        (s, ctx.reporting [⟨p.kind, .argumentCount name args.length sym.params.length⟩])
  | call {p args s ctx sym c after cells reads st'} {name : Bytes} (hprint : name ≠ "print")
      (hlength : name ≠ "length") (hsym : ctx.funcNamed? name = some sym)
      (hcount : args.length = sym.params.length)
      (h : Produces (.passes sym.params args) (s, ctx) ⟨c, 0, reads⟩ st')
      (hafter : afterCall scratch sym.result = (after, cells)) :
      Produces (.expr (.call p (some name) args)) (s, ctx)
        ⟨c ++ [.call sym.storage] ++ after, cells, ctx.reading name :: reads⟩ st'
  | literal {p parts st n} (h : literal? p = some n) :
      Produces (.expr (.node p parts)) st ⟨[.const n], 1, []⟩ st
  | string {p parts s ctx lit data} (hkind : p.kind = .string)
      (hlit : ctx.data.addLiteral p.text = (lit, data)) :
      Produces (.expr (.node p parts)) (s, ctx)
        ⟨[.const lit.offset, .const lit.length], 2, []⟩ (s, { ctx with data })
  | ident {p parts s ctx sym} (hkind : p.kind = .ident) (hsym : ctx.varNamed? p.name = some sym) :
      Produces (.expr (.node p parts)) (s, ctx)
        ⟨load sym, sym.type.rep.words, [ctx.reading p.name]⟩ (s, ctx)
  | unknown {p parts s ctx type} (hkind : p.kind = .ident) (hsym : ctx.varNamed? p.name = none)
      (htype : (ctx.reporting [⟨p.kind, .unresolvedName p.name⟩]).typeOf (.node p []) = .ok type) :
      Produces (.expr (.node p parts)) (s, ctx)
        ⟨zero type.rep, type.rep.words, [ctx.reading p.name]⟩
        (s, ctx.reporting [⟨p.kind, .unresolvedName p.name⟩])
  | binaryRefused {p left right rest s ctx lt rt cause} (hkind : p.kind = .binary)
      (hlt : ctx.typeOf left = .ok lt) (hrt : ctx.typeOf right = .ok rt)
      (hop : combination p lt rt = .error cause) :
      Produces (.expr (.node p (left :: right :: rest))) (s, ctx) ⟨placeholder, 1, []⟩
        (s, ctx.reporting [⟨p.kind, cause⟩])
  | binary {p left right rest s ctx lt rt f l lcells lreads st1 r rcells rreads st'}
      (hkind : p.kind = .binary) (hlt : ctx.typeOf left = .ok lt) (hrt : ctx.typeOf right = .ok rt)
      (hop : combination p lt rt = .ok f)
      (hl : Produces (.expr left) (s, ctx) ⟨l, lcells, lreads⟩ st1)
      (hr : Produces (.expr right) st1 ⟨r, rcells, rreads⟩ st') :
      Produces (.expr (.node p (left :: right :: rest))) (s, ctx)
        ⟨f (settle (l, lcells)).1 (settle (r, rcells)).1, 1, lreads ++ rreads⟩ st'
  | unaryRefused {p operand rest s ctx type cause} (hkind : p.kind = .unary)
      (htype : ctx.typeOf operand = .ok type) (hop : application p type = .error cause) :
      Produces (.expr (.node p (operand :: rest))) (s, ctx) ⟨placeholder, 1, []⟩
        (s, ctx.reporting [⟨p.kind, cause⟩])
  | unary {p operand rest s ctx type f c cells reads st'} (hkind : p.kind = .unary)
      (htype : ctx.typeOf operand = .ok type) (hop : application p type = .ok f)
      (h : Produces (.expr operand) (s, ctx) ⟨c, cells, reads⟩ st') :
      Produces (.expr (.node p (operand :: rest))) (s, ctx) ⟨f (settle (c, cells)).1, 1, reads⟩ st'
  | array {p parts s ctx base data c reads st'} (hkind : p.kind = .array)
      (hbase : ctx.data.reserve (8 * parts.length) 8 = (base, data))
      (h : Produces (.elements base parts) (s, { ctx with data }) ⟨c, 0, reads⟩ st') :
      Produces (.expr (.node p parts)) (s, ctx)
        ⟨c ++ [.const base, .const parts.length], 2, reads⟩ st'
  | index {p base index rest st b bcells breads st1 i icells ireads st'} (hkind : p.kind = .index)
      (hb : Produces (.expr base) st ⟨b, bcells, breads⟩ st1)
      (hi : Produces (.expr index) st1 ⟨i, icells, ireads⟩ st') :
      Produces (.expr (.node p (base :: index :: rest))) st
        ⟨elementAddress (settle (b, bcells)) (settle (i, icells)).1 ++ [.load], 1,
          breads ++ ireads⟩ st'
  | assign {p parts st c reads st'} (hkind : p.kind = .assign)
      (h : Produces (.assign p.kind parts) st ⟨c, 0, reads⟩ st') :
      Produces (.expr (.node p parts)) st ⟨c, 0, reads⟩ st'
  | other {p parts s ctx} (hkind : p.kind.isNoExpression = true) :
      Produces (.expr (.node p parts)) (s, ctx) ⟨placeholder, 1, []⟩
        (s, ctx.reporting [⟨p.kind, .notAnExpression⟩])
  | passNone {params args st} (h : params = [] ∨ args = []) :
      Produces (.passes params args) st ⟨[], 0, []⟩ st
  | pass {param params arg args st a cells areads s1 ctx1 v c reads st'}
      (harg : Produces (.expr arg) st ⟨a, cells, areads⟩ (s1, ctx1))
      (hv : coercion arg param.type (settle (a, cells)) = v)
      (hargs : Produces (.passes params args) (s1, ctx1.reporting v.2) ⟨c, 0, reads⟩ st') :
      Produces (.passes (param :: params) (arg :: args)) st ⟨v.1 ++ c, 0, areads ++ reads⟩ st'
  | printLiteral {arg s ctx raw lit data} (htype : ctx.typeOf arg = .ok .text)
      (hraw : stringText? arg = some raw) (hlit : ctx.data.addLiteral raw = (lit, data)) :
      Produces (.print arg) (s, ctx) ⟨literal32 lit ++ [.call printTextName], 0, []⟩
        (s, { ctx with data })
  | printText {arg s ctx c cells length reads st'} (htype : ctx.typeOf arg = .ok .text)
      (hraw : stringText? arg = none) (h : Produces (.expr arg) (s, ctx) ⟨c, cells, reads⟩ st')
      (hlength : length = if (settle (c, cells)).2 = .fat then [] else [.const 0]) :
      Produces (.print arg) (s, ctx)
        ⟨(settle (c, cells)).1 ++ length ++ [.localSet scratch, .num .wrap, .localGet scratch,
          .num .wrap, .call printTextName], 0, reads⟩ st'
  | printBoolean {arg s ctx c cells reads st1 st'} (htype : ctx.typeOf arg = .ok .boolean)
      (h : Produces (.expr arg) (s, ctx) ⟨c, cells, reads⟩ st1) (hhelper : Requests st1 st') :
      Produces (.print arg) (s, ctx) ⟨(settle (c, cells)).1 ++ [.call printBoolName], 0, reads⟩ st'
  | printDecimal {arg s ctx c cells reads st'} (htype : ctx.typeOf arg = .ok .decimal)
      (h : Produces (.expr arg) (s, ctx.reporting [⟨arg.kind, .decimalPrint⟩])
        ⟨c, cells, reads⟩ st') :
      Produces (.print arg) (s, ctx)
        ⟨(settle (c, cells)).1 ++ [.num .ofBits, .num .toInteger, .call printIntegerName], 0,
          reads⟩ st'
  | printRefused {arg s ctx type c cells reads st'} (htype : ctx.typeOf arg = .ok type)
      (hrefused : type = .array ∨ type = .void)
      (h : Produces (.expr arg) (s, ctx.reporting [⟨arg.kind, .printOf type⟩])
        ⟨c, cells, reads⟩ st') :
      Produces (.print arg) (s, ctx) ⟨c ++ discard cells ++ [.nop], 0, reads⟩ st'
  | printInteger {arg s ctx type c cells reads st'} (htype : ctx.typeOf arg = .ok type)
      (hother : type ≠ .text ∧ type ≠ .boolean ∧ type ≠ .decimal ∧ ¬ (type = .array ∨ type = .void))
      (h : Produces (.expr arg) (s, ctx) ⟨c, cells, reads⟩ st') :
      Produces (.print arg) (s, ctx)
        ⟨(settle (c, cells)).1 ++ [.call printIntegerName], 0, reads⟩ st'
  | printsNone {st} : Produces (.prints []) st ⟨[], 0, []⟩ st
  | prints {arg args st a areads st1 c reads st'}
      (harg : Produces (.print arg) st ⟨a, 0, areads⟩ st1)
      (hargs : Produces (.prints args) st1 ⟨c, 0, reads⟩ st') :
      Produces (.prints (arg :: args)) st ⟨a ++ c, 0, areads ++ reads⟩ st'
  | elementsNone {address st} : Produces (.elements address []) st ⟨[], 0, []⟩ st
  | elementFat {address element rest st e cells ereads s1 ctx1 type c reads st'}
      (helement : Produces (.expr element) st ⟨e, cells, ereads⟩ (s1, ctx1))
      (hrep : (settle (e, cells)).2 = .fat) (htype : ctx1.typeOf element = .ok type)
      (hrest : Produces (.elements (address + 8) rest)
        (s1, ctx1.reporting [⟨element.kind, .arrayElement type⟩]) ⟨c, 0, reads⟩ st') :
      Produces (.elements address (element :: rest)) st
        ⟨[.const32 address] ++ (settle (e, cells)).1 ++ [.drop, .drop, .const 0, .store] ++ c, 0,
          ereads ++ reads⟩ st'
  | elementScalar {address element rest st e cells ereads st1 c reads st'}
      (helement : Produces (.expr element) st ⟨e, cells, ereads⟩ st1)
      (hrep : (settle (e, cells)).2 = .scalar)
      (hrest : Produces (.elements (address + 8) rest) st1 ⟨c, 0, reads⟩ st') :
      Produces (.elements address (element :: rest)) st
        ⟨[.const32 address] ++ (settle (e, cells)).1 ++ [.store] ++ c, 0, ereads ++ reads⟩ st'
  | assignUnresolved {kind p parts rest s ctx} (hkind : p.kind = .ident)
      (hsym : ctx.varNamed? p.name = none) :
      Produces (.assign kind (.node p parts :: rest)) (s, ctx)
        ⟨[.nop], 0, [ctx.reading p.name]⟩ (s, ctx.reporting [⟨kind, .unresolvedTarget p.name⟩])
  | assignVariable {kind p parts value rest s ctx sym a cells reads s' ctx' v}
      (hkind : p.kind = .ident) (hsym : ctx.varNamed? p.name = some sym)
      (hvalue : Produces (.expr value) (s, ctx) ⟨a, cells, reads⟩ (s', ctx'))
      (hv : coercion value sym.type (settle (a, cells)) = v) :
      Produces (.assign kind (.node p parts :: value :: rest)) (s, ctx)
        ⟨v.1 ++ store sym, 0, ctx.reading p.name :: reads⟩ (s', ctx'.reporting v.2)
  | assignElement {kind p base index more value rest st b bcells breads st1 i icells ireads st2 a
        cells reads s' ctx' v} (hkind : p.kind = .index)
      (hb : Produces (.expr base) st ⟨b, bcells, breads⟩ st1)
      (hi : Produces (.expr index) st1 ⟨i, icells, ireads⟩ st2)
      (hvalue : Produces (.expr value) st2 ⟨a, cells, reads⟩ (s', ctx'))
      (hv : coercion value .integer (settle (a, cells)) = v) :
      Produces (.assign kind (.node p (base :: index :: more) :: value :: rest)) st
        ⟨elementAddress (settle (b, bcells)) (settle (i, icells)).1 ++ v.1 ++ [.store], 0,
          breads ++ ireads ++ reads⟩ (s', ctx'.reporting v.2)
  | assignRefused {kind target rest s ctx} (htarget : target.isPlace = false)
      (hnode : target ≠ .missing) : Produces (.assign kind (target :: rest)) (s, ctx) ⟨[.nop], 0, []⟩
        (s, ctx.reporting [⟨kind, .assignmentTo target.kind⟩])

section Runs

variable {scratch : Nat} {st st' : Stage}

def Job.Runs (scratch : Nat) : Job → Stage → Lowered → Stage → Prop
  | .expr t, st, l, st' => Ends (Wasm.expr scratch t) st.1 st.2 (l.code, l.cells) st'.1 st'.2
  | .passes params args, st, l, st' =>
    Ends (passArgs scratch params args) st.1 st.2 l.code st'.1 st'.2
  | .print arg, st, l, st' =>
    Ends (printValue scratch arg (Wasm.expr scratch arg)) st.1 st.2 l.code st'.1 st'.2
  | .prints args, st, l, st' => Ends (printAll scratch args) st.1 st.2 l.code st'.1 st'.2
  | .elements address ts, st, l, st' =>
    Ends (Wasm.elements scratch address ts) st.1 st.2 l.code st'.1 st'.2
  | .assign kind parts, st, l, st' =>
    Ends (Wasm.assign scratch kind parts) st.1 st.2 l.code st'.1 st'.2

theorem ends_coerce {t : Term} {type : Ty} {v : Code × Rep} {c : Code × List Issue}
    (h : coercion t type v = c) (s : Output) (ctx : Context) :
    Ends (coerce t type v) s ctx c.1 s (ctx.reporting c.2) := by
  subst h
  unfold coerce coercion
  by_cases hrep : v.2 = type.rep
  · simp only [if_pos hrep, Context.reporting_nil]
    exact ends_pure
  · simp only [if_neg hrep]
    exact ends_bind ends_limit ends_pure

theorem ends_unsupported (kind : Kind) (cause : Unsupported) (s : Output) (ctx : Context) :
    Ends (unsupported kind cause) s ctx (placeholder, 1) s (ctx.reporting [⟨kind, cause⟩]) :=
  ends_bind ends_limit ends_pure

theorem Requests.ends (h : Requests st st') :
    Ends requestPrintBool st.1 st.2 printBoolName st'.1 st'.2 := by
  cases h with
  | old h => exact ends_bind (ends_requestHelper_old _ h) ends_pure
  | @new _ _ yes no data data' h hyes hno =>
    obtain rfl : _ = yes := congrArg Prod.fst hyes
    obtain rfl : _ = data := congrArg Prod.snd hyes
    obtain rfl : _ = no := congrArg Prod.fst hno
    obtain rfl : _ = data' := congrArg Prod.snd hno
    exact ends_bind (ends_requestHelper_new h (ends_bind ends_addLiteral
      (ends_bind ends_addLiteral ends_modify))) ends_pure

section Functions

variable {p : Payload} {name : Bytes} {sym : Symbol} {s s' : Output} {ctx ctx' : Context}

theorem ends_readName (hsym : ctx.varNamed? p.name = some sym) :
    Ends (readName p) s ctx (load sym, sym.type.rep.words) s ctx := by
  refine ends_bind ends_context ?_
  rw [hsym]
  exact ends_pure

theorem ends_readName_unknown {type : Ty} (hsym : ctx.varNamed? p.name = none)
    (htype : (ctx.reporting [⟨p.kind, .unresolvedName p.name⟩]).typeOf (.node p []) = .ok type) :
    Ends (readName p) s ctx (zero type.rep, type.rep.words) s
      (ctx.reporting [⟨p.kind, .unresolvedName p.name⟩]) := by
  refine ends_bind ends_context ?_
  rw [hsym]
  exact ends_bind ends_limit (ends_bind (ends_typeOf htype) ends_pure)

variable {count : Nat} {pass : List Param → Emit Code}

theorem ends_callFunction_unresolved (hsym : ctx.funcNamed? name = none) :
    Ends (callFunction scratch p name count pass) s ctx ([.nop], 0) s
      (ctx.reporting [⟨p.kind, .unresolvedFunction name⟩]) := by
  refine ends_bind ends_context ?_
  rw [hsym]
  exact ends_bind ends_limit ends_pure

theorem ends_callFunction_arity (hsym : ctx.funcNamed? name = some sym)
    (hcount : count ≠ sym.params.length) :
    Ends (callFunction scratch p name count pass) s ctx ([.nop], 0) s
      (ctx.reporting [⟨p.kind, .argumentCount name count sym.params.length⟩]) := by
  refine ends_bind ends_context ?_
  rw [hsym]
  simp only [if_neg hcount]
  exact ends_bind ends_limit ends_pure

/-- A call takes its arguments, and unpacks a fat result. -/
theorem ends_callFunction (hsym : ctx.funcNamed? name = some sym)
    (hcount : count = sym.params.length) {c after : Code} {cells : Nat}
    (hpass : Ends (pass sym.params) s ctx c s' ctx')
    (hafter : afterCall scratch sym.result = (after, cells)) :
    Ends (callFunction scratch p name count pass) s ctx (c ++ [.call sym.storage] ++ after, cells)
      s' ctx' := by
  refine ends_bind ends_context ?_
  rw [hsym]
  simp only [if_pos hcount]
  refine ends_bind hpass ?_
  unfold afterCall at hafter
  split_ifs at hafter ⊢ with hresult hfat <;> cases hafter
  · rw [List.append_nil]
    exact ends_pure
  · exact ends_pure
  · rw [List.append_nil]
    exact ends_pure

/-- What is neither a name nor an element is refused as a target. -/
theorem ends_assign_refused {kind : Kind} {target : Term} (rest : List Term)
    (htarget : target.isPlace = false) (hnode : target ≠ .missing) :
    Ends (assign scratch kind (target :: rest)) s ctx [.nop] s
      (ctx.reporting [⟨kind, .assignmentTo target.kind⟩]) := by
  rcases target with ⟨⟨place⟩, parts⟩ | ⟨p, callee, args⟩ | _
  · cases place with
    | ident | index => cases htarget
    | _ => exact ends_bind ends_limit ends_pure
  · exact ends_bind ends_limit ends_pure
  · exact absurd rfl hnode

end Functions

/-- What the rules say is what the generator does. -/
theorem Produces.runs {job : Job} {l : Lowered} (h : Produces scratch job st l st') :
    job.Runs scratch st l st' := by
  -- An expression is lowered by its outermost node, and only that node is opened here.
  induction h with try rw [Job.Runs.eq_1, expr.eq_def]
  | printCall _ ih =>
    exact ends_bind ih ends_pure
  | length htype hfat _ ih =>
    refine ends_bind (ends_typeOf htype) ?_
    rw [lengthOf, if_pos (by simpa using hfat)]
    exact ends_bind (ends_map settle ih) ends_pure
  | lengthRefused htype hfat =>
    refine ends_bind (ends_typeOf htype) ?_
    rw [lengthOf, if_neg (by simpa using hfat)]
    exact ends_bind ends_limit ends_pure
  | @lengthArity _ args _ _ h =>
    rcases args with _ | ⟨arg, _ | ⟨second, rest⟩⟩
    · exact ends_bind ends_limit ends_pure
    · exact absurd rfl h
    · exact ends_bind ends_limit ends_pure
  | unresolved hprint hlength hsym =>
    simp only [if_neg hprint, if_neg hlength]
    exact ends_callFunction_unresolved hsym
  | callArity hprint hlength hsym hcount =>
    simp only [if_neg hprint, if_neg hlength]
    exact ends_callFunction_arity hsym hcount
  | call hprint hlength hsym hcount _ hafter ih =>
    simp only [if_neg hprint, if_neg hlength]
    exact ends_callFunction hsym hcount ih hafter
  | @literal p parts st n h =>
    unfold literal? at h
    split at h
    all_goals
      next hkind =>
      simp only [hkind]
      cases h
      try exact ends_pure
  | string hkind hlit =>
    simp only [hkind]
    refine ends_bind ends_addLiteral ?_
    rw [hlit]
    exact ends_pure
  | ident hkind hsym =>
    simp only [hkind]
    exact ends_readName hsym
  | unknown hkind hsym htype =>
    simp only [hkind]
    rw [← hkind]
    exact ends_readName_unknown hsym htype
  | binaryRefused hkind hlt hrt hop =>
    simp only [hkind, combine_eq]
    refine ends_bind (ends_typeOf hlt) (ends_bind (ends_typeOf hrt) ?_)
    rw [hop]
    exact ends_unsupported _ _ _ _
  | binary hkind hlt hrt hop _ _ ihl ihr =>
    simp only [hkind, combine_eq]
    refine ends_bind (ends_typeOf hlt) (ends_bind (ends_typeOf hrt) ?_)
    rw [hop]
    exact ends_bind (ends_map settle ihl) (ends_bind (ends_map settle ihr) ends_pure)
  | unaryRefused hkind htype hop =>
    simp only [hkind, applyUnary_eq]
    refine ends_bind (ends_typeOf htype) ?_
    rw [hop]
    exact ends_unsupported _ _ _ _
  | unary hkind htype hop _ ih =>
    simp only [hkind, applyUnary_eq]
    refine ends_bind (ends_typeOf htype) ?_
    rw [hop]
    exact ends_bind (ends_map settle ih) ends_pure
  | array hkind hbase _ ih =>
    simp only [hkind]
    refine ends_bind ends_reserveData ?_
    rw [hbase]
    exact ends_bind ih ends_pure
  | index hkind _ _ ihb ihi =>
    simp only [hkind]
    exact ends_bind ihb (ends_bind ihi ends_pure)
  | assign hkind _ ih =>
    simp only [hkind] at ih ⊢
    exact ends_bind ih ends_pure
  | @other p _ _ _ hkind =>
    cases h : p.kind with
    | integer | decimal | boolean | string | ident | binary | unary | array | index | assign =>
      rw [h] at hkind
      cases hkind
    | _ =>
      simp only [h]
      exact ends_unsupported _ _ _ _
  | @passNone _ args _ h =>
    rcases h with rfl | rfl
    · cases args <;> exact ends_pure
    · exact ends_pure
  | pass _ hv _ iharg ihargs =>
    exact ends_bind iharg (ends_bind (ends_coerce hv _ _) (ends_bind ihargs ends_pure))
  | printLiteral htype hraw hlit =>
    refine ends_bind (ends_typeOf htype) ?_
    rw [if_pos rfl, hraw]
    refine ends_bind ends_addLiteral ?_
    rw [hlit]
    exact ends_pure
  | printText htype hraw _ hlength ih =>
    subst hlength
    refine ends_bind (ends_typeOf htype) ?_
    rw [if_pos rfl, hraw]
    exact ends_bind ih ends_pure
  | printBoolean htype _ hhelper ih =>
    exact ends_bind (ends_typeOf htype) (ends_bind ih (ends_bind hhelper.ends ends_pure))
  | printDecimal htype _ ih =>
    exact ends_bind (ends_typeOf htype) (ends_bind ends_limit
      (ends_bind ih ends_pure))
  | printRefused htype hrefused _ ih =>
    refine ends_bind (ends_typeOf htype) ?_
    rcases hrefused with rfl | rfl <;>
      exact ends_bind ends_limit (ends_bind ih ends_pure)
  | printInteger htype hother _ ih =>
    obtain ⟨htext, hboolean, hdecimal, hrefused⟩ := hother
    refine ends_bind (ends_typeOf htype) ?_
    rw [if_neg htext, if_neg hboolean, if_neg hdecimal, if_neg (by simpa using hrefused)]
    exact ends_bind ih ends_pure
  | printsNone | elementsNone => exact ends_pure
  | prints _ _ iharg ihargs => exact ends_bind iharg (ends_bind ihargs ends_pure)
  | elementFat _ hrep htype _ ihe ihr =>
    refine ends_bind ihe ?_
    dsimp only
    rw [hrep]
    exact ends_bind (ends_typeOf htype) (ends_bind ends_limit
      (ends_bind ihr ends_pure))
  | elementScalar _ hrep _ ihe ihr =>
    refine ends_bind ihe ?_
    dsimp only
    rw [hrep]
    exact ends_bind ihr ends_pure
  | assignUnresolved hkind hsym =>
    rw [Job.Runs, assign.eq_def]
    simp only [hkind]
    refine ends_bind ends_context ?_
    rw [hsym]
    exact ends_bind ends_limit ends_pure
  | assignVariable hkind hsym _ hv ih =>
    rw [Job.Runs, assign.eq_def]
    simp only [hkind]
    refine ends_bind ends_context ?_
    rw [hsym]
    exact ends_bind ih (ends_bind (ends_coerce hv _ _) ends_pure)
  | assignElement hkind _ _ _ hv ihb ihi ihv =>
    rw [Job.Runs, assign.eq_def]
    simp only [hkind]
    exact ends_bind ihb (ends_bind ihi (ends_bind ihv (ends_bind (ends_coerce hv _ _)
      ends_pure)))
  | assignRefused htarget hnode => exact ends_assign_refused _ htarget hnode

end Runs

end Codegen.Wasm
