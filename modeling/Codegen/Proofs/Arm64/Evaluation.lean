import Codegen.Proofs.Arm64.Marks
import Codegen.Proofs.Shape
import Codegen.Proofs.Steps

/-!
# How AArch64 Code of Expressions Comes About

`Produces` says what a run of `expr` and its relatives was, one rule for each way that they
can go: the code that was put together, the representation of the value, the names that were
looked up, and the output and context before and after. The rules say what the generator does
(`Produces.runs`), and it ends in one way only, so a fact about all code of expressions is an
induction over the rules, and the generator is taken apart only once.
-/

namespace Codegen.Arm64

/-- The output and the context at a point of a run. -/
abbrev Stage := Output × Context

/-- What is lowered: an expression, the first arguments of a call, printed values, the elements
    of an array literal from an index on, or an assignment. -/
inductive Job where
  | expr (t : Term)
  | pushes (count : Nat) (args : List Term)
  | prints (args : List Term)
  | elements (storage : Bytes) (index : Nat) (ts : List Term)
  | assign (kind : Kind) (parts : List Term)

/-- Code, the representations of the values it leaves, and the names that were looked up. -/
structure Lowered where
  code : Code
  reps : List Rep
  reads : List Read

def literalCode? (p : Payload) : Option Code :=
  match p.kind with
  | .integer => some (loadImm x0 p.integer)
  | .decimal => some (loadImm x0 p.decimal.bits.toInt64)
  | .boolean => some (code [.movImm x0 (if p.boolean then 1 else 0)])
  | _ => none

theorem marks_literalCode? {p : Payload} {c : Code} (h : literalCode? p = some c) :
    marks c = [] := by
  unfold literalCode? at h
  cases hkind : p.kind with
  | integer | decimal =>
    simp only [hkind, Option.some.injEq] at h
    rw [← h, marks_loadImm]
  | boolean =>
    simp only [hkind, Option.some.injEq] at h
    rw [← h]
    rfl
  | _ =>
    simp only [hkind] at h
    cases h

def Printer.ofTy (type : Ty) : Printer :=
  if type = .text then .text
  else if type = .boolean then .boolean
  else if type = .decimal then .decimal
  else .integer

def arraySymbol (number : Nat) : Bytes := "kw_arr" ++ Bytes.ofNat number

/-- The output with storage for one more array literal. -/
def Output.withArray (s : Output) (count : Nat) : Output :=
  { s with
    arrays := s.arrays + 1
    storage := s.storage ++ [⟨arraySymbol s.arrays, if count = 0 then 8 else count * 8⟩] }

def Output.withConstant (s : Output) (c : Constant) : Output :=
  { s with constants := s.constants ++ [c] }

def Output.withHelper (s : Output) (c : Code) : Output := { s with helpers := s.helpers ++ c }

/-- The strings of a helper are added, each the first time that its symbol is asked for. -/
inductive Supplies : List (Bytes × Bytes) → Stage → Stage → Prop where
  | nil {st} : Supplies [] st st
  | old {symbol contents rest s ctx st'} (h : symbol ∈ ctx.helpers)
      (hrest : Supplies rest (s, ctx) st') : Supplies ((symbol, contents) :: rest) (s, ctx) st'
  | new {symbol contents rest s ctx st'} (h : symbol ∉ ctx.helpers)
      (hrest : Supplies rest (s.withConstant ⟨symbol, contents, true⟩, ctx.claiming symbol) st') :
      Supplies ((symbol, contents) :: rest) (s, ctx) st'

/-- A helper is added the first time that it is asked for. -/
inductive Requests (flavor : Flavor) (printer : Printer) : Stage → Stage → Prop where
  | old {s ctx} (h : printer.symbol ∈ ctx.helpers) : Requests flavor printer (s, ctx) (s, ctx)
  | new {s ctx s' ctx'} (h : printer.symbol ∉ ctx.helpers)
      (hstrings : Supplies printer.strings (s, ctx.claiming printer.symbol) (s', ctx')) :
      Requests flavor printer (s, ctx) (s'.withHelper (printer.routine flavor), ctx')

variable (flavor : Flavor) in
/-- How code of expressions comes about. -/
inductive Produces : Job → Stage → Lowered → Stage → Prop where
  | print {p args st c reads st'} (h : Produces (.prints args) st ⟨c, [], reads⟩ st') :
      Produces (.expr (.call p (some "print") args)) st ⟨c, [.scalar], reads⟩ st'
  | lengthFat {p arg st c reads st'} (h : Produces (.expr arg) st ⟨c, [.fat], reads⟩ st') :
      Produces (.expr (.call p (some "length") [arg])) st
        ⟨c ++ code [.mov x0 x1], [.scalar], reads⟩ st'
  | lengthScalar {p arg st c reads s ctx}
      (h : Produces (.expr arg) st ⟨c, [.scalar], reads⟩ (s, ctx)) :
      Produces (.expr (.call p (some "length") [arg])) st
        ⟨c ++ zero .scalar, [.scalar], reads⟩ (s, ctx.reporting [⟨p.kind, .lengthArgument⟩])
  | lengthArity {p args s ctx} (h : args.length ≠ 1) :
      Produces (.expr (.call p (some "length") args)) (s, ctx)
        ⟨zero .scalar, [.scalar], []⟩ (s, ctx.reporting [⟨p.kind, .lengthArgument⟩])
  | unresolved {p args s ctx} {name : Bytes} (hprint : name ≠ "print") (hlength : name ≠ "length")
      (hsym : ctx.funcNamed? name = none) :
      Produces (.expr (.call p (some name) args)) (s, ctx)
        ⟨placeholder ("call to unresolved " ++ name ++ " omitted"), [.scalar], [ctx.reading name]⟩
        (s, ctx.reporting [⟨p.kind, .unresolvedFunction name⟩])
  | call {p args s ctx sym count issues c reps reads st'} {name : Bytes} (hprint : name ≠ "print")
      (hlength : name ≠ "length") (hsym : ctx.funcNamed? name = some sym)
      (hcount : (fitting 0 args).run ctx = .ok (count, ctx))
      (hissues : issues = if count < args.length then [⟨p.kind, .argumentOverflow name⟩] else [])
      (h : Produces (.pushes count args) (s, ctx.reporting issues) ⟨c, reps, reads⟩ st') :
      Produces (.expr (.call p (some name) args)) (s, ctx)
        ⟨c ++ popArgs 0 reps ++ code [.bl sym.storage], [sym.result.rep], ctx.reading name :: reads⟩
        st'
  | literal {p parts st c} (h : literalCode? p = some c) :
      Produces (.expr (.node p parts)) st ⟨c, [.scalar], []⟩ st
  | string {p parts s ctx lit data} (hkind : p.kind = .string)
      (hlit : ctx.data.addLiteral p.text = (lit, data)) :
      Produces (.expr (.node p parts)) (s, ctx)
        ⟨loadAddress x0 (literalSymbol lit) ++ loadNat x1 lit.length, [.fat], []⟩
        (s.withConstant ⟨literalSymbol lit, lit.bytes, false⟩, { ctx with data })
  | ident {p parts s ctx sym} (hkind : p.kind = .ident) (hsym : ctx.varNamed? p.name = some sym) :
      Produces (.expr (.node p parts)) (s, ctx)
        ⟨load sym, [sym.type.rep], [ctx.reading p.name]⟩ (s, ctx)
  | unknown {p parts s ctx type} (hkind : p.kind = .ident) (hsym : ctx.varNamed? p.name = none)
      (htype : (ctx.reporting [⟨p.kind, .unresolvedName p.name⟩]).typeOf (.node p []) = .ok type) :
      Produces (.expr (.node p parts)) (s, ctx) ⟨zero type.rep, [type.rep], [ctx.reading p.name]⟩
        (s, ctx.reporting [⟨p.kind, .unresolvedName p.name⟩])
  | binaryRefused {p left right rest s ctx lt rt} (hkind : p.kind = .binary)
      (hlt : ctx.typeOf left = .ok lt) (hrt : ctx.typeOf right = .ok rt)
      (hfat : lt.rep = .fat ∨ rt.rep = .fat) :
      Produces (.expr (.node p (left :: right :: rest))) (s, ctx)
        ⟨placeholder ("unsupported " ++ p.op ++ " on " ++ lt.name ++ " and " ++ rt.name), [.scalar],
          []⟩ (s, ctx.reporting [⟨p.kind, .operatorOn p.op lt rt⟩])
  | binary {p left right rest s ctx lt rt l lrep lreads st1 r rrep rreads s2 ctx2 c rep s' ctx'}
      (hkind : p.kind = .binary) (hlt : ctx.typeOf left = .ok lt) (hrt : ctx.typeOf right = .ok rt)
      (hfat : ¬ (lt.rep = .fat ∨ rt.rep = .fat))
      (hl : Produces (.expr left) (s, ctx) ⟨l, [lrep], lreads⟩ st1)
      (hr : Produces (.expr right) st1 ⟨r, [rrep], rreads⟩ (s2, ctx2))
      (hop : Ends (combine p lt rt l r) s2 ctx2 (c, rep) s' ctx') :
      Produces (.expr (.node p (left :: right :: rest))) (s, ctx)
        ⟨c, [rep], lreads ++ rreads⟩ (s', ctx')
  | unary {p operand rest s ctx type l lrep reads s1 ctx1 c rep s' ctx'}
      (hkind : p.kind = .unary) (htype : ctx.typeOf operand = .ok type)
      (h : Produces (.expr operand) (s, ctx) ⟨l, [lrep], reads⟩ (s1, ctx1))
      (hop : Ends (applyUnary p type l lrep) s1 ctx1 (c, rep) s' ctx') :
      Produces (.expr (.node p (operand :: rest))) (s, ctx) ⟨c, [rep], reads⟩ (s', ctx')
  | array {p parts s ctx c reads st'} (hkind : p.kind = .array)
      (h : Produces (.elements (arraySymbol s.arrays) 0 parts)
        (s.withArray parts.length, ctx) ⟨c, [], reads⟩ st') :
      Produces (.expr (.node p parts)) (s, ctx)
        ⟨c ++ loadAddress x0 (arraySymbol s.arrays) ++ loadNat x1 parts.length, [.fat], reads⟩ st'
  | index {p base index rest st b brep breads st1 i irep ireads st'} (hkind : p.kind = .index)
      (hb : Produces (.expr base) st ⟨b, [brep], breads⟩ st1)
      (hi : Produces (.expr index) st1 ⟨i, [irep], ireads⟩ st') :
      Produces (.expr (.node p (base :: index :: rest))) st
        ⟨b ++ push .scalar ++ i ++ pop .scalar 1 ++ code [.ldr x0 (.word x1 x0)], [.scalar],
          breads ++ ireads⟩ st'
  | assign {p parts st c reads st'} (hkind : p.kind = .assign)
      (h : Produces (.assign p.kind parts) st ⟨c, [], reads⟩ st') :
      Produces (.expr (.node p parts)) st ⟨c ++ zero .scalar, [.scalar], reads⟩ st'
  | other {p parts s ctx} (hkind : p.kind.isNoExpression = true) :
      Produces (.expr (.node p parts)) (s, ctx)
        ⟨placeholder ("unsupported expression " ++ p.kind.name), [.scalar], []⟩
        (s, ctx.reporting [⟨p.kind, .notAnExpression⟩])
  | pushNone {count args st} (h : count = 0 ∨ args = []) :
      Produces (.pushes count args) st ⟨[], [], []⟩ st
  | push {count arg args st c reps reads st1 a rep areads st'}
      (hargs : Produces (.pushes count args) st ⟨c, reps, reads⟩ st1)
      (harg : Produces (.expr arg) st1 ⟨a, [rep], areads⟩ st') :
      Produces (.pushes (count + 1) (arg :: args)) st
        ⟨c ++ a ++ push rep, rep :: reps, reads ++ areads⟩ st'
  | printNone {st} : Produces (.prints []) st ⟨[], [], []⟩ st
  | printRefused {arg args s ctx type c reads st'} (htype : ctx.typeOf arg = .ok type)
      (hrefused : type = .array ∨ type = .void)
      (hargs : Produces (.prints args) (s, ctx.reporting [⟨arg.kind, .printOf type⟩])
        ⟨c, [], reads⟩ st') :
      Produces (.prints (arg :: args)) (s, ctx)
        ⟨[.comment ("print of " ++ type.name ++ " omitted")] ++ c, [], reads⟩ st'
  | printValue {arg args s ctx type a rep areads st1 st2 length c reads st'}
      (htype : ctx.typeOf arg = .ok type) (hrefused : ¬ (type = .array ∨ type = .void))
      (harg : Produces (.expr arg) (s, ctx) ⟨a, [rep], areads⟩ st1)
      (hhelper : Requests flavor (Printer.ofTy type) st1 st2)
      (hlength : length = if type = .text && rep = .scalar then code [.movImm x1 0] else [])
      (hargs : Produces (.prints args) st2 ⟨c, [], reads⟩ st') :
      Produces (.prints (arg :: args)) (s, ctx)
        ⟨a ++ length ++ code [.bl (Printer.ofTy type).symbol] ++ c, [], areads ++ reads⟩ st'
  | elementsNone {storage index st} :
      Produces (.elements storage index []) st ⟨[], [], []⟩ st
  | elementFat {storage index element rest st e ereads s1 ctx1 type c reads st'}
      (helement : Produces (.expr element) st ⟨e, [.fat], ereads⟩ (s1, ctx1))
      (htype : ctx1.typeOf element = .ok type)
      (hrest : Produces (.elements storage (index + 1) rest)
        (s1, ctx1.reporting [⟨element.kind, .arrayElement type⟩]) ⟨c, [], reads⟩ st') :
      Produces (.elements storage index (element :: rest)) st ⟨e ++ c, [], ereads ++ reads⟩ st'
  | elementScalar {storage index element rest st e ereads st1 c reads st'}
      (helement : Produces (.expr element) st ⟨e, [.scalar], ereads⟩ st1)
      (hrest : Produces (.elements storage (index + 1) rest) st1 ⟨c, [], reads⟩ st') :
      Produces (.elements storage index (element :: rest)) st
        ⟨e ++ storeElement storage index ++ c, [], ereads ++ reads⟩ st'
  | assignUnresolved {kind p parts rest s ctx} (hkind : p.kind = .ident)
      (hsym : ctx.varNamed? p.name = none) :
      Produces (.assign kind (.node p parts :: rest)) (s, ctx)
        ⟨[.comment ("assignment to unresolved " ++ p.name ++ " omitted")], [], [ctx.reading p.name]⟩
        (s, ctx.reporting [⟨kind, .unresolvedTarget p.name⟩])
  | assignVariable {kind p parts value rest s ctx sym v rep reads st'} (hkind : p.kind = .ident)
      (hsym : ctx.varNamed? p.name = some sym)
      (hvalue : Produces (.expr value) (s, ctx) ⟨v, [rep], reads⟩ st') :
      Produces (.assign kind (.node p parts :: value :: rest)) (s, ctx)
        ⟨v ++ store sym, [], ctx.reading p.name :: reads⟩ st'
  | assignElement {kind p base index more value rest st b brep breads st1 i irep ireads st2 v vrep
        vreads st'} (hkind : p.kind = .index)
      (hb : Produces (.expr base) st ⟨b, [brep], breads⟩ st1)
      (hi : Produces (.expr index) st1 ⟨i, [irep], ireads⟩ st2)
      (hv : Produces (.expr value) st2 ⟨v, [vrep], vreads⟩ st') :
      Produces (.assign kind (.node p (base :: index :: more) :: value :: rest)) st
        ⟨b ++ push .scalar ++ i ++ push .scalar ++ v ++ pop .scalar 2 ++ pop .scalar 1
          ++ code [.str x0 (.word x1 x2)], [], breads ++ ireads ++ vreads⟩ st'
  | assignRefused {kind target rest s ctx} (htarget : target.isPlace = false)
      (hnode : target ≠ .missing) :
      Produces (.assign kind (target :: rest)) (s, ctx)
        ⟨[.comment ("assignment to " ++ target.kind.name ++ " omitted")], [], []⟩
        (s, ctx.reporting [⟨kind, .assignmentTo target.kind⟩])

section Runs

variable {flavor : Flavor} {st st' : Stage}

def Job.Runs (flavor : Flavor) : Job → Stage → Lowered → Stage → Prop
  | .expr t, st, l, st' =>
    Ends (Arm64.expr flavor t) st.1 st.2 (l.code, l.reps.headD .scalar) st'.1 st'.2
  | .pushes count args, st, l, st' =>
    Ends (pushArgs flavor count args) st.1 st.2 (l.code, l.reps) st'.1 st'.2
  | .prints args, st, l, st' => Ends (printAll flavor args) st.1 st.2 l.code st'.1 st'.2
  | .elements storage index ts, st, l, st' =>
    Ends (Arm64.elements flavor storage index ts) st.1 st.2 l.code st'.1 st'.2
  | .assign kind parts, st, l, st' =>
    Ends (Arm64.assign flavor kind parts) st.1 st.2 l.code st'.1 st'.2

theorem Supplies.ends {strings : List (Bytes × Bytes)} (h : Supplies strings st st') :
    Ends (forIn strings PUnit.unit fun (entry : Bytes × Bytes) (_ : PUnit) => do
      constantString entry.1 entry.2
      pure (ForInStep.yield PUnit.unit)) st.1 st.2 ⟨⟩ st'.1 st'.2 := by
  induction h with
  | nil => exact ends_pure
  | old h _ ih =>
    rw [List.forIn_cons]
    exact ends_bind (ends_bind (ends_bind (ends_requestHelper_old _ h) ends_pure)
      ends_pure) ih
  | new h _ ih =>
    rw [List.forIn_cons]
    exact ends_bind (ends_bind (ends_bind (ends_requestHelper_new h ends_modify)
      ends_pure) ends_pure) ih

theorem Requests.ends {printer : Printer} (h : Requests flavor printer st st') :
    Ends (printer.request flavor) st.1 st.2 printer.symbol st'.1 st'.2 := by
  cases h with
  | old h => exact ends_bind (ends_requestHelper_old _ h) ends_pure
  | new h hstrings =>
    exact ends_bind (ends_requestHelper_new h (ends_bind hstrings.ends ends_modify))
      ends_pure

section Functions

variable {p : Payload} {name : Bytes} {sym : Symbol} {s s' : Output} {ctx ctx' : Context}

theorem ends_readName (hsym : ctx.varNamed? p.name = some sym) :
    Ends (readName p) s ctx (load sym, sym.type.rep) s ctx := by
  refine ends_bind ends_context ?_
  rw [hsym]
  exact ends_pure

theorem ends_readName_unknown {type : Ty} (hsym : ctx.varNamed? p.name = none)
    (htype : (ctx.reporting [⟨p.kind, .unresolvedName p.name⟩]).typeOf (.node p []) = .ok type) :
    Ends (readName p) s ctx (zero type.rep, type.rep) s
      (ctx.reporting [⟨p.kind, .unresolvedName p.name⟩]) := by
  refine ends_bind ends_context ?_
  rw [hsym]
  exact ends_bind ends_limit (ends_bind (ends_typeOf htype) ends_pure)

variable {args : List Term} {pushes : Nat → Emit (Code × List Rep)}

theorem ends_callFunction_unresolved (hsym : ctx.funcNamed? name = none) :
    Ends (callFunction p name args pushes) s ctx
      (placeholder ("call to unresolved " ++ name ++ " omitted"), .scalar) s
      (ctx.reporting [⟨p.kind, .unresolvedFunction name⟩]) := by
  refine ends_bind ends_context ?_
  rw [hsym]
  exact ends_bind ends_limit ends_pure

/-- A call lowers the arguments that fit in registers, and reports it if some do not. -/
theorem ends_callFunction (hsym : ctx.funcNamed? name = some sym) {count : Nat}
    (hcount : (fitting 0 args).run ctx = .ok (count, ctx)) {c : Code} {reps : List Rep}
    (hpushes : Ends (pushes count) s (ctx.reporting (if count < args.length then
      [⟨p.kind, .argumentOverflow name⟩] else [])) (c, reps) s' ctx') :
    Ends (callFunction p name args pushes) s ctx
      (c ++ popArgs 0 reps ++ code [.bl sym.storage], sym.result.rep) s' ctx' := by
  refine ends_bind ends_context ?_
  rw [hsym]
  refine ends_bind (ends_lift hcount) ?_
  split at hpushes
  · next hover =>
    rw [if_pos hover]
    exact ends_bind ends_limit (ends_bind hpushes ends_pure)
  · next hover =>
    rw [if_neg hover]
    rw [Context.reporting_nil] at hpushes
    exact ends_bind hpushes ends_pure

/-- What is neither a name nor an element is refused as a target. -/
theorem ends_assign_refused {kind : Kind} {target : Term} (rest : List Term)
    (htarget : target.isPlace = false) (hnode : target ≠ .missing) :
    Ends (assign flavor kind (target :: rest)) s ctx
      [.comment ("assignment to " ++ target.kind.name ++ " omitted")] s
      (ctx.reporting [⟨kind, .assignmentTo target.kind⟩]) := by
  rcases target with ⟨⟨place⟩, parts⟩ | ⟨p, callee, args⟩ | _
  · cases place with
    | ident | index => cases htarget
    | _ => exact ends_bind ends_limit ends_pure
  · exact ends_bind ends_limit ends_pure
  · exact absurd rfl hnode

end Functions

/-- What the rules say is what the generator does. -/
theorem Produces.runs {job : Job} {l : Lowered} (h : Produces flavor job st l st') :
    job.Runs flavor st l st' := by
  -- An expression is lowered by its outermost node, and only that node is opened here.
  induction h with try rw [Job.Runs.eq_1, expr.eq_def]
  | print h ih =>
    exact ends_bind ih ends_pure
  | lengthFat h ih =>
    exact ends_bind ih ends_pure
  | lengthScalar h ih =>
    exact ends_bind ih (ends_bind ends_limit ends_pure)
  | @lengthArity _ args _ _ h =>
    rcases args with _ | ⟨arg, _ | ⟨second, rest⟩⟩
    · exact ends_bind ends_limit ends_pure
    · exact absurd rfl h
    · exact ends_bind ends_limit ends_pure
  | unresolved hprint hlength hsym =>
    simp only [if_neg hprint, if_neg hlength]
    exact ends_callFunction_unresolved hsym
  | call hprint hlength hsym hcount hissues h ih =>
    simp only [if_neg hprint, if_neg hlength]
    subst hissues
    exact ends_callFunction hsym hcount ih
  | @literal p parts st c h =>
    unfold literalCode? at h
    split at h
    all_goals
      next hkind =>
      simp only [hkind]
      cases h
      try exact ends_pure
  | string hkind hlit =>
    simp only [hkind]
    refine ends_bind ends_addLiteral ?_
    rw [hlit]
    exact ends_bind ends_modify ends_pure
  | ident hkind hsym =>
    simp only [hkind]
    exact ends_readName hsym
  | unknown hkind hsym htype =>
    simp only [hkind]
    rw [← hkind]
    exact ends_readName_unknown hsym htype
  | binaryRefused hkind hlt hrt hfat =>
    simp only [hkind]
    refine ends_bind (ends_typeOf hlt) (ends_bind (ends_typeOf hrt) ?_)
    rw [if_pos (by simpa using hfat)]
    exact ends_bind ends_limit ends_pure
  | binary hkind hlt hrt hfat _ _ hop ihl ihr =>
    simp only [hkind]
    refine ends_bind (ends_typeOf hlt) (ends_bind (ends_typeOf hrt) ?_)
    rw [if_neg (by simpa using hfat)]
    exact ends_bind ihl (ends_bind ihr hop)
  | unary hkind htype h hop ih =>
    simp only [hkind]
    exact ends_bind (ends_typeOf htype) (ends_bind ih hop)
  | array hkind h ih =>
    simp only [hkind]
    exact ends_bind rfl (ends_bind ih ends_pure)
  | index hkind _ _ ihb ihi =>
    simp only [hkind]
    exact ends_bind ihb (ends_bind ihi ends_pure)
  | assign hkind h ih =>
    simp only [hkind] at ih ⊢
    exact ends_bind ih ends_pure
  | @other p _ _ _ hkind =>
    cases h : p.kind with
    | integer | decimal | boolean | string | ident | binary | unary | array | index | assign =>
      rw [h] at hkind
      cases hkind
    | _ =>
      simp only [h]
      exact ends_bind ends_limit ends_pure
  | @pushNone _ args _ h =>
    rcases h with rfl | rfl
    · cases args <;> exact ends_pure
    · exact ends_pure
  | push _ _ ihargs iharg =>
    exact ends_bind ihargs (ends_bind iharg ends_pure)
  | printNone => exact ends_pure
  | printRefused htype hrefused _ ih =>
    refine ends_bind (ends_bind (ends_typeOf htype) ?_) (ends_bind ih ends_pure)
    rw [if_pos (by simpa using hrefused)]
    exact ends_bind ends_limit ends_pure
  | printValue htype hrefused _ hhelper hlength _ iharg ihargs =>
    subst hlength
    refine ends_bind (ends_bind (ends_typeOf htype) ?_) (ends_bind ihargs ends_pure)
    rw [if_neg (by simpa using hrefused)]
    exact ends_bind iharg (ends_bind hhelper.ends ends_pure)
  | elementsNone => exact ends_pure
  | elementFat _ htype _ ihe ihr =>
    exact ends_bind ihe (ends_bind (ends_typeOf htype)
      (ends_bind ends_limit (ends_bind ihr ends_pure)))
  | elementScalar _ _ ihe ihr =>
    exact ends_bind ihe (ends_bind ihr ends_pure)
  | assignUnresolved hkind hsym =>
    rw [Job.Runs, assign.eq_def]
    simp only [hkind]
    refine ends_bind ends_context ?_
    rw [hsym]
    exact ends_bind ends_limit ends_pure
  | assignVariable hkind hsym _ ih =>
    rw [Job.Runs, assign.eq_def]
    simp only [hkind]
    refine ends_bind ends_context ?_
    rw [hsym]
    exact ends_bind ih ends_pure
  | assignElement hkind _ _ _ ihb ihi ihv =>
    rw [Job.Runs, assign.eq_def]
    simp only [hkind]
    exact ends_bind ihb (ends_bind ihi (ends_bind ihv ends_pure))
  | assignRefused htarget hnode => exact ends_assign_refused _ htarget hnode

end Runs

end Codegen.Arm64
