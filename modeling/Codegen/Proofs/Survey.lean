import Codegen.Proofs.Operations
import Codegen.Proofs.Shape

/-!
# What a Backend Cannot Lower

Which limitations a backend meets on a program does not depend on the code it makes.
It follows from what names stand for, the types of expressions, and how many words
their values have. This module computes the limitations from those alone, as a
function on terms.

The two backends look at the same things in the same order and differ in what they
make of them: one prints a decimal and the other does not, one evaluates an operand
before it refuses the operator and the other after. `Rules` holds the answers that
differ. Everything else is shared, so what is shown about the survey of an
expression, a statement or a program is shown for both.

An environment is a context of which only the names matter. A block needs no scope
in it: the environment after a block is the one before. A declaration that is the
body of a loop or of a condition stays in force after it, since neither opens a
scope.
-/

namespace Codegen

open List

variable {p : Payload} {env ctx : Context}

/-- Symbols that differ at most in where they are kept, and in their types as far as
    `rel` allows. -/
structure Symbol.Alike (rel : Ty → Ty → Prop) (a b : Symbol) : Prop where
  kind : a.kind = b.kind
  type : rel a.type b.type
  params : a.params = b.params
  result : a.result = b.result

/-- Alike symbols on both sides, or none on either. -/
def Symbol.Paired (rel : Ty → Ty → Prop) (a b : Option Symbol) : Prop :=
  a = none ∧ b = none ∨ ∃ s s', a = some s ∧ b = some s' ∧ s.Alike rel s'

namespace Context

/-- Contexts in which names stand for alike symbols. -/
def Agrees (rel : Ty → Ty → Prop) (c d : Context) : Prop :=
  ∀ name, Symbol.Paired rel (c.lookup? name) (d.lookup? name)

theorem lookup?_declareHere (ctx : Context) (sym : Symbol) (name : Bytes) :
    (ctx.declareHere sym).lookup? name =
      if sym.name == name then some sym else ctx.lookup? name := by
  have hfind (scope : Scope) : (scope.declare sym).find? name =
      if sym.name == name then some sym else scope.find? name := by
    unfold Scope.declare Scope.find?
    rw [find?_cons]
    cases sym.name == name <;> rfl
  unfold declareHere lookup? Scope.resolve?
  cases ctx.scopes with
  | nil =>
    simp only [nil_append, findSome?_cons, hfind]
    cases sym.name == name <;> simp
  | cons =>
    simp only [cons_append, findSome?_cons, hfind]
    cases sym.name == name <;> simp

theorem declareGlobally_eq (ctx : Context) (sym : Symbol) (h : ctx.scopes = []) :
    ctx.declareGlobally sym = ctx.declareHere sym := by
  unfold declareGlobally declareHere
  rw [h]

namespace Agrees

variable {rel : Ty → Ty → Prop} {c d : Context}

theorem refl (hrel : ∀ type, rel type type) (c : Context) : Agrees rel c c := by
  intro name
  cases hc : c.lookup? name with
  | none => exact Or.inl ⟨rfl, rfl⟩
  | some sym => exact Or.inr ⟨sym, sym, rfl, rfl, rfl, hrel _, rfl, rfl⟩

theorem congr (h : Agrees rel c d) {c' : Context} (hscopes : c'.scopes = c.scopes)
    (hglobals : c'.globals = c.globals) : Agrees rel c' d := by
  intro name
  have hsame : c'.lookup? name = c.lookup? name := by
    unfold lookup?
    rw [hscopes, hglobals]
  rw [hsame]
  exact h name

theorem reporting (h : Agrees rel c d) (issues : List Issue) :
    Agrees rel (c.reporting issues) d := h

/-- Agreement survives a declaration. -/
theorem declareHere (h : Agrees rel c d) {a b : Symbol} (hname : a.name = b.name)
    (hsym : a.Alike rel b) : Agrees rel (c.declareHere a) (d.declareHere b) := by
  intro name
  rw [lookup?_declareHere, lookup?_declareHere, hname]
  cases b.name == name with
  | true => exact Or.inr ⟨a, b, rfl, rfl, hsym⟩
  | false => exact h name

theorem declareGlobally (h : Agrees rel c d) {a b : Symbol} (hname : a.name = b.name)
    (hsym : a.Alike rel b) (hscopes : c.scopes = []) :
    Agrees rel (c.declareGlobally a) (d.declareHere b) := by
  rw [declareGlobally_eq _ _ hscopes]
  exact h.declareHere hname hsym

theorem filter (h : Agrees rel c d) (name : Bytes) (kind : SymbolKind) :
    Symbol.Paired rel ((c.lookup? name).filter fun sym => sym.kind == kind)
      ((d.lookup? name).filter fun sym => sym.kind == kind) := by
  rcases h name with ⟨hc, hd⟩ | ⟨a, b, hc, hd, hsym⟩
  · rw [hc, hd]
    exact Or.inl ⟨rfl, rfl⟩
  · rw [hc, hd, Option.filter_some, Option.filter_some, hsym.kind]
    cases b.kind == kind with
    | true => exact Or.inr ⟨a, b, rfl, rfl, hsym⟩
    | false => exact Or.inl ⟨rfl, rfl⟩

theorem varNamed? (h : Agrees rel c d) (name : Bytes) :
    Symbol.Paired rel (c.varNamed? name) (d.varNamed? name) :=
  h.filter name .variable

theorem funcNamed? (h : Agrees rel c d) (name : Bytes) :
    Symbol.Paired rel (c.funcNamed? name) (d.funcNamed? name) :=
  h.filter name .function

theorem callType (h : Agrees rel c d) (name : Bytes) : c.callType name = d.callType name := by
  unfold Context.callType
  rcases h.funcNamed? name with ⟨hc, hd⟩ | ⟨a, b, hc, hd, hsym⟩
  · rw [hc, hd]
  · rw [hc, hd, Option.map_some, Option.map_some, hsym.result]

end Agrees

/-- The type of a term that is formed. -/
def typed (env : Context) : Term → Ty
  | .missing => .unknown
  | .call p callee _ => (resolvedType? p).getD (env.callType (callee.getD []))
  | .node p parts =>
    (resolvedType? p).getD <|
      match p.kind, parts with
      | .integer, _ | .index, _ => .integer
      | .decimal, _ => .decimal
      | .boolean, _ => .boolean
      | .string, _ => .text
      | .array, _ => .array
      | .ident, _ => ((env.varNamed? p.name).map Symbol.type).getD .unknown
      | .binary, left :: right :: _ =>
        if isComparison p.op || isLogical p.op then .boolean
        else arithmeticType (typed env left) (typed env right)
      | .unary, operand :: _ => if p.op = "not" then .boolean else typed env operand
      | _, _ => .void

def varType (env : Context) (p : Payload) : List Term → Ty
  | init :: _ => if p.type = .unknown then env.typed init else p.type
  | [] => p.type

/-- A generator sees the types of the environment. -/
theorem Agrees.typeOf {c : Context} (h : Agrees Eq c env) {ts : List Term} (hf : Term.Formed ts) :
    ∀ t ∈ ts, c.typeOf t = .ok (env.typed t) := by
  refine hf.forall_mem (fun p callee args _ _ => ?_) fun p parts fits _ ih => ?_
  · rw [typed, ← h.callType, Context.typeOf.eq_def]
    cases hr : resolvedType? p <;> simp only [hr, Option.getD_some, Option.getD_none]
  · rw [Context.typeOf.eq_def, typed.eq_def]
    cases hr : resolvedType? p with
    | some => simp [hr]
    | none =>
      cases hk : p.kind with
      | ident =>
        rcases h.varNamed? p.name with ⟨hc, hd⟩ | ⟨a, b, hc, hd, hsym⟩
        · simp [hr, hk, hc, hd]
        · simp [hr, hk, hc, hd, hsym.type]
      | binary =>
        rcases fits.operands (by simp [hk]) with ⟨left, right, rfl⟩
        simp only [hr, hk, ih left (by simp), ih right (by simp)]
        cases isComparison p.op || isLogical p.op <;> rfl
      | unary =>
        have hlen : parts.length = 1 := by simpa [Payload.Fits, hk] using fits
        rcases length_eq_one_iff.mp hlen with ⟨operand, rfl⟩
        simp only [hr, hk, ih operand (by simp), Option.getD_none]
        by_cases hop : p.op = "not"
        · rw [if_pos hop, if_pos hop]
        · rw [if_neg hop, if_neg hop]
      | _ => simp [hr, hk]

end Context

theorem run_typeOf {t : Term} (h : ctx.Agrees Eq env) (hf : Term.Formed [t]) :
    (Gen.typeOf t).run ctx = .ok (env.typed t, ctx) := by
  have htype := h.typeOf hf t (by simp)
  simp only [Gen.typeOf, StateT.run_bind, StateT.run_get, pure_bind, htype]
  rfl

/-- What is known of an expression: the kind of its node, its type, the representation of
    the value it leaves, and what is not supported in it. -/
structure Finding where
  kind : Kind
  type : Ty
  rep : Rep
  issues : List Issue

/-- What a backend makes of findings. `fit` is about an expression whose value is needed in
    a given type; the other fields are about the construct of their name. -/
structure Rules where
  print : Finding → List Issue
  length : Kind → Finding → List Issue
  call : Kind → Bytes → Symbol → List Finding → List Issue
  result : Symbol → Nat → Rep
  binary : Payload → Finding → Finding → List Issue
  unary : Payload → Finding → List Issue
  fit : Finding → Ty → List Issue
  params : Bytes → List Param → List Issue

/-- The issues of an element of an array literal: elements are single words. -/
def Finding.element (f : Finding) : List Issue :=
  f.issues ++ match f.rep with
    | .fat => [⟨f.kind, .arrayElement f.type⟩]
    | .scalar => []

def BinaryOp.onDecimals : BinaryOp → Bool
  | .arith .rem | .logic _ => false
  | _ => true

/-- The issue of an operator that does not work on scalars of two types, if it is one. -/
def Payload.operatorIssues (p : Payload) (lt rt : Ty) : List Issue :=
  match BinaryOp.ofText? p.op with
  | some (.logic _) => []
  | op? =>
    if lt = .decimal || rt = .decimal then
      if op?.any BinaryOp.onDecimals then [] else [⟨p.kind, .decimalOperator p.op⟩]
    else if op?.isSome then [] else [⟨p.kind, .operator p.op⟩]

/-- The issue of a unary operator that does not work on a type, if it is one. -/
def Payload.unaryIssues (p : Payload) (type : Ty) (rep : Rep) : List Issue :=
  if p.op = "not" then []
  else if p.op = "-" && type = .decimal then []
  else if p.op = "-" && rep = .scalar then []
  else [⟨p.kind, .unaryOperator p.op type⟩]

namespace Rules

variable (rules : Rules)

def called (env : Context) (p : Payload) (name : Bytes) (args : List Finding) :
    Rep × List Issue :=
  if name = "print" then (.scalar, args.flatMap rules.print)
  else if name = "length" then
    (.scalar,
      match args with
      | [arg] => rules.length p.kind arg
      | _ => [⟨p.kind, .lengthArgument⟩])
  else
    match env.funcNamed? name with
    | none => (.scalar, [⟨p.kind, .unresolvedFunction name⟩])
    | some sym => (rules.result sym args.length, rules.call p.kind name sym args)

/-- The issues of an assignment, given its target and its value. -/
def assigned (env : Context) (kind : Kind) : List Term → List Finding → List Issue
  | .node q _ :: _, target :: value :: _ =>
    match q.kind with
    | .ident =>
      match env.varNamed? q.name with
      | none => [⟨kind, .unresolvedTarget q.name⟩]
      | some sym => rules.fit value sym.type
    | .index => target.issues ++ rules.fit value .integer
    | other => [⟨kind, .assignmentTo other⟩]
  | .call q _ _ :: _, _ => [⟨kind, .assignmentTo q.kind⟩]
  | _, _ => []

def inspected (env : Context) (p : Payload) (parts : List Term) (found : List Finding) :
    Rep × List Issue :=
  match p.kind, found with
  | .integer, _ | .decimal, _ | .boolean, _ => (.scalar, [])
  | .string, _ => (.fat, [])
  | .ident, _ =>
    match env.varNamed? p.name with
    | some sym => (sym.type.rep, [])
    | none => ((env.typed (.node p [])).rep, [⟨p.kind, .unresolvedName p.name⟩])
  | .binary, l :: r :: _ => (.scalar, rules.binary p l r)
  | .unary, f :: _ => (.scalar, rules.unary p f)
  | .array, elements => (.fat, elements.flatMap Finding.element)
  | .index, base :: index :: _ => (.scalar, base.issues ++ index.issues)
  | .assign, found => (.scalar, rules.assigned env p.kind parts found)
  | .binary, _ | .unary, _ | .index, _ => (.scalar, [])
  | kind, _ => (.scalar, [⟨kind, .notAnExpression⟩])

mutual

/-- The finding of an expression. -/
def survey (env : Context) : Term → Finding
  | .missing => ⟨.other [], .unknown, .scalar, []⟩
  | .call p callee args =>
    let found := rules.called env p (callee.getD []) (surveys env args)
    ⟨p.kind, env.typed (.call p callee args), found.1, found.2⟩
  | .node p parts =>
    let found := rules.inspected env p parts (surveys env parts)
    ⟨p.kind, env.typed (.node p parts), found.1, found.2⟩

def surveys (env : Context) : List Term → List Finding
  | [] => []
  | t :: ts => survey env t :: surveys env ts

end

theorem surveys_eq_map (env : Context) (ts : List Term) :
    rules.surveys env ts = ts.map (rules.survey env) := by
  induction ts with
  | nil => rfl
  | cons _ _ ih => rw [surveys, ih, map_cons]

theorem survey_kind (env : Context) (t : Term) : (rules.survey env t).kind = t.kind := by
  cases t with
  | missing => rfl
  | call => rfl
  | node => rfl

theorem survey_type (env : Context) (t : Term) : (rules.survey env t).type = env.typed t := by
  cases t with
  | missing => rw [survey, Context.typed]
  | call => rw [survey]
  | node => rw [survey]

end Rules

/-- Whether nodes of a kind declare something at the top level. -/
def Kind.isDeclaration : Kind → Bool
  | .funcDecl | .classDecl | .varDecl => true
  | _ => false

theorem Kind.declared_of_ne_varDecl {k : Kind} (h : k.isDeclaration = true) (hvar : k ≠ .varDecl) :
    k = .funcDecl ∨ k = .classDecl := by
  cases k with
  | funcDecl => exact .inl rfl
  | classDecl => exact .inr rfl
  | varDecl => exact absurd rfl hvar
  | _ => cases h

theorem Term.ofTree_declaration (h : p.kind.isDeclaration = true) (ts : List Tree) :
    ofTree (.node p ts) = .node p (ofTrees ts) := by
  refine ofTree_node p ts ?_ ?_ <;> intro hkind <;> rw [hkind] at h <;> cases h

/-- Whether a statement is a variable, which at the top level is declared before the entry is
    begun. -/
def Tree.isVar (s : Tree) : Bool := s.payload?.map Payload.kind == some .varDecl

def Kind.leavesNames : Kind → Bool
  | .varDecl | .classDecl | .cond | .whileLoop => true
  | _ => false

namespace Context

mutual

/-- The names after a statement. -/
def after (env : Context) : Term → Context
  | .node p parts =>
    match p.kind, parts with
    | .varDecl, parts => env.declareHere (.localVar p.name (env.varType p parts) 0)
    | .classDecl, _ => env.declareHere (.ofClass p.name p.fields)
    | .cond, parts => afterChain env parts
    | .whileLoop, _ :: body :: _ => after env body
    | _, _ => env
  | _ => env

def afterChain (env : Context) : List Term → Context
  | _ :: body :: rest => afterChain (after env body) rest
  | [body] => after env body
  | [] => env

end

theorem after_eq (env : Context) (p : Payload) (parts : List Term)
    (h : p.kind.leavesNames = false) : env.after (.node p parts) = env := by
  rw [after.eq_def]
  cases hkind : p.kind with
  | varDecl | classDecl | cond | whileLoop =>
    rw [hkind] at h
    cases h
  | _ => simp [hkind]

def counting (env : Context) (name : Bytes) : Context :=
  env.declareHere (.localVar name .integer 0)

def withParams (env : Context) (params : List Param) : Context :=
  params.foldl (fun env param => env.declareHere (.localVar param.name param.type 0)) env

/-- The names after a statement at the top level was declared. -/
def declareTop (env : Context) : Term → Context
  | .node p parts =>
    match p.kind with
    | .funcDecl => env.declareHere (.ofFunction p.name p.params p.result [])
    | .classDecl => env.declareHere (.ofClass p.name p.fields)
    | .varDecl => env.declareHere (.staticVar p.name (env.varType p parts) [])
    | _ => env
  | _ => env

theorem declareTop_other (env : Context) (t : Term) (h : t.kind.isDeclaration = false) :
    env.declareTop t = env := by
  cases t with
  | node p =>
    have hkind : p.kind.isDeclaration = false := h
    cases hk : p.kind with
    | funcDecl | classDecl | varDecl =>
      rw [hk] at hkind
      cases hkind
    | _ => simp [declareTop, hk]
  | _ => rfl

def ofProgram (ss : List Term) : Context := ss.foldl declareTop { target := [] }

def Knows (env : Context) (name : Bytes) : Prop := ∃ sym, env.lookup? name = some sym

namespace Knows

variable {name : Bytes}

theorem here (env : Context) (sym : Symbol) : (env.declareHere sym).Knows sym.name := by
  refine ⟨sym, ?_⟩
  rw [lookup?_declareHere, beq_self_eq_true]
  rfl

theorem declareHere (h : env.Knows name) (sym : Symbol) : (env.declareHere sym).Knows name := by
  rcases h with ⟨old, hold⟩
  unfold Knows
  rw [lookup?_declareHere]
  cases sym.name == name with
  | true => exact ⟨sym, rfl⟩
  | false => exact ⟨old, hold⟩

theorem afterChain : ∀ ts : List Term,
    (∀ t ∈ ts, ∀ env : Context, env.Knows name → (env.after t).Knows name) →
      ∀ env : Context, env.Knows name → (env.afterChain ts).Knows name
  | [], _, _, h => by
    exact h
  | [body], hts, env, h => by
    exact hts body (by simp) env h
  | _ :: body :: rest, hts, env, h => by
    exact afterChain rest (fun t ht => hts t (by simp [ht])) _ (hts body (by simp) env h)

theorem after (t : Term) (env : Context) (h : env.Knows name) : (env.after t).Knows name := by
  induction t using Term.induction generalizing env with rw [Context.after.eq_def]
  | missing | call => exact h
  | node p parts ih =>
    cases hkind : p.kind with
    | varDecl | classDecl =>
      simp only [hkind]
      exact h.declareHere _
    | cond =>
      simp only [hkind]
      exact afterChain parts ih env h
    | whileLoop =>
      match parts with
      | [] | [_] =>
        simp only [hkind]
        exact h
      | _ :: body :: _ =>
        simp only [hkind]
        exact ih body (by simp) env h
    | _ =>
      simp only [hkind]
      exact h

theorem declareTop (h : env.Knows name) (s : Term) : (env.declareTop s).Knows name := by
  unfold Context.declareTop
  split
  · split
    · exact h.declareHere _
    · exact h.declareHere _
    · exact h.declareHere _
    · exact h
  · exact h

theorem foldl (ss : List Term) : ∀ env : Context, env.Knows name →
    (ss.foldl Context.declareTop env).Knows name := by
  induction ss with
  | nil => exact fun _ h => h
  | cons s _ ih => exact fun env h => ih _ (h.declareTop s)

end Knows

theorem Agrees.known {name : Bytes} (h : ctx.Agrees Eq env) (hknown : env.Knows name) :
    ∃ sym, ctx.lookup? name = some sym ∧
      sym.type = ((env.lookup? name).map Symbol.type).getD .unknown := by
  rcases hknown with ⟨sym, hsym⟩
  rcases h name with ⟨-, hnone⟩ | ⟨a, b, ha, hb, hab⟩
  · rw [hnone] at hsym
    cases hsym
  · exact ⟨a, ha, by rw [hb, Option.map_some, Option.getD_some, hab.type]⟩

theorem ofProgram_knows {ss : List Tree} {ts : List Tree} (h : Tree.node p ts ∈ ss)
    (hkind : p.kind = .funcDecl ∨ p.kind = .varDecl) :
    (ofProgram (Term.ofTrees ss)).Knows p.name := by
  have hdeclares : p.kind.isDeclaration = true := by rcases hkind with h | h <;> rw [h] <;> rfl
  have hterm := Term.mem_ofTrees h
  rw [Term.ofTree_declaration hdeclares ts] at hterm
  have hgeneral (terms : List Term) (hmem : Term.node p (Term.ofTrees ts) ∈ terms) :
      ∀ env : Context, (terms.foldl declareTop env).Knows p.name := by
    induction terms with
    | nil => cases hmem
    | cons s ss ih =>
      intro env
      rcases mem_cons.mp hmem with rfl | hmem
      · refine Knows.foldl ss _ ?_
        rcases hkind with hkind | hkind <;> simp only [declareTop, hkind] <;>
          exact Knows.here env _
      · exact ih hmem _
  exact hgeneral _ hterm _

end Context

namespace Term

mutual

def slots : Term → Nat
  | .node p parts => if p.kind = .funcDecl then 0 else Tree.ownWords p + allSlots parts
  | _ => 0

def allSlots : List Term → Nat
  | [] => 0
  | t :: ts => slots t + allSlots ts

end

theorem slots_ofTrees (ts : List Tree) :
    (∀ t ∈ ts, ∀ n, t.localWords = some n → (ofTree t).slots ≤ n) ∧
      ∀ n, Tree.allWords ts = some n → allSlots (ofTrees ts) ≤ n := by
  induction ts using Tree.listInduction with
  | nil => exact ⟨nofun, fun n _ => Nat.zero_le n⟩
  | missing _ ih =>
    refine ⟨fun t ht => ?_, fun n hn => ?_⟩
    · rcases mem_cons.mp ht with rfl | ht
      · exact fun n _ => Nat.zero_le n
      · exact ih.1 t ht
    · rcases Tree.allWords_cons hn with ⟨_, _, hfirst, _, _⟩
      cases hfirst
  | node p ts _ ihC ihS =>
    have hhead : ∀ n, (Tree.node p ts).localWords = some n → (ofTree (.node p ts)).slots ≤ n := by
      intro n hn
      rw [Tree.localWords] at hn
      by_cases hcall : p.kind = .call ∨ p.kind = .pipe
      · rcases ofTree_called p ts hcall with ⟨callee, args, heq⟩
        rw [heq]
        exact Nat.zero_le n
      · rw [ofTree_node p ts (fun h => hcall (Or.inl h)) (fun h => hcall (Or.inr h)), slots]
        by_cases hfunc : p.kind = .funcDecl
        · rw [if_pos hfunc]
          exact Nat.zero_le n
        · rw [if_neg hfunc] at hn ⊢
          rcases Option.map_eq_some_iff.mp hn with ⟨m, hm, rfl⟩
          exact Nat.add_le_add_left (ihC.2 m hm) _
    refine ⟨fun t ht => ?_, fun n hn => ?_⟩
    · rcases mem_cons.mp ht with rfl | ht
      · exact hhead
      · exact ihS.1 t ht
    · rcases Tree.allWords_cons hn with ⟨first, rest, hfirst, hrest, rfl⟩
      exact Nat.add_le_add (hhead first hfirst) (ihS.2 rest hrest)

end Term

namespace Rules

variable (rules : Rules)

mutual

/-- The issues of a statement. -/
def stmt (looping : Bool) (env : Context) : Term → List Issue
  | .missing => []
  | .call p callee args => (rules.survey env (.call p callee args)).issues
  | .node p parts =>
    match p.kind, parts with
    | .block, parts => stmts looping env parts
    | .varDecl, init :: rest =>
      rules.fit (rules.survey env init) (env.varType p (init :: rest))
    | .varDecl, [] => []
    | .assign, parts => rules.assigned env p.kind parts (rules.surveys env parts)
    | .cond, parts => chain looping env parts
    | .whileLoop, condition :: body :: _ =>
      (rules.survey env condition).issues ++ stmt true env body
    | .forRange, first :: last :: body :: _ =>
      rules.fit (rules.survey env first) .integer ++ rules.fit (rules.survey env last) .integer
        ++ stmt true (env.counting p.name) body
    | .whileLoop, _ | .forRange, _ => []
    | .ret, value :: _ => (rules.survey env value).issues
    | .ret, [] => []
    | .brk, _ | .cont, _ => if looping then [] else [⟨p.kind, .outsideLoop p.kind.head⟩]
    | .classDecl, _ => []
    | .funcDecl, _ => [⟨p.kind, .nestedFunction p.name⟩]
    | .program, _ => [⟨p.kind, .nestedProgram⟩]
    | .other _, _ => [⟨p.kind, .unknownStatement⟩]
    | _, parts => (rules.survey env (.node p parts)).issues

def stmts (looping : Bool) (env : Context) : List Term → List Issue
  | [] => []
  | s :: rest => stmt looping env s ++ stmts looping (env.after s) rest

def chain (looping : Bool) (env : Context) : List Term → List Issue
  | condition :: body :: rest =>
    (rules.survey env condition).issues ++ stmt looping env body
      ++ chain looping (env.after body) rest
  | [body] => stmt looping env body
  | [] => []

end

section Statement

variable (looping : Bool) (env : Context)

theorem stmt_varDecl_nil (h : p.kind = .varDecl) : rules.stmt looping env (.node p []) = [] := by
  rcases p with ⟨kind⟩
  cases h
  rfl

theorem stmt_varDecl_cons (h : p.kind = .varDecl) (init : Term) (rest : List Term) :
    rules.stmt looping env (.node p (init :: rest)) =
      rules.fit (rules.survey env init) (env.varType p (init :: rest)) := by
  rcases p with ⟨kind⟩
  cases h
  rfl

theorem stmt_whileLoop (h : p.kind = .whileLoop) (condition body : Term) :
    rules.stmt looping env (.node p [condition, body]) =
      (rules.survey env condition).issues ++ rules.stmt true env body := by
  rcases p with ⟨kind⟩
  cases h
  rfl

theorem stmt_forRange (h : p.kind = .forRange) (first last body : Term) :
    rules.stmt looping env (.node p [first, last, body]) =
      rules.fit (rules.survey env first) .integer ++ rules.fit (rules.survey env last) .integer
        ++ rules.stmt true (env.counting p.name) body := by
  rcases p with ⟨kind⟩
  cases h
  rfl

theorem stmt_jump (h : p.kind = .brk ∨ p.kind = .cont) (parts : List Term) :
    rules.stmt looping env (.node p parts) =
      if looping then [] else [⟨p.kind, .outsideLoop p.kind.head⟩] := by
  rcases p with ⟨kind⟩
  rcases h with h | h <;> cases h <;> rfl

theorem stmt_classDecl (h : p.kind = .classDecl) (parts : List Term) :
    rules.stmt looping env (.node p parts) = [] := by
  rcases p with ⟨kind⟩
  cases h
  rfl

end Statement

def function (env : Context) : Term → List Issue
  | .node p (body :: _) =>
    if p.kind = .funcDecl then
      rules.params p.name p.params ++ rules.stmt false (env.withParams p.params) body
    else []
  | _ => []

theorem function_other (env : Context) (t : Term) (h : t.kind ≠ .funcDecl) :
    rules.function env t = [] := by
  unfold function
  split
  · exact if_neg h
  · rfl

/-- The issues of a statement at the top level. A variable there was declared before. -/
def topStatement (env : Context) (s : Term) : List Issue :=
  match s.kind, s with
  | .funcDecl, _ | .classDecl, _ => []
  | .varDecl, .node p (init :: _) =>
    rules.fit (rules.survey env init) (((env.lookup? p.name).map Symbol.type).getD .unknown)
  | .varDecl, _ => []
  | _, s => rules.stmt false env s

theorem topStatement_declared (env : Context) (t : Term)
    (h : t.kind = .funcDecl ∨ t.kind = .classDecl) : rules.topStatement env t = [] := by
  unfold topStatement
  rcases h with h | h <;> simp only [h]

theorem topStatement_other (env : Context) (t : Term) (h : t.kind.isDeclaration = false) :
    rules.topStatement env t = rules.stmt false env t := by
  unfold topStatement
  cases hkind : t.kind with
  | funcDecl | classDecl | varDecl =>
    rw [hkind] at h
    cases h
  | _ => rfl

theorem topStatement_varDecl_nil (env : Context) (h : p.kind = .varDecl) :
    rules.topStatement env (.node p []) = [] := by
  simp [topStatement, Term.kind, Term.payload?, h]

theorem topStatement_varDecl_cons (env : Context) (h : p.kind = .varDecl) (init : Term)
    (rest : List Term) : rules.topStatement env (.node p (init :: rest)) =
      rules.fit (rules.survey env init) (((env.lookup? p.name).map Symbol.type).getD .unknown) := by
  simp [topStatement, Term.kind, Term.payload?, h]

def topStatements (env : Context) : List Term → List Issue
  | [] => []
  | s :: rest =>
    rules.topStatement env s
      ++ topStatements (if s.kind.isDeclaration then env else env.after s) rest

/-- The issues of a program, those of its functions first. -/
def program (ss : List Term) : List Issue :=
  ss.flatMap (rules.function (.ofProgram ss)) ++ rules.topStatements (.ofProgram ss) ss

end Rules

end Codegen
