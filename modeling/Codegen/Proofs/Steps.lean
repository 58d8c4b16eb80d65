import Codegen.Proofs.Survey

/-!
# Statements and Steps

Both generators go through a statement in the same way: what it is follows from the kind of
its node and from how many parts it has. `Stmt` names the cases, so that what a generator does
with a statement can be said by rules of which exactly one or two apply.

On the way a generator declares names, takes slots and evaluates expressions, and an
expression asks what its names stand for. A `Step` is one of these, with all that was decided
in it. The steps of a function are its frame.
-/

namespace Codegen

open Context List

variable {t : Term} {p : Payload} {env : Context}

/-- What a term is as a statement. -/
inductive Stmt where
  | expression (t : Term)
  | block (body : List Term)
  | declare (name : Bytes) (type : Ty) (init : Option Term)
  | assign (parts : List Term)
  | cond (parts : List Term)
  | whileLoop (condition body : Term)
  | forRange (name : Bytes) (first last body : Term)
  | ret (value : Option Term)
  | jump (kind : Kind)
  | classDecl (name : Bytes) (fields : List Param)
  | refused (issue : Issue)

/-- A term as a statement. -/
def Term.stmt? : Term → Option Stmt
  | .missing => none
  | .call p callee args => some (.expression (.call p callee args))
  | .node p parts =>
    match p.kind with
    | .block => some (.block parts)
    | .varDecl => some (.declare p.name p.type parts.head?)
    | .assign => some (.assign parts)
    | .cond => some (.cond parts)
    | .whileLoop =>
      match parts with
      | condition :: body :: _ => some (.whileLoop condition body)
      | _ => none
    | .forRange =>
      match parts with
      | first :: last :: body :: _ => some (.forRange p.name first last body)
      | _ => none
    | .ret => some (.ret parts.head?)
    | .brk => some (.jump .brk)
    | .cont => some (.jump .cont)
    | .classDecl => some (.classDecl p.name p.fields)
    | .funcDecl => some (.refused ⟨.funcDecl, .nestedFunction p.name⟩)
    | .program => some (.refused ⟨.program, .nestedProgram⟩)
    | .other name => some (.refused ⟨.other name, .unknownStatement⟩)
    | _ => some (.expression (.node p parts))

/-- The statements that neither hold others nor leave their place. -/
def Stmt.isPlain : Stmt → Bool
  | .expression _ | .declare _ _ _ | .assign _ | .classDecl _ _ | .refused _ => true
  | _ => false

def Stmt.terms : Stmt → List Term
  | .expression t => [t]
  | .block ts | .assign ts | .cond ts => ts
  | .declare _ _ init | .ret init => init.toList
  | .whileLoop condition body => [condition, body]
  | .forRange _ first last body => [first, last, body]
  | _ => []

/-- What is shown of a term as a statement is shown by cases on its kind. Where its parts are
    looked at, there are enough of them. -/
theorem Term.stmt?_cases {motive : Term → Stmt → Prop}
    (call : ∀ p callee args, motive (.call p callee args) (.expression (.call p callee args)))
    (whileLoop : ∀ p condition body rest, p.kind = .whileLoop →
      motive (.node p (condition :: body :: rest)) (.whileLoop condition body))
    (forRange : ∀ p first last body rest, p.kind = .forRange →
      motive (.node p (first :: last :: body :: rest)) (.forRange p.name first last body))
    (other : ∀ p parts stmt, p.kind ≠ .whileLoop → p.kind ≠ .forRange →
      (Term.node p parts).stmt? = some stmt → motive (.node p parts) stmt) {stmt : Stmt}
    (h : t.stmt? = some stmt) : motive t stmt := by
  rcases t with ⟨p, parts⟩ | ⟨p, callee, args⟩ | _
  · by_cases hwhile : p.kind = .whileLoop
    · rcases parts with _ | ⟨condition, _ | ⟨body, rest⟩⟩ <;>
        simp only [stmt?, hwhile, Option.some.injEq, reduceCtorEq] at h
      subst h
      exact whileLoop p condition body rest hwhile
    by_cases hfor : p.kind = .forRange
    · rcases parts with _ | ⟨first, _ | ⟨last, _ | ⟨body, rest⟩⟩⟩ <;>
        simp only [stmt?, hfor, Option.some.injEq, reduceCtorEq] at h
      subst h
      exact forRange p first last body rest hfor
    · exact other p parts stmt hwhile hfor h
  · cases h
    exact call p callee args
  · cases h

theorem Term.Formed.stmt {stmt : Stmt} (h : t.stmt? = some stmt) :
    Term.Formed [t] → Term.Formed stmt.terms := by
  refine Term.stmt?_cases (motive := fun t stmt => Term.Formed [t] → Term.Formed stmt.terms)
    (fun _ _ _ hf => hf) (fun _ _ _ _ _ hf => ?_) (fun _ _ _ _ _ _ hf => ?_)
    (fun p parts stmt hwhile hfor h hf => ?_) h
  · exact .cons hf.parts.uncons.1 (.cons hf.parts.uncons.2.uncons.1 .nil)
  · exact .cons hf.parts.uncons.1 (.cons hf.parts.uncons.2.uncons.1
      (.cons hf.parts.uncons.2.uncons.2.uncons.1 .nil))
  · have hhead : Term.Formed parts.head?.toList := by
      rcases parts with _ | ⟨t, ts⟩
      · exact .nil
      · exact hf.parts.uncons.1
    unfold Term.stmt? at h
    cases hkind : p.kind with
    | whileLoop => exact absurd hkind hwhile
    | forRange => exact absurd hkind hfor
    | block | assign | cond =>
      simp only [hkind, Option.some.injEq] at h
      subst h
      exact hf.parts
    | varDecl | ret =>
      simp only [hkind, Option.some.injEq] at h
      subst h
      exact hhead
    | brk | cont | classDecl | funcDecl | program | other =>
      simp only [hkind, Option.some.injEq] at h
      subst h
      exact .nil
    | _ =>
      simp only [hkind, Option.some.injEq] at h
      subst h
      exact hf

theorem Term.stmt?_varDecl (hkind : p.kind = .varDecl) (ts : List Tree) :
    (Term.ofTree (.node p ts)).stmt? = some (.declare p.name p.type (Term.ofTrees ts).head?) := by
  rw [ofTree_declaration (by rw [hkind]; rfl)]
  simp [stmt?, hkind]

namespace Tree

def functionBody? : Tree → Option Term
  | .node p (body :: _) => if p.kind = .funcDecl then some (.ofTree body) else none
  | _ => none

theorem functionBody?_of_ne (h : p.kind ≠ .funcDecl) (ts : List Tree) :
    functionBody? (.node p ts) = none := by
  cases ts with
  | nil => rfl
  | cons => exact if_neg h

def isFunction : Tree → Bool
  | .node p _ => p.kind = .funcDecl
  | .missing => false

/-- Whether a statement at the top level is lowered in the entry. -/
def isEntered : Tree → Bool
  | .node p _ => p.kind ≠ .funcDecl && p.kind ≠ .classDecl
  | .missing => true

theorem isEntered_of_not_declaration (h : p.kind.isDeclaration = false) (ts : List Tree) :
    isEntered (.node p ts) = true := by
  have hfunction : p.kind ≠ .funcDecl := fun hkind => by simp [hkind, Kind.isDeclaration] at h
  have hclass : p.kind ≠ .classDecl := fun hkind => by simp [hkind, Kind.isDeclaration] at h
  simp [isEntered, hfunction, hclass]

/-- The statements of each function of a program, and last those of its entry. -/
def routines (root : Tree) : List (List Term) :=
  (root.statements.filterMap functionBody?).map (fun body => [body])
    ++ [(root.statements.filter isEntered).map Term.ofTree]

end Tree

/-- Whether a symbol belongs to the top level, as functions and the variables there do. -/
def Symbol.isStatic (sym : Symbol) : Bool := sym.global || sym.kind = .function

/-- If a symbol is a local, its slots are below a bound. -/
def Symbol.Below (n : Nat) (sym : Symbol) : Prop :=
  sym.kind = .variable → sym.global = false → 0 ≤ sym.slot ∧ sym.slot + sym.type.rep.words ≤ n

theorem Symbol.Below.mono {n m : Nat} {sym : Symbol} (h : sym.Below n) (hle : n ≤ m) :
    sym.Below m := fun hkind hglobal =>
  ⟨(h hkind hglobal).1, Int.le_trans (h hkind hglobal).2 (Int.ofNat_le.mpr hle)⟩

/-- If a symbol is a local, its slots satisfy a condition. -/
def Symbol.Occupies (P : Int → Prop) (sym : Symbol) : Prop :=
  sym.kind = .variable → sym.global = false → ∀ i : Nat, i < sym.type.rep.words → P (sym.slot + i)

theorem Symbol.Below.occupies {P : Int → Prop} {n : Nat} {sym : Symbol} (h : sym.Below n)
    (hP : ∀ slot : Nat, slot < n → P slot) : sym.Occupies P := by
  intro hkind hglobal i hi
  obtain ⟨hlow, hhigh⟩ := h hkind hglobal
  have hslot := hP (sym.slot + i).toNat (by omega)
  rwa [Int.toNat_of_nonneg (by omega)] at hslot

namespace Context

/-- The type of a variable: the one it was declared with, or that of its first value. -/
def declaredType (ctx : Context) (type : Ty) (init : Term) : Except Fault Ty :=
  if type = .unknown then ctx.typeOf init else .ok type

end Context

def Term.isPlace : Term → Bool
  | .node p _ => p.kind = .ident || p.kind = .index
  | _ => false

def Kind.isNoExpression : Kind → Bool
  | .integer | .decimal | .boolean | .string | .ident | .binary | .unary | .array | .index
  | .assign => false
  | _ => true

theorem Context.Agrees.type_eq {ctx : Context} (h : ctx.Agrees Eq env) (hf : Term.Formed [t])
    {type : Ty} (htype : ctx.typeOf t = .ok type) : type = env.typed t :=
  Except.ok.inj (htype.symm.trans (h.typeOf hf t (by simp)))

/-- What a name was found to stand for. -/
structure Read where
  name : Bytes
  symbol : Option Symbol

def Context.reading (ctx : Context) (name : Bytes) : Read := ⟨name, ctx.lookup? name⟩

/-- What a generator does in a function, besides making code: it declares a name, takes a slot
    that no name refers to, or evaluates expressions, whose names are looked up. -/
inductive Step where
  | declared (sym : Symbol)
  | reserved (slot : Nat)
  | evaluated (ts : List Term) (reads : List Read)

/-- What a generator does in one function: the locals of the parameters, and the steps of the
    body. -/
structure Frame where
  name : Bytes
  params : List Symbol
  steps : List Step

/-- Parameters become locals of the function under way, one after the other; a backend may find
    issues with them. -/
inductive Binds : List Param → Context → List Symbol → Context → Prop where
  | nil {ctx} : Binds [] ctx [] ctx
  | cons {param params ctx fn issues syms ctx'} (hfn : ctx.function = some fn)
      (h : Binds params ((ctx.declaring fn param.name param.type).reporting issues) syms ctx') :
      Binds (param :: params) ctx (.localVar param.name param.type fn.nextSlot :: syms) ctx'

def Context.topType (ctx : Context) (type : Ty) : List Tree → Except Fault Ty
  | init :: _ => ctx.declaredType type (.ofTree init)
  | [] => .ok type

namespace Context

variable {ctx ctx' : Context} {loop : Option LoopTargets} {sym : Symbol} {name : Bytes}

section Declarations

variable (ctx : Context) (sym : Symbol)

theorem labels_declareHere : (ctx.declareHere sym).labels = ctx.labels := by
  unfold declareHere
  cases ctx.scopes <;> rfl

theorem labels_declaring (fn : FunctionState) (name : Bytes) (type : Ty) :
    (ctx.declaring fn name type).labels = ctx.labels := labels_declareHere _ _

theorem helpers_declareHere : (ctx.declareHere sym).helpers = ctx.helpers := by
  unfold declareHere
  cases ctx.scopes <;> rfl

theorem data_declareHere : (ctx.declareHere sym).data = ctx.data := by
  unfold declareHere
  cases ctx.scopes <;> rfl

theorem limitations_declareHere : (ctx.declareHere sym).limitations = ctx.limitations := by
  unfold declareHere
  cases ctx.scopes <;> rfl

theorem function_declareHere : (ctx.declareHere sym).function = ctx.function := by
  unfold declareHere
  cases ctx.scopes <;> rfl

theorem function_declaring (fn : FunctionState) (name : Bytes) (type : Ty) :
    (ctx.declaring fn name type).function =
      some { fn with nextSlot := fn.nextSlot + type.rep.words } :=
  function_declareHere _ _

end Declarations

theorem loopTargets?_eq {fn : FunctionState} (h : ctx.function = some fn) :
    ctx.loopTargets? = fn.loop := by
  unfold loopTargets?
  rw [h]
  rfl

/-- What evaluating an expression leaves alone: all but literals, helpers and limitations, and no
    limitation is taken back. -/
structure Kept (ctx ctx' : Context) : Prop where
  target : ctx'.target = ctx.target
  labels : ctx'.labels = ctx.labels
  globals : ctx'.globals = ctx.globals
  scopes : ctx'.scopes = ctx.scopes
  function : ctx'.function = ctx.function
  limitations : ctx.limitations <+: ctx'.limitations

namespace Kept

variable {ctx ctx1 ctx2 : Context}

theorem refl (ctx : Context) : ctx.Kept ctx := ⟨rfl, rfl, rfl, rfl, rfl, prefix_rfl⟩

theorem trans (h : ctx.Kept ctx1) (h' : ctx1.Kept ctx2) : ctx.Kept ctx2 :=
  ⟨h'.target.trans h.target, h'.labels.trans h.labels, h'.globals.trans h.globals,
    h'.scopes.trans h.scopes, h'.function.trans h.function, h.limitations.trans h'.limitations⟩

theorem reporting {ctx : Context} {issues : List Issue} : ctx.Kept (ctx.reporting issues) :=
  ⟨rfl, rfl, rfl, rfl, rfl, prefix_append _ _⟩

theorem claiming {ctx : Context} {name : Bytes} : ctx.Kept (ctx.claiming name) :=
  ⟨rfl, rfl, rfl, rfl, rfl, prefix_rfl⟩

theorem data {ctx : Context} {data : DataSegment} : ctx.Kept { ctx with data } :=
  ⟨rfl, rfl, rfl, rfl, rfl, prefix_rfl⟩

theorem clean (h : ctx.Kept ctx1) (hclean : ctx1.limitations = []) : ctx.limitations = [] :=
  prefix_nil.mp (hclean ▸ h.limitations)

theorem lookup? (h : ctx.Kept ctx1) (name : Bytes) : ctx1.lookup? name = ctx.lookup? name := by
  unfold Context.lookup?
  rw [h.scopes, h.globals]

end Kept

theorem Agrees.kept {rel : Ty → Ty → Prop} (h : ctx.Agrees rel env) (hkept : ctx.Kept ctx') :
    ctx'.Agrees rel env := h.congr hkept.scopes hkept.globals

theorem Agrees.declaring (h : ctx.Agrees Eq env) (fn : FunctionState) (name : Bytes) (type : Ty) :
    (ctx.declaring fn name type).Agrees Eq (env.declareHere (.localVar name type 0)) :=
  Agrees.declareHere (c := ctx.taking fn type.rep.words) h rfl ⟨rfl, rfl, rfl, rfl⟩

theorem forall_reads_singleton (ctx : Context) (name : Bytes) :
    ∀ read ∈ [ctx.reading name], read = ctx.reading read.name :=
  forall_mem_singleton.mpr rfl

/-- Answers to names that a context gives are given by every context with its scopes. -/
theorem forall_reads_append {ctx1 : Context} (h : ctx.Kept ctx1) {a b : List Read}
    (ha : ∀ read ∈ a, read = ctx.reading read.name)
    (hb : ∀ read ∈ b, read = ctx1.reading read.name) :
    ∀ read ∈ a ++ b, read = ctx.reading read.name := by
  intro read hread
  rcases mem_append.mp hread with hread | hread
  · exact ha read hread
  · rw [hb read hread]
    exact congrArg (Read.mk read.name) (h.lookup? read.name)

/-- What is true of all that names may stand for. -/
def Scoped (ctx : Context) (P : Symbol → Prop) : Prop :=
  ∀ scope ∈ ctx.globals :: ctx.scopes, ∀ sym ∈ scope, P sym

def slotsTaken (ctx : Context) : Nat := (ctx.function.map FunctionState.nextSlot).getD 0

theorem slotsTaken_eq {fn : FunctionState} (h : ctx.function = some fn) :
    ctx.slotsTaken = fn.nextSlot := by
  rw [slotsTaken, h, Option.map_some, Option.getD_some]

theorem mem_of_lookup? (h : ctx.lookup? name = some sym) :
    sym.name = name ∧ ∃ scope ∈ ctx.globals :: ctx.scopes, sym ∈ scope := by
  rcases exists_of_findSome?_eq_some h with ⟨scope, hscope, hfound⟩
  have hnamed := find?_some hfound
  exact ⟨eq_of_beq hnamed, scope, by simpa [or_comm] using hscope, mem_of_find?_eq_some hfound⟩

section Scoped

variable {P : Symbol → Prop}

theorem Scoped.lookup? (h : ctx.Scoped P) (hsym : ctx.lookup? name = some sym) : P sym := by
  rcases (mem_of_lookup? hsym).2 with ⟨scope, hscope, hmem⟩
  exact h scope hscope sym hmem

theorem Kept.scoped (h : ctx.Kept ctx') (hctx : ctx.Scoped P) : ctx'.Scoped P := by
  unfold Scoped
  rw [h.globals, h.scopes]
  exact hctx

theorem Scoped.entering (h : ctx.Scoped P) : ctx.entering.Scoped P := by
  obtain ⟨hglobals, hscopes⟩ := forall_mem_cons.mp h
  exact forall_mem_cons.mpr
    ⟨hglobals, forall_mem_cons.mpr ⟨forall_mem_nil _, hscopes⟩⟩

theorem Scoped.outside (h : ctx.Scoped P) (hctx : ctx'.scopes = [] ∧ ctx'.globals = ctx.globals) :
    ctx'.Scoped P := by
  unfold Scoped
  rw [hctx.1, hctx.2]
  exact forall_mem_singleton.mpr (forall_mem_cons.mp h).1

theorem Scoped.begun (h : ctx.Scoped (Symbol.Below 0)) (n : Nat) :
    ctx.entering.Scoped (Symbol.Below n) := fun scope hscope sym hsym =>
  (h.entering scope hscope sym hsym).mono (Nat.zero_le n)

theorem Scoped.declareHere (h : ctx.Scoped P) (hsym : P sym) : (ctx.declareHere sym).Scoped P := by
  obtain ⟨hglobals, hscopes⟩ := forall_mem_cons.mp h
  have hdeclared {scope : Scope} (h : ∀ found ∈ scope, P found) :
      ∀ found ∈ scope.declare sym, P found := forall_mem_cons.mpr ⟨hsym, h⟩
  unfold Context.declareHere
  cases hctx : ctx.scopes with
  | nil => exact forall_mem_cons.mpr ⟨hdeclared hglobals, forall_mem_nil _⟩
  | cons =>
    rw [hctx] at hscopes
    obtain ⟨hinner, houter⟩ := forall_mem_cons.mp hscopes
    exact forall_mem_cons.mpr
      ⟨hglobals, forall_mem_cons.mpr ⟨hdeclared hinner, houter⟩⟩

end Scoped

/-- What a statement leaves alone: the function under way but for its slots, the global scope
    if it is inside of another one, and all scopes but the innermost, where it declares nothing
    but classes and locals in slots that are taken. -/
structure Advances (ctx ctx' : Context) : Prop where
  labels : ctx.labels ≤ ctx'.labels
  globals : ctx.scopes ≠ [] → ctx'.globals = ctx.globals
  scopes : ∀ {scope outer}, ctx.scopes = scope :: outer → ∃ scope', ctx'.scopes = scope' :: outer
  function : ∀ {fn}, ctx.function = some fn →
    ∃ n, fn.nextSlot ≤ n ∧ ctx'.function = some { fn with nextSlot := n }
  keeps : ∀ {P : Symbol → Prop}, (∀ sym, sym.isStatic = false → sym.Below ctx'.slotsTaken → P sym) →
    ctx.Scoped P → ctx'.Scoped P
  limitations : ctx.limitations <+: ctx'.limitations

theorem Kept.advances (h : ctx.Kept ctx') : ctx.Advances ctx' where
  labels := Nat.le_of_eq h.labels.symm
  globals _ := h.globals
  scopes hscopes := ⟨_, h.scopes.trans hscopes⟩
  function hfn := ⟨_, Nat.le_refl _, h.function.trans hfn⟩
  keeps _ := h.scoped
  limitations := h.limitations

namespace Advances

variable {ctx ctx1 ctx2 : Context} {fn fn' : FunctionState} {scope : Scope} {outer : List Scope}

theorem refl (ctx : Context) : ctx.Advances ctx := (Kept.refl ctx).advances

/-- Where there are no limitations afterwards, there were none before. -/
theorem clean (h : ctx.Advances ctx1) (hclean : ctx1.limitations = []) : ctx.limitations = [] :=
  prefix_nil.mp (hclean ▸ h.limitations)

theorem slots_le (h : ctx.Advances ctx1) : ctx.slotsTaken ≤ ctx1.slotsTaken := by
  cases hctx : ctx.function with
  | none => simp [slotsTaken, hctx]
  | some =>
    rcases h.function hctx with ⟨n, hn, hfn⟩
    rw [slotsTaken_eq hctx, slotsTaken_eq hfn]
    exact hn

theorem trans (h : ctx.Advances ctx1) (h' : ctx1.Advances ctx2) : ctx.Advances ctx2 where
  labels := Nat.le_trans h.labels h'.labels
  globals hinside := by
    rcases exists_cons_of_ne_nil hinside with ⟨scope, outer, hscopes⟩
    rcases h.scopes hscopes with ⟨scope1, hscopes1⟩
    rw [h'.globals (by rw [hscopes1]; exact cons_ne_nil _ _), h.globals hinside]
  scopes hscopes := by
    rcases h.scopes hscopes with ⟨scope1, hscopes1⟩
    exact h'.scopes hscopes1
  function hfn := by
    rcases h.function hfn with ⟨n, hn, hfn1⟩
    rcases h'.function hfn1 with ⟨m, hm, hfn2⟩
    exact ⟨m, Nat.le_trans hn hm, hfn2⟩
  keeps hlocal hctx := h'.keeps hlocal <|
    h.keeps (fun sym hsym hbelow => hlocal sym hsym (hbelow.mono h'.slots_le)) hctx
  limitations := h.limitations.trans h'.limitations

theorem below (h : ctx.Advances ctx1) {n : Nat} (hle : ctx1.slotsTaken ≤ n)
    (hctx : ctx.Scoped (Symbol.Below n)) : ctx1.Scoped (Symbol.Below n) :=
  h.keeps (fun _ _ hbelow => hbelow.mono hle) hctx

theorem occupies (h : ctx.Advances ctx1) {P : Int → Prop} {n : Nat}
    (hP : ∀ slot : Nat, slot < n → P slot) (hle : ctx1.slotsTaken ≤ n)
    (hctx : ctx.Scoped (Symbol.Occupies P)) : ctx1.Scoped (Symbol.Occupies P) :=
  h.keeps (fun _ _ hbelow => (hbelow.mono hle).occupies hP) hctx

theorem labeling (ctx : Context) (count : Nat) : ctx.Advances (ctx.labeling count) where
  labels := Nat.le_add_right _ _
  globals _ := rfl
  scopes hscopes := ⟨_, hscopes⟩
  function hfn := ⟨_, Nat.le_refl _, hfn⟩
  keeps _ hctx := hctx
  limitations := prefix_rfl

theorem taking (ctx : Context) (hfn : ctx.function = some fn) (words : Nat) :
    ctx.Advances (ctx.taking fn words) where
  labels := Nat.le_refl _
  globals _ := rfl
  scopes hscopes := ⟨_, hscopes⟩
  function hfn' := by
    cases hfn.symm.trans hfn'
    exact ⟨_, Nat.le_add_right _ words, rfl⟩
  keeps _ hctx := hctx
  limitations := prefix_rfl

theorem declareHere (ctx : Context) (hsym : sym.isStatic = false)
    (hbelow : sym.Below ctx.slotsTaken) : ctx.Advances (ctx.declareHere sym) where
  labels := Nat.le_of_eq (labels_declareHere ctx sym).symm
  globals hinside := by
    unfold Context.declareHere
    rcases exists_cons_of_ne_nil hinside with ⟨scope, outer, hscopes⟩
    rw [hscopes]
  scopes hscopes := by
    unfold Context.declareHere
    rw [hscopes]
    exact ⟨_, rfl⟩
  function hfn := ⟨_, Nat.le_refl _, (function_declareHere ctx sym).trans hfn⟩
  keeps hlocal hctx := by
    refine hctx.declareHere (hlocal sym hsym ?_)
    rw [slotsTaken, function_declareHere]
    exact hbelow
  limitations := (limitations_declareHere ctx sym).symm ▸ prefix_rfl

theorem declaring (ctx : Context) (hfn : ctx.function = some fn) (name : Bytes) (type : Ty) :
    ctx.Advances (ctx.declaring fn name type) :=
  (taking ctx hfn _).trans (declareHere _ rfl fun _ _ => ⟨Int.natCast_nonneg _, Int.le_refl _⟩)

theorem enclosed (h : ctx.entering.Advances ctx1) (hscopes : ctx1.scopes = scope :: outer) :
    ctx.Advances { ctx1 with scopes := outer } where
  labels := h.labels
  globals _ := h.globals (cons_ne_nil _ _)
  scopes hctx := by
    have hentered : ctx.entering.scopes = [] :: ctx.scopes := rfl
    rcases h.scopes hentered with ⟨scope1, hscopes1⟩
    cases hscopes.symm.trans hscopes1
    exact ⟨_, hctx⟩
  function hfn := h.function hfn
  keeps hlocal hctx := by
    have hafter := h.keeps hlocal hctx.entering
    unfold Scoped at hafter
    rw [hscopes] at hafter
    obtain ⟨hglobals, hafter⟩ := forall_mem_cons.mp hafter
    exact forall_mem_cons.mpr ⟨hglobals, (forall_mem_cons.mp hafter).2⟩
  limitations := h.limitations

/-- After statements in a scope of their own, names stand for what they stood for before. -/
theorem leaving (h : ctx.entering.Advances ctx1) (hscopes : ctx1.scopes = scope :: outer) :
    outer = ctx.scopes ∧ ctx1.globals = ctx.globals := by
  have hentered : ctx.entering.scopes = [] :: ctx.scopes := rfl
  rcases h.scopes hentered with ⟨scope1, hscopes1⟩
  exact ⟨(cons.inj (hscopes.symm.trans hscopes1)).2, h.globals (cons_ne_nil _ _)⟩

theorem looped (ctx : Context) (hfn : ctx.function = some fn)
    (h : (ctx.looping fn loop).Advances ctx1) (hfn' : ctx1.function = some fn') :
    ctx.Advances (ctx1.looping fn' fn.loop) where
  labels := h.labels
  globals := h.globals
  scopes := h.scopes
  function hctx := by
    cases hfn.symm.trans hctx
    have hlooping : (ctx.looping fn loop).function = some { fn with loop } := rfl
    rcases h.function hlooping with ⟨n, hn, hfn1⟩
    cases hfn'.symm.trans hfn1
    exact ⟨n, hn, rfl⟩
  keeps hlocal := by
    have hslots : (ctx1.looping fn' fn.loop).slotsTaken = ctx1.slotsTaken := (slotsTaken_eq hfn').symm
    exact h.keeps (hslots ▸ hlocal)
  limitations := h.limitations

/-- A counting loop to its body: two slots and the bounds, and the name of the counter. -/
theorem counting {ctx3 : Context} (hfn : ctx.function = some fn)
    (hkept : (ctx.entering.taking fn 2).Kept ctx1) (hsym : sym = .localVar name .integer fn.nextSlot)
    (hctx3 : ctx3 = ctx1.declareHere sym) : ctx.entering.Advances ctx3 := by
  subst hctx3 hsym
  refine ((taking (entering _) hfn 2).trans hkept.advances).trans (declareHere _ rfl ?_)
  rw [slotsTaken, hkept.function]
  exact fun _ _ => ⟨Int.natCast_nonneg _, Int.ofNat_le.mpr (Nat.le_succ _)⟩

theorem slotsTaken_counting {ctx3 : Context} (hkept : (ctx.entering.taking fn 2).Kept ctx1)
    (hctx3 : ctx3 = ctx1.declareHere sym) : ctx3.slotsTaken = fn.nextSlot + 2 := by
  rw [hctx3, slotsTaken, function_declareHere, hkept.function]
  rfl

theorem counted {ctx3 : Context} {fn3 : FunctionState} (hfn : ctx.function = some fn)
    (hkept : (ctx.entering.taking fn 2).Kept ctx1) (hsym : sym = .localVar name .integer fn.nextSlot)
    (hctx3 : ctx3 = ctx1.declareHere sym) (hfn3 : ctx3.function = some fn3)
    (h : ((ctx3.labeling 3).looping fn3 loop).Advances ctx2) (hfn' : ctx2.function = some fn') :
    ctx.entering.Advances (ctx2.looping fn' fn3.loop) :=
  ((counting hfn hkept hsym hctx3).trans (.labeling _ 3)).trans
    (.looped (Context.labeling _ 3) hfn3 h hfn')

theorem ended {result : Ty} (h : (ctx.beginning name result).Advances ctx1) (hctx : ctx.scopes = [])
    (hscopes : ctx1.scopes = scope :: outer) : outer = [] ∧ ctx1.globals = ctx.globals := by
  have hbegun : (ctx.beginning name result).scopes = [] :: ctx.scopes := rfl
  rcases h.scopes hbegun with ⟨scope', hscopes'⟩
  cases hscopes.symm.trans hscopes'
  exact ⟨hctx, h.globals (cons_ne_nil _ _)⟩

end Advances

/-- A variable takes the slots of its type, for which there is room even if the type had to
    be inferred. -/
theorem words_varType (env : Context) (parts : List Term) (hkind : p.kind = .varDecl) :
    (env.varType p parts).rep.words ≤ Tree.ownWords p := by
  have hle (type : Ty) : type.rep.words ≤ Rep.fat.words := by
    cases type.rep <;> decide
  unfold Tree.ownWords varType
  simp only [hkind]
  split_ifs with hunknown
  · exact hle _
  · cases parts with
    | nil => exact Nat.le_refl _
    | cons => simp

theorem Agrees.declaredType (h : ctx.Agrees Eq env) {init : Term} (hf : Term.Formed [init])
    (p : Payload) (rest : List Term) :
    ctx.declaredType p.type init = .ok (env.varType p (init :: rest)) := by
  unfold Context.declaredType varType
  dsimp only
  by_cases hunknown : p.type = .unknown
  · rw [if_pos hunknown, if_pos hunknown, h.typeOf hf init (by simp)]
  · rw [if_neg hunknown, if_neg hunknown]

theorem Agrees.topType (h : ctx.Agrees Eq env) (p : Payload) {ts : List Tree}
    (hf : Tree.Formed ts) : ctx.topType p.type ts = .ok (env.varType p (Term.ofTrees ts)) := by
  cases ts with
  | nil => rfl
  | cons _ rest => exact h.declaredType hf.terms.1.uncons.1 p (Term.ofTrees rest)

/-- A function is under way and a scope is open. -/
structure Inside (ctx : Context) (looping : Bool) : Prop where
  scope : ∃ scope outer, ctx.scopes = scope :: outer
  function : ∃ fn, ctx.function = some fn ∧ fn.loop.isSome = looping

theorem inside_beginning (ctx : Context) (name : Bytes) (result : Ty) :
    (ctx.beginning name result).Inside false := ⟨⟨[], ctx.scopes, rfl⟩, _, rfl, rfl⟩

theorem Inside.advances {looping : Bool} (h : ctx.Inside looping) (hadvances : ctx.Advances ctx') :
    ctx'.Inside looping := by
  rcases h.scope with ⟨scope, outer, hscopes⟩
  rcases h.function with ⟨fn, hfn, hloop⟩
  rcases hadvances.scopes hscopes with ⟨scope', hscopes'⟩
  rcases hadvances.function hfn with ⟨n, -, hfn'⟩
  exact ⟨⟨scope', outer, hscopes'⟩, _, hfn', hloop⟩

/-- What is added on the way to a context: so many slots at most, and these limitations. -/
structure Spends (ctx ctx' : Context) (words : Nat) (issues : List Issue) : Prop where
  target : ctx'.target = ctx.target
  slots : ctx'.slotsTaken ≤ ctx.slotsTaken + words
  limitations : ctx'.limitations = ctx.limitations ++ issues.map (Issue.limitation ctx.target)

namespace Spends

variable {ctx ctx1 ctx2 : Context} {m n : Nat} {is js : List Issue} {fn fn' : FunctionState}

theorem reporting {ctx : Context} {is : List Issue} : ctx.Spends (ctx.reporting is) 0 is :=
  ⟨rfl, Nat.le_refl _, rfl⟩

theorem refl (ctx : Context) : ctx.Spends ctx 0 [] := ⟨rfl, Nat.le_refl _, by simp⟩

theorem trans (h : ctx.Spends ctx1 m is) (h' : ctx1.Spends ctx2 n js) :
    ctx.Spends ctx2 (m + n) (is ++ js) where
  target := h'.target.trans h.target
  slots := by
    have h := h.slots
    have h' := h'.slots
    omega
  limitations := by
    rw [h'.limitations, h.limitations, h.target, map_append, append_assoc]

theorem mono (h : ctx.Spends ctx1 m is) (hle : m ≤ n) : ctx.Spends ctx1 n is :=
  ⟨h.target, Nat.le_trans h.slots (Nat.add_le_add_left hle _), h.limitations⟩

theorem taking (ctx : Context) (hfn : ctx.function = some fn) (words : Nat) :
    ctx.Spends (ctx.taking fn words) words [] :=
  ⟨rfl, Nat.le_of_eq (by rw [slotsTaken_eq hfn]; rfl), by simp [Context.taking]⟩

theorem declareHere (ctx : Context) (sym : Symbol) : ctx.Spends (ctx.declareHere sym) 0 [] := by
  unfold Context.declareHere
  cases ctx.scopes <;> exact ⟨rfl, Nat.le_refl _, by simp⟩

theorem of_declareGlobally (h : (ctx.declareGlobally sym).Spends ctx1 m is) :
    ctx.Spends ctx1 m is := ⟨h.1, h.2, h.3⟩

theorem declaring (hfn : ctx.function = some fn) (name : Bytes) (type : Ty) :
    ctx.Spends (ctx.declaring fn name type) type.rep.words [] :=
  (taking ctx hfn _).trans (declareHere _ _)

theorem looped (ctx : Context) (hfn : ctx.function = some fn)
    (h : (ctx.looping fn loop).Spends ctx1 m is) (hfn' : ctx1.function = some fn') :
    ctx.Spends (ctx1.looping fn' fn.loop) m is := by
  have hslots := h.slots
  rw [slotsTaken_eq hfn'] at hslots
  refine ⟨h.target, ?_, h.limitations⟩
  rw [slotsTaken_eq hfn]
  exact hslots

end Spends

end Context

namespace Binds

variable {params : List Param} {ctx ctx' : Context} {syms : List Symbol}

theorem advances (h : Binds params ctx syms ctx') : ctx.Advances ctx' := by
  induction h with
  | nil => exact .refl _
  | cons hfn _ ih =>
    exact ((Context.Advances.declaring _ hfn _ _).trans
      Context.Kept.reporting.advances).trans ih

theorem agrees (h : Binds params ctx syms ctx') (hk : ctx.Agrees Eq env) :
    ctx'.Agrees Eq (env.withParams params) := by
  induction h generalizing env with
  | nil => exact hk
  | cons _ _ ih => exact ih ((hk.declaring _ _ _).reporting _)

theorem slots_below (h : Binds params ctx syms ctx') :
    ∀ sym ∈ syms, 0 ≤ sym.slot ∧ sym.slot + sym.type.rep.words ≤ ctx'.slotsTaken := by
  induction h with
  | nil => exact forall_mem_nil _
  | @cons param _ ctx fn _ _ _ hfn h ih =>
    have htaken := slotsTaken_eq (function_declaring ctx fn param.name param.type)
    have hle := Nat.le_trans (Nat.le_of_eq htaken.symm) h.advances.slots_le
    exact forall_mem_cons.mpr ⟨⟨Int.natCast_nonneg _, Int.ofNat_le.mpr hle⟩, ih⟩

theorem rest (h : Binds params ctx syms ctx') :
    ctx'.labels = ctx.labels ∧ ctx'.helpers = ctx.helpers ∧ ctx'.data = ctx.data := by
  induction h with
  | nil => exact ⟨rfl, rfl, rfl⟩
  | cons _ _ ih =>
    exact ⟨ih.1.trans (labels_declareHere _ _),
      ih.2.1.trans (helpers_declareHere _ _),
      ih.2.2.trans (data_declareHere _ _)⟩

end Binds

end Codegen
