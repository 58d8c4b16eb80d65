import Codegen.Proofs.Arm64.Execution

/-!
# How AArch64 Programs Come About

The last part of the rules: declarations at the top level, functions, the entry, and a whole
program. Each function has its code and its frame, and the program is these in order.
-/

namespace Codegen.Arm64

def functionSymbol (p : Payload) : Symbol :=
  .ofFunction p.name p.params p.result ("fn_" ++ mangle p.name)

def globalStorage (p : Payload) : Bytes := "g_" ++ mangle p.name

def Output.withStorage (s : Output) (symbol : Bytes) (size : Nat) : Output :=
  { s with storage := s.storage ++ [⟨symbol, size⟩] }

def Output.withCode (s : Output) (c : Code) : Output := { s with code := s.code ++ c }

def ownMain? (p : Payload) : Option Symbol :=
  if p.name = "main" && p.params.isEmpty then some (functionSymbol p) else none

/-- The statements of a program are declared. -/
inductive Introduces : List Tree → Stage → Option Symbol → Stage → Prop where
  | nil {st} : Introduces [] st none st
  | function {p ts rest s ctx later st'} (hkind : p.kind = .funcDecl)
      (h : Introduces rest (s, ctx.declareGlobally (functionSymbol p)) later st') :
      Introduces (.node p ts :: rest) (s, ctx) (later.orElse fun _ => ownMain? p) st'
  | classDecl {p ts rest s ctx later st'} (hkind : p.kind = .classDecl)
      (h : Introduces rest (s, ctx.declareHere (.ofClass p.name p.fields)) later st') :
      Introduces (.node p ts :: rest) (s, ctx) later st'
  | varDecl {p ts rest s ctx type later st'} (hkind : p.kind = .varDecl)
      (htype : ctx.topType p.type ts = .ok type)
      (h : Introduces rest (s.withStorage (globalStorage p) (type.rep.words * 8),
        ctx.declareGlobally (.staticVar p.name type (globalStorage p))) later st') :
      Introduces (.node p ts :: rest) (s, ctx) later st'
  | other {p ts rest st later st'} (hkind : p.kind.isDeclaration = false)
      (h : Introduces rest st later st') : Introduces (.node p ts :: rest) st later st'

/-- A function is generated. -/
inductive Defines (flavor : Flavor) (p : Payload) :
    Tree → Stage → Frame → Code → Stage → Prop where
  | mk {body s ctx sym words syms params ctx1 stmt c steps s2 ctx2 fn scope outer whole}
      (hsym : ctx.lookup? p.name = some sym) (hwords : body.localWords = some words)
      (hbinds : Binds p.params (ctx.beginning p.name p.result) syms ctx1)
      (hparams : marks params = []) (hstmt : (Term.ofTree body).stmt? = some stmt)
      (hbody : Executes flavor (.stmt stmt) (s, ctx1) c steps (s2, ctx2))
      (hfn : ctx2.function = some fn) (hfits : fn.nextSlot ≤ words + paramWords p.params)
      (hscopes : ctx2.scopes = scope :: outer)
      (hwhole : whole = prologue sym.storage (words + paramWords p.params) ++ params ++ c
        ++ (zero p.result.rep ++ epilogue fn.ret))
      (hbound : Ends (bindParams p.name 0 p.params) s (ctx.beginning p.name p.result) params
        s ctx1) :
      Defines flavor p body (s, ctx) ⟨p.name, syms, steps⟩ whole
        (s2.withCode whole, { ctx2 with scopes := outer, function := none })

/-- How the functions of a program are generated. -/
inductive Functions (flavor : Flavor) :
    List Tree → Stage → List (Frame × Code) → Stage → Prop where
  | nil {st} : Functions flavor [] st [] st
  | function {p body more rest st frame c st1 fs st'} (hkind : p.kind = .funcDecl)
      (h : Defines flavor p body st frame c st1) (hrest : Functions flavor rest st1 fs st') :
      Functions flavor (.node p (body :: more) :: rest) st ((frame, c) :: fs) st'
  | other {p ts rest st fs st'} (hkind : p.kind ≠ .funcDecl)
      (hrest : Functions flavor rest st fs st') : Functions flavor (.node p ts :: rest) st fs st'

variable (flavor : Flavor) in
/-- The statements at the top level are lowered. -/
inductive Enters : List Tree → Stage → Code → List Step → Stage → Prop where
  | nil {st} : Enters [] st [] [] st
  | declared {p ts rest st c steps st'} (hkind : p.kind = .funcDecl ∨ p.kind = .classDecl)
      (hrest : Enters rest st c steps st') : Enters (.node p ts :: rest) st c steps st'
  | varInit {p init more rest s ctx sym c rep reads st1 cs steps st'} (hkind : p.kind = .varDecl)
      (hsym : ctx.lookup? p.name = some sym)
      (h : Produces flavor (.expr (.ofTree init)) (s, ctx) ⟨c, [rep], reads⟩ st1)
      (hrest : Enters rest st1 cs steps st') :
      Enters (.node p (init :: more) :: rest) (s, ctx) (c ++ store sym ++ cs)
        (.evaluated [.ofTree init] (ctx.reading p.name :: reads) :: steps) st'
  | varZero {p rest s ctx sym cs steps st'} (hkind : p.kind = .varDecl)
      (hsym : ctx.lookup? p.name = some sym) (hrest : Enters rest (s, ctx) cs steps st') :
      Enters (.node p [] :: rest) (s, ctx) (zero sym.type.rep ++ store sym ++ cs)
        (.evaluated [] [ctx.reading p.name] :: steps) st'
  | stmt {p ts rest stmt st c steps st1 cs steps' st'} (hkind : p.kind.isDeclaration = false)
      (hstmt : (Term.ofTree (.node p ts)).stmt? = some stmt)
      (h : Executes flavor (.stmt stmt) st c steps st1) (hrest : Enters rest st1 cs steps' st') :
      Enters (.node p ts :: rest) st (c ++ cs) (steps ++ steps') st'

def callMain (userMain : Option Symbol) : Code :=
  match userMain with
  | some sym => code [.bl sym.storage]
  | none => []

/-- The entry is generated. -/
inductive Entry (flavor : Flavor) (root : Tree) (userMain : Option Symbol) :
    Stage → Frame → Code → Stage → Prop where
  | mk {s ctx words c steps s2 ctx2 fn scope outer whole} (hwords : root.entryWords = some words)
      (hbody : Enters flavor root.statements (s, ctx.beginning "main" .integer) c steps (s2, ctx2))
      (hfn : ctx2.function = some fn) (hfits : fn.nextSlot ≤ words)
      (hscopes : ctx2.scopes = scope :: outer)
      (hwhole : whole = prologue "main" words ++ c ++ callMain userMain
        ++ (zero .scalar ++ epilogue fn.ret)) :
      Entry flavor root userMain (s, ctx) ⟨"main", [], steps⟩ whole
        (s2.withCode whole, { ctx2 with scopes := outer, function := none })

/-- How a program comes about: its functions and last its entry, each with its frame and its
    code, and the output and context at the end. -/
inductive Generates (flavor : Flavor) (root : Tree) : List (Frame × Code) → Stage → Prop where
  | mk {userMain st1 fs st2 frame c st'}
      (hintroduced : Introduces root.statements ({}, { target := target }) userMain st1)
      (hfunctions : Functions flavor root.statements st1 fs st2)
      (hentry : Entry flavor root userMain st2 frame c st') :
      Generates flavor root (fs ++ [(frame, c)]) st'

variable {fs : List (Frame × Code)} {userMain : Option Symbol} {frame : Frame} {steps : List Step}
  {p : Payload} {body : Tree}

section Runs

variable {flavor : Flavor} {s out : Output} {ctx : Context} {st st' : Stage} {ts : List Tree}
  {c : Code} {root : Tree}

theorem ends_declareTop {type : Ty} (hkind : p.kind = .varDecl)
    (h : ctx.topType p.type ts = .ok type) :
    Ends (declareTop (.node p ts)) s ctx none
      (s.withStorage (globalStorage p) (type.rep.words * 8))
      (ctx.declareGlobally (.staticVar p.name type (globalStorage p))) := by
  have hstored (type : Ty) : Ends (do
      let _ ← Gen.declareGlobal p.name type (globalStorage p)
      reserveStorage (globalStorage p) (type.rep.words * 8)
      return none : Emit (Option Symbol)) s ctx none
        (s.withStorage (globalStorage p) (type.rep.words * 8))
        (ctx.declareGlobally (.staticVar p.name type (globalStorage p))) := rfl
  simp only [declareTop, hkind]
  cases ts with
  | nil =>
    cases h
    exact hstored p.type
  | cons =>
    unfold Context.topType Context.declaredType at h
    split_ifs at h ⊢
    · exact ends_bind (ends_typeOf h) (hstored type)
    · cases h
      exact hstored p.type

theorem Introduces.runs (h : Introduces ts st userMain st') :
    Ends (declareAll ts) st.1 st.2 userMain st'.1 st'.2 := by
  -- Only a function can be the program's own entry.
  have hnone (later : Option Symbol) : (later.orElse fun _ => none) = later := by cases later <;> rfl
  induction h with
  | nil => exact ends_pure
  | @function p _ _ _ _ _ _ hkind _ ih =>
    refine ends_bind ?_ (ends_bind ih ends_pure)
    simp only [declareTop, hkind]
    exact ends_bind ends_declareFunction ends_pure
  | @classDecl _ _ _ _ _ later _ hkind _ ih =>
    rw [← hnone later]
    refine ends_bind ?_ (ends_bind ih ends_pure)
    simp only [declareTop, hkind]
    exact ends_bind ends_declareClass ends_pure
  | @varDecl _ _ _ _ _ _ later _ hkind htype _ ih =>
    rw [← hnone later]
    exact ends_bind (ends_declareTop hkind htype) (ends_bind ih ends_pure)
  | @other p _ _ _ later _ hkind _ ih =>
    rw [← hnone later]
    refine ends_bind ?_ (ends_bind ih ends_pure)
    cases h : p.kind with
    | funcDecl | classDecl | varDecl =>
      rw [h] at hkind
      cases hkind
    | _ =>
      simp only [declareTop, h]
      exact ends_pure

theorem ends_declared {name : Bytes} {sym : Symbol} (h : ctx.lookup? name = some sym) :
    Ends (declared name) s ctx sym s ctx := by
  refine ends_bind ends_context ?_
  rw [h]
  exact ends_pure

theorem ends_wordsOf {words : Option Nat} {n : Nat} (h : words = some n) :
    Ends (wordsOf words) s ctx n s ctx := by
  subst h
  exact ends_pure

theorem ends_finish {fn : FunctionState} {scope : Scope} {outer : List Scope} {words : Nat}
    (name : Bytes) (rep : Rep) (hfn : ctx.function = some fn) (hfits : fn.nextSlot ≤ words)
    (hscopes : ctx.scopes = scope :: outer) :
    Ends (finish name words rep) s ctx (zero rep ++ epilogue fn.ret)
      s { ctx with scopes := outer, function := none } := by
  refine ends_bind (ends_slotsUsed hfn) ?_
  rw [if_pos hfits]
  exact ends_bind (ends_returnLabel hfn) (ends_bind (ends_endFunction hscopes) ends_pure)

theorem Defines.runs (h : Defines flavor p body st frame c st') (more : List Tree) :
    Ends (function flavor p (body :: more)) st.1 st.2 () st'.1 st'.2 := by
  cases h with
  | mk hsym hwords _ _ hstmt hbody hfn hfits hscopes hwhole hbound =>
    subst hwhole
    have hruns := hbody.runs
    rw [Task.Runs, ← stmt_eq hstmt] at hruns
    exact ends_bind (ends_declared hsym) (ends_bind (ends_wordsOf hwords)
      (ends_bind ends_beginFunction (ends_bind hbound (ends_bind hruns
      (ends_bind (ends_finish _ _ hfn hfits hscopes) ends_modify)))))

theorem Functions.runs (h : Functions flavor ts st fs st') :
    Ends (functions flavor ts) st.1 st.2 () st'.1 st'.2 := by
  induction h with
  | nil => exact ends_pure
  | @function _ _ more _ _ _ _ _ _ _ hkind h _ ih =>
    simp only [functions, if_pos hkind]
    exact ends_bind (h.runs more) ih
  | other hkind _ ih =>
    simp only [functions, if_neg hkind]
    exact ih

def topStatement (flavor : Flavor) : Tree → Emit Code
  | .missing => throw .missingNode
  | .node p ts =>
    match p.kind with
    | .funcDecl | .classDecl => pure []
    | .varDecl => declared p.name >>= fun sym => initVar flavor sym ts
    | _ => stmt flavor (.ofTree (.node p ts))

theorem topStatements_cons (s : Tree) (rest : List Tree) :
    topStatements flavor (s :: rest) = do
      let c ← topStatement flavor s
      return c ++ (← topStatements flavor rest) := by
  rw [topStatements.eq_def]
  cases s with
  | missing => rfl
  | node p => cases hkind : p.kind <;> simp only [topStatement, hkind, bind_assoc]

theorem Enters.runs (h : Enters flavor ts st c steps st') :
    Ends (topStatements flavor ts) st.1 st.2 c st'.1 st'.2 := by
  have hcons {t : Tree} {ts : List Tree} {st st1 st' : Stage} {c cs : Code}
      (h : Ends (topStatement flavor t) st.1 st.2 c st1.1 st1.2)
      (hrest : Ends (topStatements flavor ts) st1.1 st1.2 cs st'.1 st'.2) :
      Ends (topStatements flavor (t :: ts)) st.1 st.2 (c ++ cs) st'.1 st'.2 := by
    rw [topStatements_cons]
    exact ends_bind h (ends_bind hrest ends_pure)
  induction h with
  | nil => exact ends_pure
  | declared hkind _ ih =>
    refine hcons (c := []) ?_ ih
    rcases hkind with hkind | hkind <;> simp only [topStatement, hkind] <;> exact ends_pure
  | varInit hkind hsym h _ ih =>
    refine hcons ?_ ih
    simp only [topStatement, hkind]
    exact ends_bind (ends_declared hsym) (ends_bind h.runs ends_pure)
  | varZero hkind hsym _ ih =>
    refine hcons ?_ ih
    simp only [topStatement, hkind]
    exact ends_bind (ends_declared hsym) ends_pure
  | @stmt p _ _ _ _ _ _ _ _ _ _ hkind hstmt h _ ih =>
    refine hcons ?_ ih
    have hruns := h.runs
    rw [Task.Runs, ← stmt_eq hstmt] at hruns
    cases h : p.kind with
    | funcDecl | classDecl | varDecl =>
      rw [h] at hkind
      cases hkind
    | _ =>
      simp only [topStatement, h]
      exact hruns

theorem Entry.runs (h : Entry flavor root userMain st frame c st') :
    Ends (entry flavor root userMain) st.1 st.2 () st'.1 st'.2 := by
  cases h with
  | mk hwords hbody hfn hfits hscopes hwhole =>
    subst hwhole
    exact ends_bind (ends_wordsOf hwords) (ends_bind ends_beginFunction
      (ends_bind hbody.runs (ends_bind (ends_finish _ _ hfn hfits hscopes) ends_modify)))

theorem compile_of_ends (h : Ends (generate flavor root) {} { target := target } () out ctx) :
    compile flavor root = .ok (out.text flavor, ctx.limitations) := by
  unfold compile
  rw [h]
  rfl

/-- What the rules say is what the generator does. -/
theorem Generates.compile_eq (h : Generates flavor root fs (out, ctx)) :
    compile flavor root = .ok (out.text flavor, ctx.limitations) := by
  cases h with
  | mk hintroduced hfunctions hentry =>
    exact compile_of_ends (ends_bind hintroduced.runs (ends_bind hfunctions.runs hentry.runs))

end Runs

section Stages

variable {flavor : Flavor} {st st' : Stage} {ts : List Tree} {c : Code}

theorem Enters.advances (h : Enters flavor ts st c steps st') : st.2.Advances st'.2 := by
  induction h with
  | nil => exact .refl _
  | declared _ _ ih | varZero _ _ _ ih => exact ih
  | varInit _ _ h _ ih => exact h.kept.advances.trans ih
  | stmt _ _ h _ ih => exact h.advances.trans ih

theorem Enters.changes (h : Enters flavor ts st c steps st') : Changes flavor st st' := by
  induction h with
  | nil => exact .refl
  | declared _ _ ih | varZero _ _ _ ih => exact ih
  | varInit _ _ h _ ih | stmt _ _ h _ ih => exact h.changes.trans ih

/-- What every change of lowering keeps, and the end of a function as well, where its code is
    added to the output. -/
structure Invariant (flavor : Flavor) (P : Stage → Prop) : Prop where
  touches : ∀ {st st'}, Touches flavor st st' → P st → P st'
  withCode : ∀ {s ctx} (c : Code), P (s, ctx) → P (s.withCode c, ctx)

namespace Invariant

variable {P : Stage → Prop}

theorem context (hP : Invariant flavor P) {s : Output} {ctx ctx' : Context} (hst : P (s, ctx))
    (hhelpers : ctx'.helpers = ctx.helpers) (hdata : ctx'.data = ctx.data) : P (s, ctx') :=
  hP.touches (.context hhelpers hdata) hst

theorem changes (hP : Invariant flavor P) (h : Changes flavor st st') (hst : P st) : P st' := by
  induction h with
  | refl => exact hst
  | tail _ hlast ih => exact hP.touches hlast ih

theorem defines (hP : Invariant flavor P) (h : Defines flavor p body st frame c st') (hst : P st) :
    P st' := by
  cases h with
  | mk _ _ hbinds _ _ hbody =>
    have hbegun := hP.context hst hbinds.rest.2.1 hbinds.rest.2.2
    exact hP.context (hP.withCode c (hP.changes hbody.changes hbegun)) rfl rfl

/-- What every change keeps, functions keep. -/
theorem functions (hP : Invariant flavor P) (h : Functions flavor ts st fs st') (hst : P st) :
    P st' := by
  induction h with
  | nil => exact hst
  | function _ hdefines _ ih => exact ih (hP.defines hdefines hst)
  | other _ _ ih => exact ih hst

/-- What every change keeps, the entry keeps. -/
theorem entry (hP : Invariant flavor P) {root : Tree}
    (h : Entry flavor root userMain st frame c st') (hst : P st) : P st' := by
  cases h with
  | @mk _ ctx _ _ _ _ _ _ _ _ _ _ hbody =>
    have hbegun : P (_, ctx.beginning "main" .integer) := hP.context hst rfl rfl
    exact hP.context (hP.withCode c (hP.changes hbody.changes hbegun)) rfl rfl

end Invariant

end Stages

end Codegen.Arm64
