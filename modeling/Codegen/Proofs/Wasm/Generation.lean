import Codegen.Proofs.Wasm.Execution

/-!
# How WebAssembly Modules Come About

The last part of the rules: declarations at the top level, functions, the entry, and a whole
module. Each function has its frame, and the module is made of the functions in order. After
its parameters, a function takes one cell that no step of its frame mentions, the scratch cell.
-/

namespace Codegen.Wasm

variable {scratch : Nat} {statements : List Tree}

abbrev functionName (name : Bytes) : Bytes := "$fn_" ++ mangle name

/-- The name of a variable of the program in the module. -/
abbrev globalName (name : Bytes) : Bytes := "$g_" ++ mangle name

def functionSymbol (p : Payload) : Symbol :=
  .ofFunction p.name p.params p.result (functionName p.name)

def globalSymbol (p : Payload) (type : Ty) : Symbol := .staticVar p.name type (globalName p.name)

def globalCells (p : Payload) (type : Ty) : List Bytes :=
  globalName p.name :: (if type.rep = .fat then [lengthCell (globalName p.name)] else [])

def Output.withGlobals (s : Output) (names : List Bytes) : Output :=
  { s with globals := s.globals ++ names }

def Output.withFunc (s : Output) (f : Func) : Output := { s with funcs := s.funcs ++ [f] }

def ownMain? (p : Payload) : Option Symbol :=
  if p.name = "main" && p.params.isEmpty then some (functionSymbol p) else none

/-- The statements of a program are declared. -/
inductive Introduces : List Tree → Stage → Option Symbol → Stage → Prop where
  | nil {st} : Introduces [] st none st
  | function {p ts rest s ctx later st'} (hkind : p.kind = .funcDecl)
      (h : Introduces rest (s, ctx.declareGlobally (functionSymbol p)) later st') :
      Introduces (.node p ts :: rest) (s, ctx) (later.orElse fun _ => ownMain? p) st'
  | classDecl {p ts rest s ctx later st'} (hkind : p.kind = .classDecl)
      (h : Introduces rest (s, ctx.declareHere (.ofClass p.name p.fields)) later st') :
      Introduces (.node p ts :: rest) (s, ctx) later st'
  | varDecl {p ts rest s ctx type later st'} (hkind : p.kind = .varDecl)
      (htype : ctx.topType p.type ts = .ok type)
      (h : Introduces rest (s.withGlobals (globalCells p type),
        ctx.declareGlobally (globalSymbol p type)) later st') :
      Introduces (.node p ts :: rest) (s, ctx) later st'
  | other {p ts rest st later st'} (hkind : p.kind.isDeclaration = false)
      (h : Introduces rest st later st') : Introduces (.node p ts :: rest) st later st'

/-- A function is generated. -/
inductive Defines (userMain : Option Symbol) (p : Payload) :
    Tree → Stage → Frame → Func → Stage → Prop where
  | mk {body s ctx sym syms ctx1 fn1 stmt c steps s2 ctx2 fn scope outer f}
      (hsym : ctx.lookup? p.name = some sym)
      (hbinds : Binds p.params (ctx.beginning p.name p.result) syms ctx1)
      (hfn1 : ctx1.function = some fn1) (hstmt : (Term.ofTree body).stmt? = some stmt)
      (hbody : Executes fn1.nextSlot (.stmt stmt) (s, ctx1.taking fn1 1) c steps (s2, ctx2))
      (hfn : ctx2.function = some fn) (hscopes : ctx2.scopes = scope :: outer)
      (hf : f = {
        name := sym.storage
        exportName := if userMain = some sym then none else some p.name
        params := paramCells p.params
        hasResult := p.result.hasResult
        locals := fn.nextSlot - paramCells p.params
        body := c ++ (if p.result.hasResult then [.const 0] else []) })
      (hbound : Ends (bindParams p.params) s (ctx.beginning p.name p.result) () s ctx1) :
      Defines userMain p body (s, ctx) ⟨p.name, syms, steps⟩ f
        (s2.withFunc f, { ctx2 with scopes := outer, function := none })

/-- How the functions of a program are generated. -/
inductive Functions (userMain : Option Symbol) :
    List Tree → Stage → List (Frame × Func) → Stage → Prop where
  | nil {st} : Functions userMain [] st [] st
  | function {p body more rest st frame f st1 fs st'} (hkind : p.kind = .funcDecl)
      (h : Defines userMain p body st frame f st1) (hrest : Functions userMain rest st1 fs st') :
      Functions userMain (.node p (body :: more) :: rest) st ((frame, f) :: fs) st'
  | other {p ts rest st fs st'} (hkind : p.kind ≠ .funcDecl)
      (hrest : Functions userMain rest st fs st') :
      Functions userMain (.node p ts :: rest) st fs st'

variable (scratch : Nat) in
/-- The statements at the top level are lowered. -/
inductive Enters : List Tree → Stage → Code → List Step → Stage → Prop where
  | nil {st} : Enters [] st [] [] st
  | declared {p ts rest st c steps st'} (hkind : p.kind = .funcDecl ∨ p.kind = .classDecl)
      (hrest : Enters rest st c steps st') :
      Enters (.node p ts :: rest) st c steps st'
  | varInit {p init more rest s ctx sym c cells reads s1 ctx1 v cs steps st'}
      (hkind : p.kind = .varDecl) (hsym : ctx.lookup? p.name = some sym)
      (h : Produces scratch (.expr (.ofTree init)) (s, ctx) ⟨c, cells, reads⟩ (s1, ctx1))
      (hv : coercion (.ofTree init) sym.type (settle (c, cells)) = v)
      (hrest : Enters rest (s1, ctx1.reporting v.2) cs steps st') :
      Enters (.node p (init :: more) :: rest) (s, ctx) (v.1 ++ store sym ++ cs)
        (.evaluated [.ofTree init] (ctx.reading p.name :: reads) :: steps) st'
  | varZero {p rest s ctx sym cs steps st'} (hkind : p.kind = .varDecl)
      (hsym : ctx.lookup? p.name = some sym) (hrest : Enters rest (s, ctx) cs steps st') :
      Enters (.node p [] :: rest) (s, ctx) (zero sym.type.rep ++ store sym ++ cs)
        (.evaluated [] [ctx.reading p.name] :: steps) st'
  | stmt {p ts rest stmt st c steps st1 cs steps' st'} (hkind : p.kind.isDeclaration = false)
      (hstmt : (Term.ofTree (.node p ts)).stmt? = some stmt)
      (h : Executes scratch (.stmt stmt) st c steps st1) (hrest : Enters rest st1 cs steps' st') :
      Enters (.node p ts :: rest) st (c ++ cs) (steps ++ steps') st'

/-- The entry is generated. -/
inductive Entry (statements : List Tree) (userMain : Option Symbol) :
    Stage → Frame → Func → Stage → Prop where
  | mk {s ctx fn1 c steps s2 ctx2 fn scope outer f}
      (hfn1 : (ctx.beginning "main" .void).function = some fn1)
      (hbody : Enters fn1.nextSlot statements (s, (ctx.beginning "main" .void).taking fn1 1) c steps
        (s2, ctx2))
      (hfn : ctx2.function = some fn) (hscopes : ctx2.scopes = scope :: outer)
      (hf : f = {
        name := "$main"
        exportName := some "main"
        locals := fn.nextSlot
        body := c ++ callMain userMain }) :
      Entry statements userMain (s, ctx) ⟨"main", [], steps⟩ f
        (s2.withFunc f, { ctx2 with scopes := outer, function := none })

/-- How a module comes about: its functions and last its entry, each with its frame, and the
    output and context at the end. -/
inductive Generates (root : Tree) : List (Frame × Func) → Stage → Prop where
  | mk {userMain st1 fs st2 frame f st'}
      (hintroduced : Introduces root.statements ({}, { target := target }) userMain st1)
      (hfunctions : Functions userMain root.statements st1 fs st2)
      (hentry : Entry root.statements userMain st2 frame f st') :
      Generates root (fs ++ [(frame, f)]) st'

variable {p : Payload} {steps : List Step} {body : Tree} {c : Code}

section Runs

variable {s out : Output} {ctx : Context} {st st' : Stage} {ts : List Tree}
  {userMain : Option Symbol} {fs : List (Frame × Func)} {root : Tree} {frame : Frame} {f : Func}

theorem ends_declareTop {type : Ty} (hkind : p.kind = .varDecl)
    (h : ctx.topType p.type ts = .ok type) :
    Ends (declareTop (.node p ts)) s ctx none (s.withGlobals (globalCells p type))
      (ctx.declareGlobally (globalSymbol p type)) := by
  have hcells (type : Ty) : Ends (do
      let _ ← Gen.declareGlobal p.name type (globalName p.name)
      emitGlobal (globalName p.name)
      if type.rep = .fat then emitGlobal (lengthCell (globalName p.name))
      return none : Emit (Option Symbol)) s ctx none (s.withGlobals (globalCells p type))
        (ctx.declareGlobally (globalSymbol p type)) := by
    unfold globalCells Output.withGlobals
    split_ifs
    · refine ends_bind ends_declareGlobal (ends_bind ends_modify
        (ends_bind ends_modify ?_))
      rw [List.append_assoc]
      exact ends_pure
    · exact ends_bind ends_declareGlobal (ends_bind ends_modify
        ends_pure)
  simp only [declareTop, hkind]
  cases ts with
  | nil =>
    cases h
    exact hcells p.type
  | cons =>
    unfold Context.topType Context.declaredType at h
    split_ifs at h ⊢
    · exact ends_bind (ends_typeOf h) (hcells type)
    · cases h
      exact hcells p.type

theorem Introduces.runs (h : Introduces ts st userMain st') :
    Ends (declareAll ts) st.1 st.2 userMain st'.1 st'.2 := by
  -- Only a function can be the program's own entry.
  have hnone (later : Option Symbol) : (later.orElse fun _ => none) = later := by cases later <;> rfl
  induction h with
  | nil => exact ends_pure
  | @function p _ _ _ _ _ _ hkind _ ih =>
    refine ends_bind ?_ (ends_bind ih ends_pure)
    simp only [declareTop, hkind]
    exact ends_bind ends_declareFunction ends_pure
  | @classDecl _ _ _ _ _ later _ hkind _ ih =>
    rw [← hnone later]
    refine ends_bind ?_ (ends_bind ih ends_pure)
    simp only [declareTop, hkind]
    exact ends_bind ends_declareClass ends_pure
  | @varDecl _ _ _ _ _ _ later _ hkind htype _ ih =>
    rw [← hnone later]
    exact ends_bind (ends_declareTop hkind htype) (ends_bind ih ends_pure)
  | @other p _ _ _ later _ hkind _ ih =>
    rw [← hnone later]
    refine ends_bind ?_ (ends_bind ih ends_pure)
    cases h : p.kind with
    | funcDecl | classDecl | varDecl =>
      rw [h] at hkind
      cases hkind
    | _ =>
      simp only [declareTop, h]
      exact ends_pure

theorem ends_declared {name : Bytes} {sym : Symbol} (h : ctx.lookup? name = some sym) :
    Ends (declared name) s ctx sym s ctx := by
  refine ends_bind ends_context ?_
  rw [h]
  exact ends_pure

theorem ends_finish {fn : FunctionState} {scope : Scope} {outer : List Scope} (params : Nat)
    (hfn : ctx.function = some fn) (hscopes : ctx.scopes = scope :: outer) :
    Ends (finish params) s ctx (fn.nextSlot - params) s
      { ctx with scopes := outer, function := none } :=
  ends_bind (ends_slotsUsed hfn) (ends_bind (ends_endFunction hscopes) ends_pure)

theorem Defines.runs (h : Defines userMain p body st frame f st') (more : List Tree) :
    Ends (function userMain p (body :: more)) st.1 st.2 () st'.1 st'.2 := by
  cases h with
  | mk hsym _ hfn1 hstmt hbody hfn hscopes hf hbound =>
    subst hf
    have hruns := hbody.runs
    rw [Task.Runs, ← stmt_eq hstmt] at hruns
    exact ends_bind (ends_declared hsym) (ends_bind ends_beginFunction
      (ends_bind hbound (ends_bind (ends_hiddenLocal .integer hfn1) (ends_bind hruns
      (ends_bind (ends_finish _ hfn hscopes) ends_modify)))))

theorem Functions.runs (h : Functions userMain ts st fs st') :
    Ends (functions userMain ts) st.1 st.2 () st'.1 st'.2 := by
  induction h with
  | nil => exact ends_pure
  | @function _ _ more _ _ _ _ _ _ _ hkind h _ ih =>
    simp only [functions, if_pos hkind]
    exact ends_bind (h.runs more) ih
  | other hkind _ ih =>
    simp only [functions, if_neg hkind]
    exact ih

def topStatement (scratch : Nat) : Tree → Emit Code
  | .missing => throw .missingNode
  | .node p ts =>
    match p.kind with
    | .funcDecl | .classDecl => pure []
    | .varDecl => declared p.name >>= fun sym => initVar scratch sym ts
    | _ => stmt scratch (.ofTree (.node p ts))

theorem topStatements_cons (scratch : Nat) (s : Tree) (rest : List Tree) :
    topStatements scratch (s :: rest) = do
      let c ← topStatement scratch s
      return c ++ (← topStatements scratch rest) := by
  rw [topStatements.eq_def]
  cases s with
  | missing => rfl
  | node p => cases hkind : p.kind <;> simp only [topStatement, hkind, bind_assoc]

theorem Enters.runs (h : Enters scratch ts st c steps st') :
    Ends (topStatements scratch ts) st.1 st.2 c st'.1 st'.2 := by
  have hcons {t : Tree} {ts : List Tree} {st st1 st' : Stage} {c cs : Code}
      (h : Ends (topStatement scratch t) st.1 st.2 c st1.1 st1.2)
      (hrest : Ends (topStatements scratch ts) st1.1 st1.2 cs st'.1 st'.2) :
      Ends (topStatements scratch (t :: ts)) st.1 st.2 (c ++ cs) st'.1 st'.2 := by
    rw [topStatements_cons]
    exact ends_bind h (ends_bind hrest ends_pure)
  induction h with
  | nil => exact ends_pure
  | declared hkind _ ih =>
    refine hcons (c := []) ?_ ih
    rcases hkind with hkind | hkind <;> simp only [topStatement, hkind] <;> exact ends_pure
  | varInit hkind hsym h hv _ ih =>
    subst hv
    refine hcons ?_ ih
    simp only [topStatement, hkind]
    exact ends_bind (ends_declared hsym) (ends_bind (h.valueAs _) ends_pure)
  | varZero hkind hsym _ ih =>
    refine hcons ?_ ih
    simp only [topStatement, hkind]
    exact ends_bind (ends_declared hsym) ends_pure
  | @stmt p _ _ _ _ _ _ _ _ _ _ hkind hstmt h _ ih =>
    refine hcons ?_ ih
    have hruns := h.runs
    rw [Task.Runs, ← stmt_eq hstmt] at hruns
    cases h : p.kind with
    | funcDecl | classDecl | varDecl =>
      rw [h] at hkind
      cases hkind
    | _ =>
      simp only [topStatement, h]
      exact hruns

theorem Entry.runs (h : Entry statements userMain st frame f st') :
    Ends (entry statements userMain) st.1 st.2 () st'.1 st'.2 := by
  cases h with
  | mk hfn1 hbody hfn hscopes hf =>
    subst hf
    exact ends_bind ends_beginFunction (ends_bind (ends_hiddenLocal .integer hfn1)
      (ends_bind hbody.runs (ends_bind (ends_finish 0 hfn hscopes) ends_modify)))

/-- What the rules say is what the generator does. -/
theorem Generates.runs (h : Generates root fs st') :
    Ends (generate root) {} { target := target } () st'.1 st'.2 := by
  cases h with
  | mk hintroduced hfunctions hentry =>
    exact ends_bind hintroduced.runs (ends_bind hfunctions.runs hentry.runs)

theorem compile_of_ends (h : Ends (generate root) {} { target := target } () out ctx) :
    compile root = .ok ((assemble out ctx.data).text, ctx.limitations) := by
  unfold compile
  rw [h]
  rfl

theorem Generates.compile_eq (h : Generates root fs (out, ctx)) :
    compile root = .ok ((assemble out ctx.data).text, ctx.limitations) :=
  compile_of_ends h.runs

end Runs

section Stages

variable {st st' : Stage} {ts : List Tree} {userMain : Option Symbol} {frame : Frame} {f : Func}
  {fs : List (Frame × Func)} {ctx : Context} {root : Tree}

theorem Enters.advances (h : Enters scratch ts st c steps st') : st.2.Advances st'.2 := by
  induction h with
  | nil => exact .refl _
  | declared _ _ ih | varZero _ _ _ ih => exact ih
  | varInit _ _ h _ _ ih => exact (h.kept.trans .reporting).advances.trans ih
  | stmt _ _ h _ ih => exact h.advances.trans ih

theorem Enters.grows (h : Enters scratch ts st c steps st') : Grows st st' := by
  induction h with
  | nil => exact .refl _
  | declared _ _ ih | varZero _ _ _ ih => exact ih
  | varInit _ _ h _ _ ih => exact (h.grows.trans .reporting).trans ih
  | stmt _ _ h _ ih => exact h.grows.trans ih

theorem Defines.outside (h : Defines userMain p body st frame f st') (hscopes : st.2.scopes = []) :
    st'.2.scopes = [] ∧ st'.2.globals = st.2.globals := by
  cases h with
  | mk _ hbinds hfn1 _ hbody _ hinner =>
    exact ((hbinds.advances.trans (.taking _ hfn1 1)).trans hbody.advances).ended hscopes hinner

theorem Functions.outside (h : Functions userMain ts st fs st') (hscopes : st.2.scopes = []) :
    st'.2.scopes = [] ∧ st'.2.globals = st.2.globals := by
  induction h with
  | nil => exact ⟨hscopes, rfl⟩
  | function _ hdefines _ ih =>
    obtain ⟨hscopes1, hglobals1⟩ := hdefines.outside hscopes
    obtain ⟨hscopes2, hglobals2⟩ := ih hscopes1
    exact ⟨hscopes2, hglobals2.trans hglobals1⟩
  | other _ _ ih => exact ih hscopes

theorem scopes_declareHere (hscopes : ctx.scopes = []) (sym : Symbol) :
    (ctx.declareHere sym).scopes = [] := by
  rw [← ctx.declareGlobally_eq sym hscopes]
  exact hscopes

/-- Functions were added to the module, and what lowering them adds. -/
structure Adds (st : Stage) (fs : List Func) (st' : Stage) : Prop where
  globals : st'.1.globals = st.1.globals
  funcs : st'.1.funcs = st.1.funcs ++ fs
  helpers : st.2.helpers ⊆ st'.2.helpers
  equipped : Equipped st → Equipped st'

theorem Adds.nil (st : Stage) : Adds st [] st :=
  ⟨rfl, (List.append_nil _).symm, List.Subset.refl _, id⟩

theorem Adds.append {st1 : Stage} {fs fs' : List Func} (h : Adds st fs st1)
    (h' : Adds st1 fs' st') : Adds st (fs ++ fs') st' where
  globals := h'.globals.trans h.globals
  funcs := by rw [h'.funcs, h.funcs, List.append_assoc]
  helpers := List.Subset.trans h.helpers h'.helpers
  equipped hequipped := h'.equipped (h.equipped hequipped)

theorem Grows.withFunc {s : Output} (h : Grows st (s, ctx)) (f : Func) :
    Adds st [f] (s.withFunc f, ctx) :=
  ⟨h.globals, congrArg (· ++ [f]) h.funcs, h.helpers, h.equipped⟩

theorem Defines.adds (h : Defines userMain p body st frame f st') : Adds st [f] st' := by
  cases h with
  | mk _ hbinds _ _ hbody =>
    refine Grows.withFunc ?_ f
    exact .trans (hbody.grows.after hbinds.rest.2.1) (.of_helpers rfl)

/-- What functions do to a module. -/
theorem Functions.adds (h : Functions userMain ts st fs st') : Adds st (fs.map Prod.snd) st' := by
  induction h with
  | nil => exact .nil _
  | function _ hdefines _ ih => exact hdefines.adds.append ih
  | other _ _ ih => exact ih

/-- What the entry does to a module. -/
theorem Entry.adds (h : Entry statements userMain st frame f st') : Adds st [f] st' := by
  cases h with
  | mk _ hbody =>
    refine Grows.withFunc ?_ f
    exact .trans (hbody.grows.after rfl) (.of_helpers rfl)

theorem Introduces.before (h : Introduces ts st userMain st') :
    st'.1.funcs = st.1.funcs ∧ st'.1.helpers = st.1.helpers ∧ st'.2.helpers = st.2.helpers := by
  induction h with
  | nil => exact ⟨rfl, rfl, rfl⟩
  | function _ _ ih | varDecl _ _ _ ih | other _ _ ih => exact ih
  | classDecl _ _ ih => exact ⟨ih.1, ih.2.1, ih.2.2.trans (Context.helpers_declareHere _ _)⟩

theorem Generates.funcs (h : Generates root fs st) : st.1.funcs = fs.map Prod.snd := by
  cases h with
  | mk hintroduced hfunctions hentry =>
    rw [(hfunctions.adds.append hentry.adds).funcs, hintroduced.before.1, List.map_append]
    rfl

theorem Generates.equipped (h : Generates root fs st) : Equipped st := by
  cases h with
  | mk hintroduced hfunctions hentry =>
    obtain ⟨-, hhelpers, hclaimed⟩ := hintroduced.before
    refine (hfunctions.adds.append hentry.adds).equipped (Or.inl ⟨?_, hhelpers⟩)
    rw [hclaimed]
    exact List.not_mem_nil

end Stages

end Codegen.Wasm
