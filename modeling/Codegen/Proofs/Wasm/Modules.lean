import Codegen.Proofs.Document.Settled
import Codegen.Proofs.Wasm.Placement

/-!
# Valid Modules

The functions of a module are generated one after the other, and each of them may call the
others, so none can be checked before all of them are there. A function is valid in every
module that provides the names of the program and the helper that it asked for. The finished
module does.

The helper for truth values is the exception. Its conditional has no result type and leaves
two cells in each branch, so it is not valid in any module. All other functions of a tidy
program are valid.

## Theorems

* `document_validates`: The modules of documents.
-/

namespace Codegen.Wasm

open Context Term List

variable {ts : List Tree} {fs : List (Frame × Func)} {g : Setting} {p : Payload} {ctx : Context}
  {frame : Frame} {scratch : Nat}

/-- The module has the names of the program, and the helper if it was claimed. -/
structure Module.Provides (m : Module) (k : Context) (claimed : List Bytes) : Prop where
  hosts : ∀ g : Setting, g.globals = m.globals → g.signature? = m.signature? → g.Hosts k
  helper : printBoolName ∈ claimed → m.signature? printBoolName = some ⟨[.i64], []⟩

section Functions

variable {k env : Context} {m : Module} {f : Func} {st st' : Stage} {userMain : Option Symbol}
  {claimed claimed' : List Bytes}

theorem Module.Provides.earlier (h : m.Provides k claimed') (hsub : claimed ⊆ claimed') :
    m.Provides k claimed :=
  ⟨h.hosts, fun hclaimed => h.helper (hsub hclaimed)⟩

theorem Module.Provides.congr {k' : Context} (h : m.Provides k claimed)
    (hscopes : k'.scopes = k.scopes) (hglobals : k'.globals = k.globals) :
    m.Provides k' claimed :=
  ⟨fun g hg hs => (h.hosts g hg hs).congr hscopes hglobals, h.helper⟩

theorem signature?_import (m : Module) :
    m.signature? printIntegerName = some ⟨[.i64], []⟩ ∧
      m.signature? printTextName = some ⟨[.i32, .i32], []⟩ := by
  unfold Module.signature?
  exact ⟨rfl, rfl⟩

theorem Module.Provides.serves (h : m.Provides k claimed)
    (hscratch : scratch < (f.setting m).locals) : (f.setting m).Serves scratch claimed :=
  ⟨hscratch, (signature?_import m).1, (signature?_import m).2, h.helper⟩

theorem hosts_of_binds {params : List Param} {ctx' : Context} {syms : List Symbol}
    {fn' : FunctionState} (h : Binds params ctx syms ctx') (hhosts : g.Hosts ctx)
    (hfn' : ctx'.function = some fn') (hroom : fn'.nextSlot ≤ g.locals) : g.Hosts ctx' := by
  induction h with
  | nil => exact hhosts
  | @cons param _ ctx fn issues _ _ _ h ih =>
    have hstart : ((ctx.declaring fn param.name param.type).reporting issues).function = _ :=
      function_declaring ctx fn param.name param.type
    rcases h.advances.function hstart with ⟨n, hn, hfn1⟩
    cases hfn'.symm.trans hfn1
    have hdeclared : g.Hosts (ctx.declaring fn param.name param.type) :=
      hhosts.declaring (Nat.le_trans hn hroom)
    exact ih hdeclared hfn'

/-- The functions of a program are valid. -/
theorem Defines.valid {body : Tree} (h : Defines userMain p body st frame f st')
    (hm : m.Provides st.2 st'.2.helpers) (hk : st.2.Agrees Eq env) (hf : Term.Formed [.ofTree body])
    (htidy : tidyStmt (env.withParams p.params) (.ofTree body) = true) : f.valid m = true := by
  cases h with
  | @mk _ ctx _ _ _ _ _ _ _ _ ctx2 fn _ _ _ _ hbinds hfn1 hstmt hbody hfn _ hfunc =>
      have hlocals : fn.nextSlot ≤ (f.setting m).locals := by
        change fn.nextSlot ≤ f.params + f.locals
        rw [hfunc]
        dsimp only
        omega
      -- From the beginning of the function to its end: parameters, the scratch cell and the body.
      rcases hbinds.advances.function rfl with ⟨n1, -, hbound⟩
      cases hfn1.symm.trans hbound
      rcases hbody.advances.function rfl with ⟨n, hn, hended⟩
      cases hfn.symm.trans hended
      have hn : n1 + 1 ≤ n := hn
      have hlocals : n ≤ (f.setting m).locals := hlocals
      have hcarries : (f.setting m).Carries [] ctx2 := by
        refine ⟨_, hfn, hlocals, ?_, fun targets htargets => ?_⟩
        · rw [hfunc]
          rfl
        · cases htargets
      have hhosts : (f.setting m).Hosts ctx := hm.hosts _ rfl rfl
      have hparams := hosts_of_binds hbinds hhosts hfn1 (by dsimp only; omega)
      have hin := (inside_beginning ctx p.name p.result).advances
        (hbinds.advances.trans (.taking _ hfn1 1))
      have hclosed := hbody.closes ⟨hparams, hbinds.agrees hk⟩ hin
        (hm.serves (by dsimp only; omega)) hcarries (Term.Formed.stmt hstmt hf)
        (tidyStatement_of_stmt? hstmt htidy)
      exact Func.valid_of_closes hclosed.1 (by rw [hfunc])

theorem headers_cons (p : Payload) (ts us : List Tree) :
    headers (ofTrees (.node p ts :: us)) =
      (if p.kind = .funcDecl then [p] else []) ++ headers (ofTrees us) := by
  rw [ofTrees]
  by_cases hkind : p.kind = .funcDecl
  · rw [ofTree_declaration (by rw [hkind]; rfl) ts]
    simp [headers, payload?, hkind]
  · have hother := kind_ofTree p ts
    rw [if_neg hkind]
    cases hterm : ofTree (.node p ts) with
    | missing => rfl
    | call q _ _ | node q _ =>
      rw [hterm] at hother
      have hq : q.kind ≠ .funcDecl := fun h => hkind (hother.symm.trans h)
      simp [headers, payload?, hq]

theorem mem_headers {ss : List Tree} (h : Tree.node p ts ∈ ss) (hkind : p.kind = .funcDecl) :
    p ∈ headers (ofTrees ss) := by
  have hterm := mem_ofTrees h
  rw [ofTree_declaration (by rw [hkind]; rfl) ts] at hterm
  exact mem_filter.mpr ⟨mem_filterMap.mpr ⟨_, hterm, rfl⟩, beq_iff_eq.mpr hkind⟩

theorem tidyNames_header {ss : List Term} (h : tidyNames ss = true) (hp : p ∈ headers ss) :
    (∀ q ∈ headers ss, compatible p q = true) ∧
      (isMain p = true → ((ofProgram ss).funcNamed? "main").isSome = true) := by
  have hnames := all_eq_true.mp h p hp
  simp only [Bool.and_eq_true, all_eq_true, Bool.or_eq_true, Bool.not_eq_true'] at hnames
  refine ⟨hnames.1, fun hmain => ?_⟩
  rcases hnames.2 with hnot | hfunc
  · exact absurd (hnot.symm.trans hmain) nofun
  · exact hfunc

theorem Functions.compiles (h : Functions userMain ts st fs st') (hscopes : st.2.scopes = []) :
    Forall₂ (fun p f => Func.Compiles st.2 p f) (headers (ofTrees ts))
      (fs.map Prod.snd) := by
  induction h with
  | nil => exact .nil
  | function hkind hdefines _ ih =>
    obtain ⟨hscopes1, hglobals1⟩ := hdefines.outside hscopes
    rw [headers_cons, if_pos hkind]
    refine .cons ?_ ((ih hscopes1).imp fun q f hq => ?_)
    · cases hdefines with
      | mk hsym _ _ _ _ _ _ hf => exact ⟨_, hsym, by rw [hf], by rw [hf]; rfl⟩
    · rcases hq with ⟨sym, hsym, hnamed⟩
      refine ⟨sym, ?_, hnamed⟩
      unfold lookup? at hsym ⊢
      rw [hscopes1, hglobals1] at hsym
      rwa [hscopes]
  | other hkind _ ih =>
    rw [headers_cons, if_neg hkind]
    exact ih hscopes

theorem Functions.valid (h : Functions userMain ts st fs st') (hscopes : st.2.scopes = [])
    (hm : m.Provides st.2 st'.2.helpers) (hk : st.2.Agrees Eq env) (hf : Tree.Formed ts)
    (htidy : ∀ t ∈ ofTrees ts, tidyFunction env t = true) :
    ∀ f ∈ fs.map Prod.snd, f.valid m = true := by
  induction h with
  | nil => exact forall_mem_nil _
  | @function p body _ _ _ _ _ _ _ _ hkind hdefines hrest ih =>
    obtain ⟨hself, hothers⟩ := forall_mem_cons.mp htidy
    cases hf with
    | cons _ _ _ _ children siblings =>
      obtain ⟨hscopes1, hglobals1⟩ := hdefines.outside hscopes
      rw [← hscopes] at hscopes1
      rw [ofTree_declaration (by rw [hkind]; rfl), ofTrees] at hself
      have hbody : tidyStmt (env.withParams p.params) (.ofTree body) = true := by
        simpa [tidyFunction, hkind] using hself
      refine forall_mem_cons.mpr ⟨?_, ?_⟩
      · exact hdefines.valid (hm.earlier hrest.adds.helpers) hk children.terms.1.uncons.1 hbody
      · exact ih (hscopes1.trans hscopes) (hm.congr hscopes1 hglobals1)
          (hk.congr hscopes1 hglobals1) siblings hothers
  | other _ _ ih =>
    cases hf with
    | cons _ _ _ _ _ siblings =>
      exact ih hscopes hm hk siblings (forall_mem_cons.mp htidy).2

end Functions

section Entry

variable {env : Context} {m : Module} {userMain : Option Symbol} {labels : List Label}

theorem tidyTop_varDecl {parts : List Term} (hkind : p.kind = .varDecl)
    (h : tidyTop env (.node p parts) = true) : (env.varNamed? p.name).isSome = true ∧
      ∀ init ∈ parts.head?, tidy env init = true := by
  simp only [tidyTop, kind, payload?, Option.map_some, Option.getD_some, hkind,
    Bool.and_eq_true] at h
  refine ⟨h.1, fun init hinit => ?_⟩
  rcases parts with _ | ⟨first, rest⟩
  · cases hinit
  · cases hinit
    exact h.2

theorem Setting.Suits.variable {name : Bytes} {sym : Symbol} (h : g.Suits env ctx)
    (hvar : (env.varNamed? name).isSome = true) (hsym : ctx.lookup? name = some sym) :
    sym.kind = .variable ∧ g.Holds sym := by
  rcases h.agrees.varNamed? name with ⟨-, hnone⟩ | ⟨found, _, hfound, -, -⟩
  · rw [hnone] at hvar
    cases hvar
  · obtain ⟨hlookup, -⟩ := Option.filter_eq_some_iff.mp hfound
    cases hsym.symm.trans hlookup
    exact h.hosts.varNamed? hfound

theorem tidyTop_other {t : Term} (h : t.kind.isDeclaration = false) :
    tidyTop env t = tidyStmt env t := by
  unfold tidyTop
  cases hkind : t.kind with
  | funcDecl | classDecl | varDecl =>
    rw [hkind] at h
    cases h
  | _ => rfl

/-- The statements of the top level. The name of a variable means a variable, but it may be one
    that a statement before it declared. -/
theorem Enters.closes {st st' : Stage} {c : Code} {steps : List Step}
    (h : Enters scratch ts st c steps st') (hnames : g.Suits env st.2) (hin : st.2.Inside false)
    (hg : g.Serves scratch st'.2.helpers) (hcarries : g.Carries labels st'.2) (hf : Tree.Formed ts)
    (htidy : tidyTops env (ofTrees ts) = true) : Closes g labels c := by
  induction h generalizing env with
  | nil => exact (types_nil []).closes
  | @declared p _ _ _ _ _ _ hkind _ ih =>
    have hdecl : p.kind.isDeclaration = true := by rcases hkind with h | h <;> rw [h] <;> rfl
    rw [ofTrees, tidyTops, Bool.and_eq_true, kind_ofTree, if_pos hdecl] at htidy
    cases hf with
    | cons _ _ _ _ _ siblings => exact ih hnames hin hg hcarries siblings htidy.2
  | @varInit p _ _ _ _ _ _ _ _ _ _ ctx1 v _ _ _ hkind hsym h hv hrest ih =>
    have hdecl : p.kind.isDeclaration = true := by rw [hkind]; rfl
    rw [ofTrees, tidyTops, Bool.and_eq_true, kind_ofTree, if_pos hdecl,
      ofTree_declaration hdecl] at htidy
    obtain ⟨hvar, hinit⟩ := tidyTop_varDecl hkind htidy.1
    cases hf with
    | cons _ _ _ _ children siblings =>
      obtain ⟨hvar, hholds⟩ := hnames.variable hvar hsym
      have hkept : Context.Kept _ (ctx1.reporting v.2) := h.kept.trans .reporting
      subst hv
      refine Closes.append (Types.closes ((types_coercion ?_ _ _).append
        (types_store hvar hholds)))
        (ih (hnames.kept hkept) (hin.advances hkept.advances) hg hcarries siblings htidy.2)
      exact h.types_tidy hnames (hg.earlier hrest.grows.helpers) children.terms.1.uncons.1
        (hinit _ rfl)
  | @varZero p _ _ _ _ _ _ _ hkind hsym _ ih =>
    have hdecl : p.kind.isDeclaration = true := by rw [hkind]; rfl
    rw [ofTrees, tidyTops, Bool.and_eq_true, kind_ofTree, if_pos hdecl,
      ofTree_declaration hdecl] at htidy
    obtain ⟨hvar, -⟩ := tidyTop_varDecl hkind htidy.1
    cases hf with
    | cons _ _ _ _ _ siblings =>
      obtain ⟨hvar, hholds⟩ := hnames.variable hvar hsym
      exact ((types_zero _).append (types_store hvar hholds)).closes.append
        (ih hnames hin hg hcarries siblings htidy.2)
  | stmt hkind hstmt h hrest ih =>
    rw [ofTrees, tidyTops, Bool.and_eq_true, kind_ofTree, hkind] at htidy
    have hterm := hf.terms.1.uncons.1
    have hself := htidy.1
    rw [tidyTop_other (by rw [kind_ofTree]; exact hkind)] at hself
    have hin1 := hin.advances h.advances
    have hfirst := h.closes hnames hin (hg.earlier hrest.grows.helpers)
      (hcarries.earlier hrest.advances hin1) (Term.Formed.stmt hstmt hterm)
      (tidyStatement_of_stmt? hstmt hself)
    cases hf with
    | cons _ _ _ _ _ siblings =>
      exact hfirst.1.append (ih ⟨hfirst.2, h.agrees_after hstmt hin hnames.agrees hterm⟩ hin1 hg
        hcarries siblings htidy.2)

theorem types_callMain (h : ∀ sym, userMain = some sym →
      g.signature? sym.storage = some ⟨[], resultCells sym.result.hasResult⟩) :
    Types g labels (callMain userMain) [] [] := by
  cases userMain with
  | none => exact types_nil []
  | some sym =>
    have hcall : Types g labels [.call sym.storage] [] _ := types_call (h sym rfl)
    rw [callMain]
    cases hresult : sym.result.hasResult with rw [hresult] at hcall
    | false => exact hcall.append (types_nil [])
    | true => exact hcall.append fun _ _ => rfl

/-- The entry is valid where its names and its helper are, if the program's own entry is what it
    is called as. -/
theorem Entry.valid {st st' : Stage} {f : Func} (h : Entry ts userMain st frame f st')
    (hm : m.Provides st.2 st'.2.helpers) (hk : st.2.Agrees Eq env) (hf : Tree.Formed ts)
    (htidy : tidyTops env (ofTrees ts) = true)
    (hmain : ∀ sym, userMain = some sym →
      m.signature? sym.storage = some ⟨[], resultCells sym.result.hasResult⟩) :
    f.valid m = true := by
  cases h with
  | @mk _ ctx _ _ _ _ ctx2 fn _ _ _ hfn1 hbody hfn _ hfunc =>
    have hlocals : (f.setting m).locals = fn.nextSlot := by
      rw [hfunc]
      exact Nat.zero_add _
    cases hfn1
    rcases hbody.advances.function rfl with ⟨n, hn, hended⟩
    cases hfn.symm.trans hended
    have hcarries : (f.setting m).Carries [] ctx2 := by
      refine ⟨_, hfn, Nat.le_of_eq hlocals.symm, ?_, fun targets htargets => ?_⟩
      · rw [hfunc]
        rfl
      · cases htargets
    have hhosts : (f.setting m).Hosts ctx := hm.hosts _ rfl rfl
    have hin := (inside_beginning ctx "main" .void).advances (.taking _ rfl 1)
    have hclosed := hbody.closes ⟨hhosts, hk⟩ hin (hm.serves (by rw [hlocals]; exact hn))
      hcarries hf htidy
    refine Func.valid_of_closes (hclosed.append (types_callMain hmain).closes) ?_
    rw [hfunc]
    exact (append_nil _).symm

end Entry

/-- The helper for truth values is not valid: both branches of its conditional leave two cells,
    and it has no result type. -/
theorem valid_printBool (m : Module) (yes no : Literal) : (printBool yes no).valid m = false := rfl

/-- All functions are valid, and no helper is. -/
def Module.Checks (m : Module) : Prop :=
  (∀ f ∈ m.funcs, f.valid m = true) ∧ ∀ f ∈ m.helpers, f.valid m = false

/-- Modules of tidy programs. -/
theorem Generates.checks {root : Tree} {out : Output} (h : Generates root fs (out, ctx))
    (hf : Tree.Formed [root]) (htidy : tidyProgram (ofTrees root.statements) = true)
    {m : Module} (hglobals : m.globals = out.globals) (hfuncs : m.funcs = out.funcs)
    (hhelpers : m.helpers = out.helpers) : m.Checks := by
  rw [tidyProgram, Bool.and_eq_true, Bool.and_eq_true, all_eq_true] at htidy
  obtain ⟨⟨hfunctions, htops⟩, htidyNames⟩ := htidy
  have hequipped := h.equipped
  have hemitted := h.funcs
  cases h with
  | @mk _ st1 fs _ _ main _ hintroduced hfs hentry =>
    have hempty : Places (headers (ofTrees root.statements)) { target := target } [] := by
      intro _ _ hfound
      cases hfound
    have hnone : Agrees Eq { target := target } { target := [] } := fun _ => Or.inl ⟨rfl, rfl⟩
    obtain ⟨hplaces, hmain⟩ := hintroduced.places rfl (fun _ _ => mem_headers) hempty
    obtain ⟨hscopes, hk⟩ := hintroduced.agrees hf.statements rfl hnone
    obtain ⟨hscopes2, hglobals2⟩ := hfs.outside hscopes
    rw [← hscopes] at hscopes2
    -- All that was emitted is known now, and so what each function name means.
    have hall : m.funcs = fs.map Prod.snd ++ [main] := by
      rw [hfuncs, hemitted, map_append]
      rfl
    have hlisting : Listing st1.2 (headers (ofTrees root.statements)) m := by
      refine ⟨?_, ⟨_, main, hall, hfs.compiles hscopes, ?_⟩, fun f hmem => ?_,
        fun p hp => (tidyNames_header htidyNames hp).1⟩
      · rw [hglobals, (hfs.adds.append hentry.adds).globals]
        exact hplaces
      · cases hentry with
        | mk _ _ _ _ hfunc => rw [hfunc]
      · rw [hhelpers] at hmem
        rcases hequipped with ⟨-, hnone⟩ | ⟨-, yes, no, hsome⟩
        · rw [hnone] at hmem
          cases hmem
        · rw [hsome] at hmem
          exact ⟨yes, no, mem_singleton.mp hmem⟩
    have hprovides : m.Provides st1.2 ctx.helpers := by
      refine ⟨fun g hg hs => hlisting.hosts hg hs, fun hclaimed => hlisting.signature?_printBool ?_⟩
      rw [hhelpers]
      rcases hequipped with ⟨hunclaimed, -⟩ | ⟨-, yes, no, hsome⟩
      · exact absurd hclaimed hunclaimed
      · exact ⟨_, by rw [hsome]; exact mem_singleton_self _, rfl⟩
    refine ⟨fun f hmem => ?_, fun f hmem => ?_⟩
    · rw [hall, mem_append, mem_singleton] at hmem
      rcases hmem with hmem | rfl
      · exact hfs.valid hscopes (hprovides.earlier hentry.adds.helpers) hk hf.statements
          hfunctions f hmem
      · refine hentry.valid (hprovides.congr hscopes2 hglobals2) (hk.congr hscopes2 hglobals2)
          hf.statements htops fun sym hsym => ?_
        refine hlisting.signature?_main (hmain sym hsym) ?_
        rcases hmain sym hsym with ⟨p, hp, hisMain, -⟩
        have hfunc := (tidyNames_header htidyNames hp).2 hisMain
        rcases hk.funcNamed? "main" with ⟨-, hnone⟩ | ⟨_, _, hsome, -, -⟩
        · rw [show (ofProgram (ofTrees root.statements)).funcNamed? "main" = none from
            hnone] at hfunc
          cases hfunc
        · rw [hsome]
          rfl
    · rcases hlisting.helpers f hmem with ⟨yes, no, rfl⟩
      exact valid_printBool m yes no

/-- The module of a program. -/
def moduleOf (root : Tree) : Except Fault (Module × List Limitation) := do
  let (((), out), ctx) ← ((generate root).run {}).run { target := target }
  return (assemble out ctx.data, ctx.limitations)

theorem compile_eq (root : Tree) :
    compile root = (moduleOf root).map fun r => (r.1.text, r.2) := by
  unfold compile moduleOf
  cases ((generate root).run {}).run { target := target } <;> rfl

/-- A document whose program is tidy is compiled to a module all of whose functions are valid,
    each with the results that it declares. Its helpers, if it has any, are not. -/
theorem document_validates {source : Bytes} {root : Tree} (htree : Document.tree source = .ok root)
    (htidy : tidyProgram (ofTrees root.statements) = true) :
    ∃ m limitations, moduleOf root = .ok (m, limitations) ∧
      compile root = .ok (m.text, limitations) ∧ m.Checks := by
  have hf := Document.formed_tree htree
  rcases run_formed hf with ⟨fs, out, ctx, hfs, hends⟩
  have hmodule : moduleOf root = .ok (assemble out ctx.data, ctx.limitations) := by
    unfold moduleOf
    rw [hends]
    rfl
  refine ⟨assemble out ctx.data, ctx.limitations, hmodule, ?_, hfs.checks hf htidy rfl rfl rfl⟩
  rw [compile_eq, hmodule]
  rfl

namespace Sample

/-- A program with two loops, and a function that is called with a text. -/
def measuring : Bytes :=
  "(program (func \"f\" (params (param \"s\" text)) integer (for \"i\" 1 2 " ++
    "(return (call (ident \"length\") (ident \"s\"))))) " ++
    "(while 1 (call (ident \"f\") (string \"a\"))))"

def truthValue : Bytes := "(program (call (ident \"print\") (boolean true)))"

def textCondition : Bytes := "(program (if (string \"a\") (block)))"

def textIndex : Bytes :=
  "(program (var \"x\" array (array 1)) (index (ident \"x\") (string \"a\")))"

/-- The document is read, and compiled without limitations to a module with a function that is
    not valid. -/
def Unbalanced (source : Bytes) : Prop :=
  ∃ root m, Document.tree source = .ok root ∧ moduleOf root = .ok (m, []) ∧
    ∃ f ∈ m.funcs ++ m.helpers, f.valid m = false

/-- Whether code is `Unbalanced`, computed. -/
def unbalanced (source : Bytes) : Bool :=
  (Document.tree source).toOption.any fun root => (moduleOf root).toOption.any fun r =>
    r.2.isEmpty && (r.1.funcs ++ r.1.helpers).any fun f => !f.valid r.1

theorem unbalanced_sound {source : Bytes} (h : unbalanced source = true) : Unbalanced source := by
  rcases ok_of_any h with ⟨root, htree, hroot⟩
  rcases ok_of_any hroot with ⟨⟨m, limitations⟩, hmodule, hbad⟩
  simp only [Bool.and_eq_true, List.isEmpty_iff, any_eq_true, Bool.not_eq_true'] at hbad
  obtain ⟨rfl, hbad⟩ := hbad
  exact ⟨root, m, htree, hmodule, hbad⟩

end Sample

theorem document_validates_measuring :
    ∃ root m limitations, Document.tree Sample.measuring = .ok root ∧
      moduleOf root = .ok (m, limitations) ∧ compile root = .ok (m.text, limitations) ∧
        m.Checks := by
  have hread : ∃ root, Document.tree Sample.measuring = .ok root ∧
      tidyProgram (ofTrees root.statements) = true := ok_of_any (by decide +kernel)
  rcases hread with ⟨root, htree, htidy⟩
  rcases document_validates htree htidy with ⟨m, limitations, hresult⟩
  exact ⟨root, m, limitations, htree, hresult⟩

/-- Programs that are not tidy, or that print a truth value, may have functions that are not
    valid, and no limitation says so. -/
theorem document_unbalanced :
    Sample.Unbalanced Sample.truthValue ∧ Sample.Unbalanced Sample.textCondition ∧
      Sample.Unbalanced Sample.textIndex := by
  have hall : Sample.unbalanced Sample.truthValue = true ∧
      Sample.unbalanced Sample.textCondition = true ∧
        Sample.unbalanced Sample.textIndex = true := by decide +kernel
  exact ⟨Sample.unbalanced_sound hall.1, Sample.unbalanced_sound hall.2.1,
    Sample.unbalanced_sound hall.2.2⟩

end Codegen.Wasm
