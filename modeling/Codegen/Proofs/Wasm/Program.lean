import Codegen.Proofs.Wasm.Generation
import Codegen.Proofs.Wasm.Survey
import Mathlib.Data.List.Induction

/-!
# WebAssembly Modules Are Always Generated

Every formed statement, and with it every formed program, comes about by the rules, and the
limitations are the issues of its survey. There is no frame whose size is fixed in advance
here: locals are counted when a function ends, so no bound on slots has to be met.
-/

namespace Codegen.Wasm

open Context Term List

variable {scratch : Nat} {env : Context} {looping : Bool} {p : Payload} {parts ts : List Term}

theorem exists_expr (scratch : Nat) {t : Term} (hf : Term.Formed [t]) (s : Output)
    (ctx : Context) (hk : ctx.Agrees Eq env) : ∃ c cells reads s' ctx',
      Produces scratch (.expr t) (s, ctx) ⟨c, cells, reads⟩ (s', ctx') ∧
        (settle (c, cells)).2 = (rules.survey env t).rep ∧
        ctx.Spends ctx' 0 (rules.survey env t).issues ∧ ctx'.Agrees Eq env := by
  rcases (lowers_of_formed scratch env hf t (by simp)).1 s ctx hk with
    ⟨c, cells, reads, s', ctx', h, hrep, hspends⟩
  exact ⟨c, cells, reads, s', ctx', h, hrep, hspends, hk.kept h.kept⟩

/-- Inside a function, a statement is lowered with its issues, and leaves the names after it. -/
def Performs (scratch : Nat) (t : Term) : Prop :=
  ∀ env looping s ctx, ctx.Inside looping → ctx.Agrees Eq env → ∃ inner c steps s' ctx' slots,
    t.stmt? = some inner ∧ Executes scratch (.stmt inner) (s, ctx) c steps (s', ctx') ∧
      ctx.Spends ctx' slots (rules.stmt looping env t) ∧ ctx'.Agrees Eq (env.after t)

theorem performs_plain (hkind : p.kind.leavesNames = false)
    (h : ∀ env looping s ctx, ctx.Inside looping → ctx.Agrees Eq env → ∃ inner c steps s' ctx',
      (node p parts).stmt? = some inner ∧
        Executes scratch (.stmt inner) (s, ctx) c steps (s', ctx') ∧
        ctx.Spends ctx' 0 (rules.stmt looping env (.node p parts)) ∧ ctx'.Agrees Eq env) :
    Performs scratch (.node p parts) := by
  intro env looping s ctx hin hk
  rcases h env looping s ctx hin hk with ⟨inner, c, steps, s', ctx', hinner, h, hspends, hk'⟩
  rw [env.after_eq p parts hkind]
  exact ⟨inner, c, steps, s', ctx', 0, hinner, h, hspends, hk'⟩

theorem exists_stmts (h : ∀ t ∈ ts, Performs scratch t) (env : Context) (s : Output) (ctx : Context)
    (hin : ctx.Inside looping) (hk : ctx.Agrees Eq env) :
    ∃ c steps s' ctx' slots, Executes scratch (.stmts ts) (s, ctx) c steps (s', ctx') ∧
      ctx.Spends ctx' slots (rules.stmts looping env ts) := by
  induction ts generalizing env s ctx with
  | nil => exact ⟨_, _, _, _, _, .nil, .refl _⟩
  | cons t _ ih =>
    rcases h t (by simp) env looping s ctx hin hk with
      ⟨inner, _, _, s1, ctx1, _, hinner, hfirst, hspends, hk1⟩
    rcases ih (fun t ht => h t (by simp [ht])) _ s1 ctx1 (hin.advances hfirst.advances) hk1 with
      ⟨_, _, _, _, _, hrest, hspends'⟩
    exact ⟨_, _, _, _, _, .cons hinner hfirst hrest, hspends.trans hspends'⟩

theorem exists_chain (hf : Term.Formed ts) (h : ∀ t ∈ ts, Performs scratch t) (env : Context)
    (s : Output) (ctx : Context) (hin : ctx.Inside looping) (hk : ctx.Agrees Eq env) :
    ∃ c steps s' ctx' slots, Executes scratch (.chain ts) (s, ctx) c steps (s', ctx') ∧
      ctx.Spends ctx' slots (rules.chain looping env ts) ∧ ctx'.Agrees Eq (env.afterChain ts) := by
  induction ts using twoStepInduction generalizing env s ctx with
  | nil => exact ⟨_, _, _, _, _, .chainNil, .refl _, hk⟩
  | singleton body =>
    rcases h body (by simp) env looping s ctx hin hk with
      ⟨inner, _, _, _, _, _, hinner, hbody, hspends, hk'⟩
    exact ⟨_, _, _, _, _, .chainLast hinner hbody, hspends, hk'⟩
  | cons_cons test body rest ih _ =>
    rcases exists_expr scratch hf.uncons.1 s ctx hk with
      ⟨_, _, _, s1, ctx1, htest, -, hspends, hk1⟩
    have hin1 := hin.advances htest.kept.advances
    rcases h body (by simp) env looping s1 ctx1 hin1 hk1 with
      ⟨inner, _, _, s2, ctx2, _, hinner, hbody, hspends', hk2⟩
    have hpair := hspends.trans hspends'
    cases rest with
    | nil =>
      rw [Rules.chain, Rules.chain, append_nil]
      exact ⟨_, _, _, _, _, .chainEnd htest hinner hbody, hpair, hk2⟩
    | cons =>
      rcases ih hf.uncons.2.uncons.2 (fun t ht => h t (by simp [mem_cons.mp ht])) _ s2 ctx2
        (hin1.advances hbody.advances) hk2 with ⟨_, _, _, _, _, hrest, hspends'', hk'⟩
      exact ⟨_, _, _, _, _, .chainLink htest hinner hbody hrest, hpair.trans hspends'', hk'⟩

theorem performs_block (hkind : p.kind = .block) (h : ∀ t ∈ parts, Performs scratch t) :
    Performs scratch (.node p parts) := by
  intro env looping s ctx hin hk
  rcases exists_stmts h env s ctx.entering ⟨⟨[], ctx.scopes, rfl⟩, hin.function⟩ hk with
    ⟨_, _, _, ctx1, _, hbody, hspends⟩
  have hentered : ctx.entering.scopes = [] :: ctx.scopes := rfl
  rcases hbody.advances.scopes hentered with ⟨scope, hscopes⟩
  rw [env.after_eq p parts (by rw [hkind]; rfl)]
  simp only [stmt?, hkind, Rules.stmt]
  exact ⟨_, _, _, _, _, _, rfl, .block hbody hscopes, ⟨hspends.1, hspends.2, hspends.3⟩,
    hk.congr rfl (hbody.advances.leaving hscopes).2⟩

theorem performs_varDecl (hkind : p.kind = .varDecl) (hf : Term.Formed parts) :
    Performs scratch (.node p parts) := by
  intro env looping s ctx hin hk
  rcases hin.function with ⟨fn, hfn, -⟩
  rw [Context.after.eq_def]
  simp only [stmt?, hkind]
  cases parts with
  | nil =>
    rw [rules.stmt_varDecl_nil looping env hkind]
    exact ⟨_, _, _, _, _, _, rfl, .declareZero hfn rfl, .declaring hfn p.name p.type,
      hk.declaring fn p.name p.type⟩
  | cons init rest =>
    rw [rules.stmt_varDecl_cons looping env hkind]
    rcases exists_expr scratch hf.uncons.1 s ctx hk with
      ⟨c, cells, _, _, ctx1, hinit, hrep, hspends, hk1⟩
    have hfn1 := hinit.kept.function.trans hfn
    have hfit := spends_coercion (env.varType p (init :: rest)) hrep hspends
    have hfn2 : (ctx1.reporting (coercion init (env.varType p (init :: rest))
        (settle (c, cells))).2).function = some fn := hfn1
    have hall := hfit.trans (.declaring hfn2 p.name (env.varType p (init :: rest)))
    rw [append_nil] at hall
    exact ⟨_, _, _, _, _, _, rfl, .declare (hk.declaredType hf.uncons.1 p rest) hinit rfl hfn1 rfl,
      hall, (hk1.reporting _).declaring fn p.name _⟩

theorem performs_whileLoop (hkind : p.kind = .whileLoop) {test body : Term}
    (hf : Term.Formed [test, body]) (h : Performs scratch body) :
    Performs scratch (.node p [test, body]) := by
  intro env looping s ctx hin hk
  rcases hin.scope with ⟨scope, outer, hscopes⟩
  rcases hin.function with ⟨fn, hfn, -⟩
  rcases exists_expr scratch hf.uncons.1 s (ctx.labeling 2) hk with
    ⟨_, _, _, s1, ctx1, htest, -, hspends, hk1⟩
  have hfn1 : ctx1.function = some fn := htest.kept.function.trans hfn
  rcases h env true s1 (ctx1.looping fn (some ⟨⟨ctx.labels⟩, ⟨ctx.labels + 1⟩⟩))
    ⟨⟨scope, outer, htest.kept.scopes.trans hscopes⟩, _, rfl, rfl⟩ hk1 with
    ⟨inner, _, _, s2, ctx2, _, hinner, hbody, hspends', hk2⟩
  rcases hbody.advances.function rfl with ⟨n, -, hfn2⟩
  rw [rules.stmt_whileLoop looping env hkind, Context.after.eq_def]
  simp only [stmt?, hkind]
  have hall := hspends.trans (Spends.looped ctx1 hfn1 hspends' hfn2)
  exact ⟨_, _, _, _, _, _, rfl, .whileLoop rfl rfl htest hfn1 hinner hbody hfn2,
    ⟨hall.1, hall.2, hall.3⟩, hk2⟩

theorem performs_forRange (hkind : p.kind = .forRange) {first last body : Term}
    (hf : Term.Formed [first, last, body]) (h : Performs scratch body) :
    Performs scratch (.node p [first, last, body]) := by
  intro env looping s ctx hin hk
  rcases hin.function with ⟨fn, hfn, -⟩
  rcases exists_expr scratch hf.uncons.1 s (ctx.entering.taking fn 2) hk with
    ⟨_, _, _, s1, ctx1, hfirst, hrep, hspends, hk1⟩
  rcases exists_expr scratch hf.uncons.2.uncons.1 s1 _ (hk1.reporting _) with
    ⟨_, _, _, s2, ctx2, hlast, hrep', hspends', hk2⟩
  have hbounds := (spends_coercion .integer hrep hspends).trans
    (spends_coercion .integer hrep' hspends')
  -- Both bounds were made to fit in this context.
  generalize hctx2 : ctx2.reporting _ = ctx2' at hbounds
  have hkept : (ctx.entering.taking fn 2).Kept ctx2' :=
    hctx2 ▸ ((hfirst.kept.trans .reporting).trans hlast.kept).trans .reporting
  have hk2' : ctx2'.Agrees Eq env := hctx2 ▸ hk2.reporting _
  let sym : Symbol := .localVar p.name .integer fn.nextSlot
  have hfn3 : (ctx2'.declareHere sym).function = some { fn with nextSlot := fn.nextSlot + 2 } :=
    (function_declareHere ctx2' sym).trans hkept.function
  have hk3 : (ctx2'.declareHere sym).Agrees Eq (env.counting p.name) :=
    hk2'.declareHere rfl ⟨rfl, rfl, rfl, rfl⟩
  have hscopes3 : ∃ scope, (ctx2'.declareHere sym).scopes = scope :: ctx.scopes :=
    (Advances.counting hfn hkept rfl rfl).scopes rfl
  rcases hscopes3 with ⟨scope, hscopes3⟩
  rcases h _ true s2 (((ctx2'.declareHere sym).labeling 3).looping _ (some
      ⟨⟨(ctx2'.declareHere sym).labels⟩, ⟨(ctx2'.declareHere sym).labels + 2⟩⟩))
    ⟨⟨scope, ctx.scopes, hscopes3⟩, _, rfl, rfl⟩ hk3 with
    ⟨inner, _, _, s4, ctx4, _, hinner, hbody, hspends'', -⟩
  rcases hbody.advances.function rfl with ⟨n, -, hfn4⟩
  rcases hbody.advances.scopes hscopes3 with ⟨scope4, hscopes4⟩
  have hadvances := Advances.counted hfn hkept rfl rfl hfn3 hbody.advances hfn4
  rw [env.after_eq p _ (by rw [hkind]; rfl), rules.stmt_forRange looping env hkind]
  simp only [stmt?, hkind]
  have hloop := Spends.looped ((ctx2'.declareHere sym).labeling 3) hfn3 hspends'' hfn4
  have htaken := Spends.taking ctx.entering hfn 2
  have hall := htaken.trans (hbounds.trans ((Spends.declareHere ctx2' sym).trans
    ⟨hloop.1, hloop.2, hloop.3⟩))
  exact ⟨_, _, _, _, _, _, rfl, .forRange hfn hfirst rfl hlast rfl rfl
    (congrArg (declareHere · sym) hctx2.symm) rfl rfl rfl hfn3 hinner hbody hfn4 hscopes4,
    ⟨hall.1, hall.2, hall.3⟩, hk.congr rfl (hadvances.leaving hscopes4).2⟩

theorem performs_jump (hkind : p.kind = .brk ∨ p.kind = .cont) (parts : List Term) :
    Performs scratch (.node p parts) := by
  refine performs_plain (by rcases hkind with h | h <;> rw [h] <;> rfl) ?_
  intro env looping s ctx hin hk
  rcases hin.function with ⟨fn, hfn, hloop⟩
  have htargets := loopTargets?_eq hfn
  have hstmt : (node p parts).stmt? = some (.jump p.kind) := by
    rcases hkind with h | h <;> simp only [stmt?, h]
  rw [rules.stmt_jump looping env hkind, ← hloop]
  cases hfn' : fn.loop with
  | some =>
    exact ⟨_, _, _, _, _, hstmt, .jump (htargets.trans hfn'), .refl _, hk⟩
  | none =>
    exact ⟨_, _, _, _, _, hstmt, .jumpOutside (htargets.trans hfn'), .reporting, hk⟩

/-- Statements. -/
theorem performs_of_formed (scratch : Nat) (hf : Term.Formed ts) :
    ∀ t ∈ ts, Performs scratch t := by
  refine hf.forall_mem (fun p callee args inside ihC => ?_) fun p parts fits inside ihC => ?_
  · intro env looping s ctx hin hk
    rcases exists_expr scratch (.call p callee args [] inside .nil) s ctx hk with
      ⟨_, _, _, _, _, h, -, hspends, hk'⟩
    exact ⟨_, _, _, _, _, _, rfl, .expression h, hspends, hk'⟩
  · cases hkind : p.kind with
    -- A node has as many parts as its kind asks for, so a rule applies to each kind.
    | block => exact performs_block hkind ihC
    | varDecl => exact performs_varDecl hkind inside
    | whileLoop =>
      rcases fits.operands (by simp [hkind]) with ⟨condition, body, rfl⟩
      exact performs_whileLoop hkind inside (ihC body (by simp))
    | forRange =>
      have hlen : parts.length = 3 := by simpa [Payload.Fits, hkind] using fits
      rcases length_eq_three.mp hlen with ⟨first, last, body, rfl⟩
      exact performs_forRange hkind inside (ihC body (by simp))
    | brk => exact performs_jump (.inl hkind) parts
    | cont => exact performs_jump (.inr hkind) parts
    | cond =>
      intro env looping s ctx hin hk
      rcases exists_chain inside ihC env s ctx hin hk with ⟨_, _, _, _, _, hchain, hspends, hk'⟩
      rw [Rules.stmt.eq_def, Context.after.eq_def]
      simp only [stmt?, hkind]
      exact ⟨_, _, _, _, _, _, rfl, .cond hchain, hspends, hk'⟩
    | ret =>
      refine performs_plain (by rw [hkind]; rfl) fun env looping s ctx hin hk => ?_
      rw [Rules.stmt.eq_def]
      simp only [stmt?, hkind]
      cases parts with
      | nil => exact ⟨_, _, _, _, _, rfl, .retZero rfl, .refl _, hk⟩
      | cons =>
        rcases exists_expr scratch inside.uncons.1 s ctx hk with
          ⟨_, _, _, _, _, h, -, hspends, hk'⟩
        cases hresult : ctx.returnType.hasResult with
        | false => exact ⟨_, _, _, _, _, rfl, .retEffect hresult h, hspends, hk'⟩
        | true => exact ⟨_, _, _, _, _, rfl, .ret hresult h, hspends, hk'⟩
    | assign =>
      rcases fits.operands (by simp [hkind]) with ⟨target, value, rfl⟩
      refine performs_plain (by rw [hkind]; rfl) fun env looping s ctx hin hk => ?_
      rw [Rules.stmt.eq_def]
      simp only [stmt?, hkind]
      rcases exists_assign .assign inside (lowers_of_formed scratch env inside target (by simp)).2
        (lowers_of_formed scratch env inside value (by simp)).1 s ctx hk with
        ⟨_, _, _, _, h, hspends⟩
      exact ⟨_, _, _, _, _, rfl, .assign h, hspends, hk.kept h.kept⟩
    | classDecl =>
      intro env looping s ctx hin hk
      rw [rules.stmt_classDecl looping env hkind, Context.after.eq_def]
      simp only [stmt?, hkind]
      exact ⟨_, _, _, _, _, _, rfl, .classDecl, .declareHere _ _,
        hk.declareHere rfl ⟨rfl, rfl, rfl, rfl⟩⟩
    | funcDecl | program =>
      refine performs_plain (by rw [hkind]; rfl) fun env looping s ctx hin hk => ?_
      rw [Rules.stmt.eq_def]
      simp only [stmt?, hkind]
      exact ⟨_, _, _, _, _, rfl, .refused, .reporting, hk⟩
    | other => exact absurd fits (by simp [Payload.Fits, hkind])
    | _ =>
      refine performs_plain (by rw [hkind]; rfl) fun env looping s ctx hin hk => ?_
      rcases exists_expr scratch (.node p parts [] fits inside .nil) s ctx hk with
        ⟨_, _, _, _, _, h, -, hspends, hk'⟩
      rw [Rules.stmt.eq_def]
      simp only [stmt?, hkind]
      exact ⟨_, _, _, _, _, rfl, .expression h, hspends, hk'⟩

theorem Executes.agrees_after {t : Term} {inner : Stmt} {st st' : Stage} {c : Code}
    {steps : List Step} (h : Executes scratch (.stmt inner) st c steps st')
    (hstmt : t.stmt? = some inner) (hin : st.2.Inside looping) (hk : st.2.Agrees Eq env)
    (hf : Term.Formed [t]) : st'.2.Agrees Eq (env.after t) := by
  rcases performs_of_formed scratch hf t (by simp) env looping st.1 st.2 hin hk with
    ⟨_, _, _, _, _, _, hstmt', h', -, hk'⟩
  cases hstmt.symm.trans hstmt'
  -- A run has one end.
  obtain ⟨-, -, rfl⟩ := h.runs.unique h'.runs
  exact hk'

section Program

variable {ss : List Tree} {root : Tree}

theorem exists_bindParams (params : List Param) (s : Output) (ctx : Context)
    (hin : ∃ fn, ctx.function = some fn) : ∃ syms ctx' slots,
      Ends (bindParams params) s ctx () s ctx' ∧ Binds params ctx syms ctx' ∧
        ctx.Spends ctx' slots [] := by
  induction params generalizing ctx with
  | nil => exact ⟨_, _, _, ends_pure, .nil, .refl _⟩
  | cons param _ ih =>
    rcases hin with ⟨fn, hfn⟩
    rcases ih (ctx.declaring fn param.name param.type)
      ⟨_, function_declaring ctx fn param.name param.type⟩ with ⟨_, _, _, hends, hbinds, hspends⟩
    rw [← reporting_nil (ctx.declaring fn param.name param.type)] at hbinds
    exact ⟨_, _, _, ends_bind (ends_declareLocal hfn) hends, .cons hfn hbinds,
      (Spends.declaring hfn param.name param.type).trans hspends⟩

theorem exists_introduces (hf : Tree.Formed ss) (env : Context) (s : Output) (ctx : Context)
    (hscopes : ctx.scopes = []) (hk : ctx.Agrees Eq env) :
    ∃ userMain s' ctx', Introduces ss (s, ctx) userMain (s', ctx') ∧ ctx'.scopes = [] ∧
      ctx.Spends ctx' 0 [] ∧ ctx'.Agrees Eq ((ofTrees ss).foldl Context.declareTop env) := by
  induction hf generalizing env s ctx with
  | nil => exact ⟨_, _, _, .nil, hscopes, .refl _, hk⟩
  | cons p ts _ _ children _ _ ih =>
    rw [ofTrees, foldl_cons]
    by_cases hdeclares : p.kind.isDeclaration = true
    · rw [ofTree_declaration hdeclares ts]
      cases hkind : p.kind with
      | funcDecl =>
        rcases ih (env.declareHere (.ofFunction p.name p.params p.result [])) s
          (ctx.declareGlobally (functionSymbol p)) hscopes
          (hk.declareGlobally rfl ⟨rfl, rfl, rfl, rfl⟩ hscopes) with
          ⟨_, _, _, h, hs, hspends, hk'⟩
        simp only [Context.declareTop, hkind]
        exact ⟨_, _, _, .function hkind h, hs, hspends.of_declareGlobally, hk'⟩
      | classDecl =>
        rcases ih (env.declareHere (.ofClass p.name p.fields)) s
          (ctx.declareHere (.ofClass p.name p.fields)) (by
            rwa [← declareGlobally_eq _ _ hscopes]) (hk.declareHere rfl ⟨rfl, rfl, rfl, rfl⟩) with
          ⟨_, _, _, h, hs, hspends, hk'⟩
        simp only [Context.declareTop, hkind]
        exact ⟨_, _, _, .classDecl hkind h, hs, (Spends.declareHere _ _).trans hspends, hk'⟩
      | varDecl =>
        rcases ih (env.declareHere (.staticVar p.name (env.varType p (ofTrees ts)) []))
          (s.withGlobals (globalCells p (env.varType p (ofTrees ts))))
          (ctx.declareGlobally (globalSymbol p (env.varType p (ofTrees ts)))) hscopes
          (hk.declareGlobally rfl ⟨rfl, rfl, rfl, rfl⟩ hscopes) with
          ⟨_, _, _, h, hs, hspends, hk'⟩
        simp only [Context.declareTop, hkind]
        exact ⟨_, _, _, .varDecl hkind (hk.topType p children) h, hs, hspends.of_declareGlobally, hk'⟩
      | _ =>
        rw [hkind] at hdeclares
        cases hdeclares
    · have hother := eq_false_of_ne_true hdeclares
      rw [env.declareTop_other (.ofTree (.node p ts)) (by rwa [kind_ofTree])]
      rcases ih env s ctx hscopes hk with ⟨_, _, _, h, hs, hspends, hk'⟩
      exact ⟨_, _, _, .other hother h, hs, hspends, hk'⟩

theorem Introduces.agrees {userMain : Option Symbol} {st st' : Stage}
    (h : Introduces ss st userMain st') (hf : Tree.Formed ss) (hscopes : st.2.scopes = [])
    (hk : st.2.Agrees Eq env) :
    st'.2.scopes = [] ∧ st'.2.Agrees Eq ((ofTrees ss).foldl Context.declareTop env) := by
  rcases exists_introduces hf env st.1 st.2 hscopes hk with ⟨_, _, _, h', hscopes', -, hk'⟩
  obtain ⟨-, -, rfl⟩ := h.runs.unique h'.runs
  exact ⟨hscopes', hk'⟩

theorem exists_defines (userMain : Option Symbol) {p : Payload} {body : Tree}
    (hkind : p.kind = .funcDecl) (hf : Tree.Formed [body]) (hknown : env.Knows p.name) (s : Output)
    (ctx : Context) (hscopes : ctx.scopes = []) (hk : ctx.Agrees Eq env) : ∃ frame f s' ctx',
      Defines userMain p body (s, ctx) frame f (s', ctx') ∧ ctx'.scopes = [] ∧
        ctx.Spends ctx' 0 (rules.function env (.node p (ofTrees [body]))) ∧
        ctx'.Agrees Eq env := by
  rcases hk.known hknown with ⟨sym, hsym, -⟩
  let begun := ctx.beginning p.name p.result
  have hin : begun.Inside false := inside_beginning ctx _ _
  rcases exists_bindParams p.params s begun ⟨_, rfl⟩ with ⟨_, ctx1, _, hbound, hbinds, hspends⟩
  have hin1 := hin.advances hbinds.advances
  rcases hin1.function with ⟨fn1, hfn1, -⟩
  rcases performs_of_formed fn1.nextSlot hf.terms.1 (.ofTree body) (by simp [ofTrees]) _ false s
    (ctx1.taking fn1 1) (hin1.advances (.taking ctx1 hfn1 1)) (hbinds.agrees hk) with
    ⟨inner, _, _, s2, ctx2, _, hinner, hbody, hspends', -⟩
  have hadvances := (hbinds.advances.trans (.taking _ hfn1 1)).trans hbody.advances
  have hall := (hspends.trans (.taking ctx1 hfn1 1)).trans hspends'
  have hbegun : begun.scopes = [] :: ctx.scopes := rfl
  rcases hadvances.scopes hbegun with ⟨scope, hscopes2⟩
  rcases hadvances.function rfl with ⟨used, -, hfn⟩
  refine ⟨_, _, _, _, .mk hsym hbinds hfn1 hinner hbody hfn hscopes2 rfl hbound, hscopes,
    ⟨hall.1, Nat.zero_le _, ?_⟩, hk.congr rfl (hadvances.ended hscopes hscopes2).2⟩
  simp only [ofTrees, Rules.function, if_pos hkind]
  exact hall.limitations

theorem exists_functions (userMain : Option Symbol) (hf : Tree.Formed ss)
    (hknown : ∀ p ts, Tree.node p ts ∈ ss → p.kind = .funcDecl → env.Knows p.name) (s : Output)
    (ctx : Context) (hscopes : ctx.scopes = []) (hk : ctx.Agrees Eq env) : ∃ fs s' ctx',
      Functions userMain ss (s, ctx) fs (s', ctx') ∧ ctx'.scopes = [] ∧
        ctx.Spends ctx' 0 ((ofTrees ss).flatMap (rules.function env)) ∧
        ctx'.Agrees Eq env := by
  induction hf generalizing s ctx with
  | nil => exact ⟨_, _, _, .nil, hscopes, .refl _, hk⟩
  | cons p ts _ fits children _ _ ih =>
    have hrest := ih fun q vs hmem => hknown q vs (by simp [hmem])
    rw [ofTrees, flatMap_cons]
    by_cases hkind : p.kind = .funcDecl
    · have hlen : ts.length = 1 := by simpa [Payload.Fits, hkind] using fits
      rcases length_eq_one_iff.mp hlen with ⟨body, rfl⟩
      rcases exists_defines userMain hkind children (hknown p [body] (by simp) hkind) s ctx hscopes hk with
        ⟨_, _, s1, ctx1, hdefines, hscopes1, hspends, hk1⟩
      rcases hrest s1 ctx1 hscopes1 hk1 with ⟨_, _, _, hfunctions, hscopes2, hspends', hk2⟩
      rw [ofTree_declaration (by rw [hkind]; rfl)]
      exact ⟨_, _, _, .function hkind hdefines hfunctions, hscopes2, hspends.trans hspends', hk2⟩
    · rcases hrest s ctx hscopes hk with ⟨_, _, _, hfunctions, hscopes2, hspends', hk2⟩
      rw [rules.function_other env _ (by rwa [kind_ofTree])]
      exact ⟨_, _, _, .other hkind hfunctions, hscopes2, hspends', hk2⟩

theorem exists_enters (scratch : Nat) (hf : Tree.Formed ss) (env : Context)
    (hknown : ∀ p ts, Tree.node p ts ∈ ss → p.kind = .varDecl → env.Knows p.name) (s : Output)
    (ctx : Context) (hin : ctx.Inside false) (hk : ctx.Agrees Eq env) : ∃ c steps s' ctx' slots,
      Enters scratch ss (s, ctx) c steps (s', ctx') ∧
        ctx.Spends ctx' slots (rules.topStatements env (ofTrees ss)) := by
  induction hf generalizing env s ctx with
  | nil => exact ⟨_, _, _, _, _, .nil, .refl _⟩
  | cons p ts _ fits children _ _ ih =>
    rw [ofTrees, Rules.topStatements, kind_ofTree]
    by_cases hdeclares : p.kind.isDeclaration = true
    · have hrest := ih env fun q vs hmem => hknown q vs (by simp [hmem])
      rw [if_pos hdeclares]
      by_cases hvar : p.kind = .varDecl
      · rcases hk.known (hknown p ts (by simp) hvar) with ⟨sym, hsym, htype⟩
        rw [ofTree_declaration hdeclares ts]
        cases ts with
        | nil =>
          rcases hrest s ctx hin hk with ⟨_, _, _, _, _, h, hspends⟩
          rw [ofTrees, rules.topStatement_varDecl_nil env hvar]
          exact ⟨_, _, _, _, _, .varZero hvar hsym h, hspends⟩
        | cons =>
          rcases exists_expr scratch children.terms.1.uncons.1 s ctx hk with
            ⟨_, _, _, s1, ctx1, h, hrep, hspends, hk1⟩
          rcases hrest s1 _ (hin.advances (h.kept.trans .reporting).advances)
            (hk1.reporting _) with ⟨_, _, _, _, _, h', hspends'⟩
          rw [ofTrees, rules.topStatement_varDecl_cons env hvar, ← htype]
          exact ⟨_, _, _, _, _, .varInit hvar hsym h rfl h',
            (spends_coercion sym.type hrep hspends).trans hspends'⟩
      · have hother := Kind.declared_of_ne_varDecl hdeclares hvar
        rcases hrest s ctx hin hk with ⟨_, _, _, _, _, h, hspends⟩
        rw [rules.topStatement_declared env _ (by rwa [kind_ofTree])]
        exact ⟨_, _, _, _, _, .declared hother h, hspends⟩
    · have hother := eq_false_of_ne_true hdeclares
      rw [if_neg hdeclares, rules.topStatement_other env _ (by rwa [kind_ofTree])]
      have hself : Tree.Formed [.node p ts] := .cons p ts [] fits children .nil
      rcases performs_of_formed scratch hself.terms.1 (.ofTree (.node p ts))
        (by simp [ofTrees]) env false s ctx hin hk with
        ⟨inner, _, _, s1, ctx1, _, hinner, h, hspends, hk1⟩
      rcases ih (env.after (.ofTree (.node p ts))) (fun q vs hmem hkind =>
        Knows.after (.ofTree (.node p ts)) env (hknown q vs (by simp [hmem]) hkind))
        s1 ctx1 (hin.advances h.advances) hk1 with ⟨_, _, _, _, _, h', hspends'⟩
      exact ⟨_, _, _, _, _, .stmt hother hinner h h', hspends.trans hspends'⟩

theorem exists_entry {statements : List Tree} (userMain : Option Symbol)
    (hf : Tree.Formed statements)
    (hknown : ∀ p ts, Tree.node p ts ∈ statements → p.kind = .varDecl → env.Knows p.name)
    (s : Output) (ctx : Context) (hk : ctx.Agrees Eq env) :
    ∃ frame f s' ctx', Entry statements userMain (s, ctx) frame f (s', ctx') ∧
      ctx.Spends ctx' 0 (rules.topStatements env (ofTrees statements)) := by
  let begun := ctx.beginning "main" .void
  have hin : begun.Inside false := inside_beginning ctx _ _
  rcases hin.function with ⟨fn1, hfn1, -⟩
  rcases exists_enters fn1.nextSlot hf env hknown s (begun.taking fn1 1)
    (hin.advances (.taking begun hfn1 1)) hk with ⟨_, _, s2, ctx2, _, hbody, hspends⟩
  have hadvances := (Advances.taking begun hfn1 1).trans hbody.advances
  have hall := (Spends.taking begun hfn1 1).trans hspends
  have hbegun : begun.scopes = [] :: ctx.scopes := rfl
  rcases hadvances.scopes hbegun with ⟨scope, hscopes2⟩
  rcases hadvances.function hfn1 with ⟨used, -, hfn⟩
  exact ⟨_, _, _, _, .mk hfn1 hbody hfn hscopes2 rfl, hall.1, Nat.zero_le _, hall.3⟩

/-- Programs. -/
theorem generates_of_formed (hf : Tree.Formed [root]) :
    ∃ fs out ctx, Generates root fs (out, ctx) ∧ ctx.limitations =
      (rules.program (ofTrees root.statements)).map (Issue.limitation target) := by
  rcases exists_introduces hf.statements { target := [] } {} { target := target } rfl
    (fun _ => Or.inl ⟨rfl, rfl⟩) with ⟨userMain, s1, ctx1, hintroduced, hscopes1, hspends1, hk1⟩
  rcases exists_functions userMain hf.statements (fun p ts h hkind => ofProgram_knows h (Or.inl hkind)) s1 ctx1
    hscopes1 hk1 with ⟨_, s2, ctx2, hfunctions, -, hspends2, hk2⟩
  rcases exists_entry userMain hf.statements (fun p ts h hkind => ofProgram_knows h (Or.inr hkind)) s2 ctx2
    hk2 with ⟨_, _, s3, ctx3, hentry, hspends3⟩
  exact ⟨_, s3, ctx3, .mk hintroduced hfunctions hentry,
    ((hspends1.trans hspends2).trans hspends3).limitations⟩

theorem run_formed (hf : Tree.Formed [root]) :
    ∃ fs out ctx, Generates root fs (out, ctx) ∧
      ((generate root).run {}).run { target := target } = .ok (((), out), ctx) := by
  rcases generates_of_formed hf with ⟨fs, out, ctx, h, -⟩
  exact ⟨fs, out, ctx, h, h.runs⟩

theorem compile_formed (hf : Tree.Formed [root]) :
    ∃ text, compile root =
      .ok (text, (rules.program (ofTrees root.statements)).map (Issue.limitation target)) := by
  rcases generates_of_formed hf with ⟨fs, out, ctx, h, hlimits⟩
  exact ⟨(assemble out ctx.data).text, by rw [h.compile_eq, hlimits]⟩

end Program

end Codegen.Wasm
