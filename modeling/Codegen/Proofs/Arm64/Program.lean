import Codegen.Proofs.Arm64.Generation
import Codegen.Proofs.Arm64.Survey
import Mathlib.Data.List.Induction

/-!
# AArch64 Programs Are Always Generated

Every formed statement, and with it every formed program, comes about by the rules, and the
limitations are the issues of its survey.
-/

namespace Codegen.Arm64

open Context Term List

variable {flavor : Flavor} {env : Context} {looping : Bool} {p : Payload} {parts ts : List Term}

theorem exists_expr (flavor : Flavor) {t : Term} (hf : Term.Formed [t]) (s : Output)
    (ctx : Context) (hk : ctx.Agrees Eq env) : ∃ c rep reads s' ctx',
      Produces flavor (.expr t) (s, ctx) ⟨c, [rep], reads⟩ (s', ctx') ∧
        ctx.Spends ctx' 0 (rules.survey env t).issues ∧ ctx'.Agrees Eq env := by
  rcases (lowers_of_formed flavor env hf t (by simp)).1 s ctx hk with
    ⟨c, reads, s', ctx', h, hspends⟩
  exact ⟨c, _, reads, s', ctx', h, hspends, hk.kept h.kept⟩

/-- Inside a function, a statement is lowered with its issues, within the slots that were
    counted for it, and leaves the names after it. -/
def Performs (flavor : Flavor) (t : Term) : Prop :=
  ∀ env looping s ctx, ctx.Inside looping → ctx.Agrees Eq env → ∃ inner c steps s' ctx',
    t.stmt? = some inner ∧ Executes flavor (.stmt inner) (s, ctx) c steps (s', ctx') ∧
      ctx.Spends ctx' t.slots (rules.stmt looping env t) ∧ ctx'.Agrees Eq (env.after t)

theorem performs_plain (hkind : p.kind.leavesNames = false)
    (h : ∀ env looping s ctx, ctx.Inside looping → ctx.Agrees Eq env → ∃ inner c steps s' ctx',
      (node p parts).stmt? = some inner ∧
        Executes flavor (.stmt inner) (s, ctx) c steps (s', ctx') ∧
        ctx.Spends ctx' 0 (rules.stmt looping env (.node p parts)) ∧ ctx'.Agrees Eq env) :
    Performs flavor (.node p parts) := by
  intro env looping s ctx hin hk
  rcases h env looping s ctx hin hk with ⟨inner, c, steps, s', ctx', hinner, h, hspends, hk'⟩
  rw [env.after_eq p parts hkind]
  exact ⟨inner, c, steps, s', ctx', hinner, h, hspends.mono (Nat.zero_le _), hk'⟩

theorem exists_stmts (h : ∀ t ∈ ts, Performs flavor t) (env : Context) (s : Output) (ctx : Context)
    (hin : ctx.Inside looping) (hk : ctx.Agrees Eq env) :
    ∃ c steps s' ctx', Executes flavor (.stmts ts) (s, ctx) c steps (s', ctx') ∧
      ctx.Spends ctx' (allSlots ts) (rules.stmts looping env ts) := by
  induction ts generalizing env s ctx with
  | nil => exact ⟨_, _, _, _, .nil, .refl _⟩
  | cons t _ ih =>
    rcases h t (by simp) env looping s ctx hin hk with
      ⟨inner, _, _, s1, ctx1, hinner, hfirst, hspends, hk1⟩
    rcases ih (fun t ht => h t (by simp [ht])) _ s1 ctx1 (hin.advances hfirst.advances) hk1 with
      ⟨_, _, _, _, hrest, hspends'⟩
    exact ⟨_, _, _, _, .cons hinner hfirst hrest, hspends.trans hspends'⟩

theorem exists_chain (join : Label) (hf : Term.Formed ts) (h : ∀ t ∈ ts, Performs flavor t)
    (env : Context) (s : Output) (ctx : Context) (hin : ctx.Inside looping)
    (hk : ctx.Agrees Eq env) :
    ∃ c steps s' ctx', Executes flavor (.chain join ts) (s, ctx) c steps (s', ctx') ∧
      ctx.Spends ctx' (allSlots ts) (rules.chain looping env ts) ∧
      ctx'.Agrees Eq (env.afterChain ts) := by
  induction ts using twoStepInduction generalizing env s ctx with
  | nil => exact ⟨_, _, _, _, .chainNil, .refl _, hk⟩
  | singleton body =>
    rcases h body (by simp) env looping s ctx hin hk with
      ⟨inner, _, _, _, _, hinner, hbody, hspends, hk'⟩
    exact ⟨_, _, _, _, .chainLast hinner hbody, hspends, hk'⟩
  | cons_cons _ body _ ih =>
    rcases exists_expr flavor hf.uncons.1 s (ctx.labeling 1) hk with
      ⟨_, _, _, s1, ctx1, htest, hspends, hk1⟩
    have hin1 := hin.advances ((Advances.labeling ctx 1).trans htest.kept.advances)
    rcases h body (by simp) env looping s1 ctx1 hin1 hk1 with
      ⟨inner, _, _, s2, ctx2, hinner, hbody, hspends', hk2⟩
    rcases ih hf.uncons.2.uncons.2 (fun t ht => h t (by simp [ht])) _ s2 ctx2
      (hin1.advances hbody.advances) hk2 with ⟨_, _, _, _, hrest, hspends'', hk'⟩
    refine ⟨_, _, _, _, .chainLink rfl htest hinner hbody hrest, ?_, hk'⟩
    have hall := (hspends.trans hspends').trans hspends''
    refine Spends.mono ⟨hall.1, hall.2, hall.3⟩ ?_
    simp only [allSlots]
    omega

theorem performs_block (hkind : p.kind = .block) (h : ∀ t ∈ parts, Performs flavor t) :
    Performs flavor (.node p parts) := by
  intro env looping s ctx hin hk
  rcases exists_stmts h env s ctx.entering ⟨⟨[], ctx.scopes, rfl⟩, hin.function⟩ hk with
    ⟨_, _, _, ctx1, hbody, hspends⟩
  have hentered : ctx.entering.scopes = [] :: ctx.scopes := rfl
  rcases hbody.advances.scopes hentered with ⟨scope, hscopes⟩
  rw [env.after_eq p parts (by rw [hkind]; rfl)]
  refine ⟨_, _, _, _, _, by simp [stmt?, hkind], .block hbody hscopes, ?_,
    hk.congr rfl (hbody.advances.leaving hscopes).2⟩
  simp only [hkind, Rules.stmt, slots]
  exact Spends.mono ⟨hspends.1, hspends.2, hspends.3⟩ (by simp)

theorem performs_varDecl (hkind : p.kind = .varDecl) (hf : Term.Formed parts) :
    Performs flavor (.node p parts) := by
  intro env looping s ctx hin hk
  rcases hin.function with ⟨fn, hfn, -⟩
  have hwords := words_varType env parts hkind
  rw [slots, if_neg (by simp [hkind]), Context.after.eq_def]
  simp only [stmt?, hkind]
  cases parts with
  | nil =>
    rw [rules.stmt_varDecl_nil looping env hkind]
    exact ⟨_, _, _, _, _, rfl, .declareZero hfn rfl,
      (Spends.declaring hfn p.name p.type).mono (Nat.le_trans hwords (Nat.le_add_right _ _)),
      hk.declaring fn p.name p.type⟩
  | cons init rest =>
    rw [rules.stmt_varDecl_cons looping env hkind]
    rcases exists_expr flavor hf.uncons.1 s ctx hk with ⟨_, _, _, _, ctx1, hinit, hspends, hk1⟩
    have hfn1 := hinit.kept.function.trans hfn
    refine ⟨_, _, _, _, _, rfl, .declare (hk.declaredType hf.uncons.1 p rest) hinit hfn1 rfl, ?_,
      hk1.declaring fn p.name _⟩
    have hall := hspends.trans (Spends.declaring hfn1 p.name (env.varType p (init :: rest)))
    rw [append_nil] at hall
    exact hall.mono (by omega)

theorem performs_whileLoop (hkind : p.kind = .whileLoop) {condition body : Term}
    (hf : Term.Formed [condition, body]) (h : Performs flavor body) :
    Performs flavor (.node p [condition, body]) := by
  intro env looping s ctx hin hk
  rcases hin.scope with ⟨scope, outer, hscopes⟩
  rcases hin.function with ⟨fn, hfn, -⟩
  rcases exists_expr flavor hf.uncons.1 s (ctx.labeling 2) hk with
    ⟨_, _, _, s1, ctx1, htest, hspends, hk1⟩
  have hfn1 : ctx1.function = some fn := htest.kept.function.trans hfn
  rcases h env true s1 (ctx1.looping fn (some ⟨⟨ctx.labels + 1⟩, ⟨ctx.labels⟩⟩))
    ⟨⟨scope, outer, htest.kept.scopes.trans hscopes⟩, _, rfl, rfl⟩ hk1 with
    ⟨inner, _, _, s2, ctx2, hinner, hbody, hspends', hk2⟩
  rcases hbody.advances.function rfl with ⟨n, -, hfn2⟩
  rw [rules.stmt_whileLoop looping env hkind, Context.after.eq_def]
  simp only [stmt?, hkind]
  refine ⟨_, _, _, _, _, rfl, .whileLoop rfl rfl htest hfn1 hinner hbody hfn2, ?_, hk2⟩
  have hall := hspends.trans (Spends.looped ctx1 hfn1 hspends' hfn2)
  refine Spends.mono ⟨hall.1, hall.2, hall.3⟩ ?_
  rw [slots, if_neg (by simp [hkind])]
  simp only [allSlots]
  omega

theorem performs_forRange (hkind : p.kind = .forRange) {first last body : Term}
    (hf : Term.Formed [first, last, body]) (h : Performs flavor body) :
    Performs flavor (.node p [first, last, body]) := by
  intro env looping s ctx hin hk
  rcases hin.function with ⟨fn, hfn, -⟩
  rcases exists_expr flavor hf.uncons.1 s (ctx.entering.taking fn 2) hk with
    ⟨_, _, _, s1, ctx1, hfirst, hspends, hk1⟩
  rcases exists_expr flavor hf.uncons.2.uncons.1 s1 ctx1 hk1 with
    ⟨_, _, _, s2, ctx2, hlast, hspends', hk2⟩
  have hkept := hfirst.kept.trans hlast.kept
  let sym : Symbol := .localVar p.name .integer fn.nextSlot
  have hfn3 : (ctx2.declareHere sym).function = some { fn with nextSlot := fn.nextSlot + 2 } :=
    (function_declareHere ctx2 sym).trans hkept.function
  have hk3 : (ctx2.declareHere sym).Agrees Eq (env.counting p.name) :=
    hk2.declareHere rfl ⟨rfl, rfl, rfl, rfl⟩
  have hscopes3 : ∃ scope, (ctx2.declareHere sym).scopes = scope :: ctx.scopes :=
    (Advances.counting hfn hkept rfl rfl).scopes rfl
  rcases hscopes3 with ⟨scope, hscopes3⟩
  rcases h _ true s2 (((ctx2.declareHere sym).labeling 3).looping _ (some
      ⟨⟨(ctx2.declareHere sym).labels + 2⟩, ⟨(ctx2.declareHere sym).labels + 1⟩⟩))
    ⟨⟨scope, ctx.scopes, hscopes3⟩, _, rfl, rfl⟩ hk3 with
    ⟨inner, _, _, s4, ctx4, hinner, hbody, hspends'', -⟩
  rcases hbody.advances.function rfl with ⟨n, -, hfn4⟩
  rcases hbody.advances.scopes hscopes3 with ⟨scope4, hscopes4⟩
  have hadvances := Advances.counted hfn hkept rfl rfl hfn3 hbody.advances hfn4
  rw [env.after_eq p _ (by rw [hkind]; rfl), rules.stmt_forRange looping env hkind]
  simp only [stmt?, hkind]
  refine ⟨_, _, _, _, _, rfl,
    .forRange hfn hfirst hlast rfl rfl rfl rfl rfl hfn3 hinner hbody hfn4 hscopes4, ?_,
    hk.congr rfl (hadvances.leaving hscopes4).2⟩
  have hloop := Spends.looped ((ctx2.declareHere sym).labeling 3) hfn3 hspends'' hfn4
  have htaken := Spends.taking ctx.entering hfn 2
  have hall := htaken.trans ((hspends.trans hspends').trans ((Spends.declareHere ctx2 sym).trans
    ⟨hloop.1, hloop.2, hloop.3⟩))
  refine Spends.mono ⟨hall.1, hall.2, hall.3⟩ ?_
  rw [slots, if_neg (by simp [hkind]), Tree.ownWords]
  simp only [hkind, allSlots]
  omega

theorem performs_jump (hkind : p.kind = .brk ∨ p.kind = .cont) (parts : List Term) :
    Performs flavor (.node p parts) := by
  refine performs_plain (by rcases hkind with h | h <;> rw [h] <;> rfl) ?_
  intro env looping s ctx hin hk
  rcases hin.function with ⟨fn, hfn, hloop⟩
  have htargets := loopTargets?_eq hfn
  have hstmt : (node p parts).stmt? = some (.jump p.kind) := by
    rcases hkind with h | h <;> simp only [stmt?, h]
  rw [rules.stmt_jump looping env hkind, ← hloop]
  cases hfn' : fn.loop with
  | some =>
    exact ⟨_, _, _, _, _, hstmt, .jump (htargets.trans hfn'), .refl _, hk⟩
  | none =>
    exact ⟨_, _, _, _, _, hstmt, .jumpOutside (htargets.trans hfn'), .reporting, hk⟩

/-- Statements. -/
theorem performs_of_formed (flavor : Flavor) (hf : Term.Formed ts) :
    ∀ t ∈ ts, Performs flavor t := by
  refine hf.forall_mem (fun p callee args inside ihC => ?_) fun p parts fits inside ihC => ?_
  · intro env looping s ctx hin hk
    rcases exists_expr flavor (.call p callee args [] inside .nil) s ctx hk with
      ⟨_, _, _, _, _, h, hspends, hk'⟩
    exact ⟨_, _, _, _, _, rfl, .expression h, hspends, hk'⟩
  · cases hkind : p.kind with
    -- A node has as many parts as its kind asks for, so a rule applies to each kind.
    | block => exact performs_block hkind ihC
    | varDecl => exact performs_varDecl hkind inside
    | whileLoop =>
      rcases fits.operands (by simp [hkind]) with ⟨condition, body, rfl⟩
      exact performs_whileLoop hkind inside (ihC body (by simp))
    | forRange =>
      have hlen : parts.length = 3 := by simpa [Payload.Fits, hkind] using fits
      rcases length_eq_three.mp hlen with ⟨first, last, body, rfl⟩
      exact performs_forRange hkind inside (ihC body (by simp))
    | brk => exact performs_jump (.inl hkind) parts
    | cont => exact performs_jump (.inr hkind) parts
    | cond =>
      intro env looping s ctx hin hk
      rcases exists_chain ⟨ctx.labels⟩ inside ihC env s (ctx.labeling 1)
        ⟨hin.scope, hin.function⟩ hk with ⟨_, _, _, _, hchain, hspends, hk'⟩
      rw [Rules.stmt.eq_def, Context.after.eq_def, slots]
      simp only [stmt?, hkind]
      exact ⟨_, _, _, _, _, rfl, .cond rfl hchain,
        Spends.mono ⟨hspends.1, hspends.2, hspends.3⟩ (Nat.le_add_left _ _), hk'⟩
    | ret =>
      refine performs_plain (by rw [hkind]; rfl) fun env looping s ctx hin hk => ?_
      rcases hin.function with ⟨fn, hfn, -⟩
      rw [Rules.stmt.eq_def]
      simp only [stmt?, hkind]
      cases parts with
      | nil => exact ⟨_, _, _, _, _, rfl, .retZero hfn, .refl _, hk⟩
      | cons =>
        rcases exists_expr flavor inside.uncons.1 s ctx hk with ⟨_, _, _, _, _, h, hspends, hk'⟩
        exact ⟨_, _, _, _, _, rfl, .ret h (h.kept.function.trans hfn), hspends, hk'⟩
    | assign =>
      rcases fits.operands (by simp [hkind]) with ⟨target, value, rfl⟩
      refine performs_plain (by rw [hkind]; rfl) fun env looping s ctx hin hk => ?_
      rw [Rules.stmt.eq_def]
      simp only [stmt?, hkind]
      rcases exists_assign .assign inside (lowers_of_formed flavor env inside target (by simp)).2
        (lowers_of_formed flavor env inside value (by simp)).1 s ctx hk with
        ⟨_, _, _, _, h, hspends⟩
      exact ⟨_, _, _, _, _, rfl, .assign h, hspends, hk.kept h.kept⟩
    | classDecl =>
      intro env looping s ctx hin hk
      rw [rules.stmt_classDecl looping env hkind, Context.after.eq_def]
      simp only [stmt?, hkind]
      exact ⟨_, _, _, _, _, rfl, .classDecl, (Spends.declareHere _ _).mono (Nat.zero_le _),
        hk.declareHere rfl ⟨rfl, rfl, rfl, rfl⟩⟩
    | funcDecl | program =>
      refine performs_plain (by rw [hkind]; rfl) fun env looping s ctx hin hk => ?_
      rw [Rules.stmt.eq_def]
      simp only [stmt?, hkind]
      exact ⟨_, _, _, _, _, rfl, .refused, .reporting, hk⟩
    | other => exact absurd fits (by simp [Payload.Fits, hkind])
    | _ =>
      refine performs_plain (by rw [hkind]; rfl) fun env looping s ctx hin hk => ?_
      rcases exists_expr flavor (.node p parts [] fits inside .nil) s ctx hk with
        ⟨_, _, _, _, _, h, hspends, hk'⟩
      rw [Rules.stmt.eq_def]
      simp only [stmt?, hkind]
      exact ⟨_, _, _, _, _, rfl, .expression h, hspends, hk'⟩

section Program

variable {ss : List Tree} {root : Tree}

theorem exists_bindParams (function : Bytes) (params : List Param) (reg : Nat) (s : Output)
    (ctx : Context) (hin : ∃ fn, ctx.function = some fn) : ∃ c syms ctx',
      Ends (bindParams function reg params) s ctx c s ctx' ∧ marks c = [] ∧
        Binds params ctx syms ctx' ∧
        ctx.Spends ctx' (paramWords params) (paramIssues function reg params) := by
  induction params generalizing reg ctx with
  | nil => exact ⟨_, _, _, ends_pure, rfl, .nil, .refl _⟩
  | cons param _ ih =>
    rcases hin with ⟨fn, hfn⟩
    have hfn1 := function_declaring ctx fn param.name param.type
    have hdeclared := Spends.declaring hfn param.name param.type
    rw [paramIssues]
    by_cases hover : 8 < reg + param.type.rep.words
    · rcases ih reg ((ctx.declaring fn param.name param.type).reporting
        [⟨.funcDecl, .parameterOverflow param.name function⟩]) ⟨_, hfn1⟩ with
        ⟨c, syms, ctx', hends, hmarks, hbinds, hspends⟩
      refine ⟨c, _, ctx', ends_bind (ends_declareLocal hfn) ?_, hmarks, .cons hfn hbinds, ?_⟩
      · rw [if_pos hover]
        exact ends_bind ends_limit hends
      · have hall := hdeclared.trans (Spends.reporting.trans hspends)
        rw [Nat.zero_add] at hall
        rw [if_pos hover]
        exact hall
    · rcases ih (reg + param.type.rep.words) (ctx.declaring fn param.name param.type) ⟨_, hfn1⟩ with
        ⟨c, syms, ctx', hends, hmarks, hbinds, hspends⟩
      rw [← reporting_nil (ctx.declaring fn param.name param.type)] at hbinds
      refine ⟨storeParam reg (.localVar param.name param.type fn.nextSlot) ++ c, _, ctx',
        ends_bind (ends_declareLocal hfn) ?_, ?_, .cons hfn hbinds, ?_⟩
      · rw [if_neg hover]
        exact ends_bind hends ends_pure
      · rw [marks_append, marks_storeParam, hmarks]
        rfl
      · rw [if_neg hover]
        exact hdeclared.trans hspends

theorem exists_introduces (hf : Tree.Formed ss) (env : Context) (s : Output) (ctx : Context)
    (hscopes : ctx.scopes = []) (hk : ctx.Agrees Eq env) :
    ∃ userMain s' ctx', Introduces ss (s, ctx) userMain (s', ctx') ∧ ctx'.scopes = [] ∧
      ctx.Spends ctx' 0 [] ∧ ctx'.Agrees Eq ((ofTrees ss).foldl Context.declareTop env) := by
  induction hf generalizing env s ctx with
  | nil => exact ⟨_, _, _, .nil, hscopes, .refl _, hk⟩
  | cons p ts _ _ children _ _ ih =>
    rw [ofTrees, foldl_cons]
    by_cases hdeclares : p.kind.isDeclaration = true
    · rw [ofTree_declaration hdeclares ts]
      cases hkind : p.kind with
      | funcDecl =>
        rcases ih (env.declareHere (.ofFunction p.name p.params p.result [])) s
          (ctx.declareGlobally (functionSymbol p)) hscopes
          (hk.declareGlobally rfl ⟨rfl, rfl, rfl, rfl⟩ hscopes) with
          ⟨_, _, _, h, hs, hspends, hk'⟩
        simp only [Context.declareTop, hkind]
        exact ⟨_, _, _, .function hkind h, hs, hspends.of_declareGlobally, hk'⟩
      | classDecl =>
        rcases ih (env.declareHere (.ofClass p.name p.fields)) s
          (ctx.declareHere (.ofClass p.name p.fields)) (by
            rwa [← declareGlobally_eq _ _ hscopes]) (hk.declareHere rfl ⟨rfl, rfl, rfl, rfl⟩) with
          ⟨_, _, _, h, hs, hspends, hk'⟩
        simp only [Context.declareTop, hkind]
        exact ⟨_, _, _, .classDecl hkind h, hs, (Spends.declareHere _ _).trans hspends, hk'⟩
      | varDecl =>
        rcases ih (env.declareHere (.staticVar p.name (env.varType p (ofTrees ts)) []))
          (s.withStorage (globalStorage p) ((env.varType p (ofTrees ts)).rep.words * 8))
          (ctx.declareGlobally (.staticVar p.name (env.varType p (ofTrees ts))
            (globalStorage p))) hscopes
          (hk.declareGlobally rfl ⟨rfl, rfl, rfl, rfl⟩ hscopes) with
          ⟨_, _, _, h, hs, hspends, hk'⟩
        simp only [Context.declareTop, hkind]
        exact ⟨_, _, _, .varDecl hkind (hk.topType p children) h, hs, hspends.of_declareGlobally, hk'⟩
      | _ =>
        rw [hkind] at hdeclares
        cases hdeclares
    · have hother := eq_false_of_ne_true hdeclares
      rw [env.declareTop_other (.ofTree (.node p ts)) (by rwa [kind_ofTree])]
      rcases ih env s ctx hscopes hk with ⟨_, _, _, h, hs, hspends, hk'⟩
      exact ⟨_, _, _, .other hother h, hs, hspends, hk'⟩

theorem exists_defines {p : Payload} {body : Tree} (hkind : p.kind = .funcDecl)
    (hf : Tree.Formed [body]) (hknown : env.Knows p.name) (s : Output) (ctx : Context)
    (hscopes : ctx.scopes = []) (hk : ctx.Agrees Eq env) : ∃ frame c s' ctx',
      Defines flavor p body (s, ctx) frame c (s', ctx') ∧ ctx'.scopes = [] ∧
        ctx.Spends ctx' 0 (rules.function env (.node p (ofTrees [body]))) ∧
        ctx'.Agrees Eq env := by
  rcases hk.known hknown with ⟨sym, hsym, -⟩
  rcases hf.allWords.1 body (by simp) with ⟨n, hn⟩
  have hslots := (slots_ofTrees [body]).1 body (by simp) n hn
  let begun := ctx.beginning p.name p.result
  have hin : begun.Inside false := inside_beginning ctx _ _
  rcases exists_bindParams p.name p.params 0 s begun ⟨_, rfl⟩ with
    ⟨_, _, ctx1, hbound, hmarks, hbinds, hspends⟩
  rcases performs_of_formed flavor hf.terms.1 (.ofTree body) (by simp [ofTrees]) _ false s ctx1
    (hin.advances hbinds.advances) (hbinds.agrees hk) with
    ⟨inner, _, _, s2, ctx2, hinner, hbody, hspends', -⟩
  have hadvances := hbinds.advances.trans hbody.advances
  have hall := hspends.trans hspends'
  have hbegun : begun.scopes = [] :: ctx.scopes := rfl
  rcases hadvances.scopes hbegun with ⟨scope, hscopes2⟩
  rcases hadvances.function rfl with ⟨used, -, hfn⟩
  have hfits : used ≤ n + paramWords p.params := by
    have htaken := hall.slots
    rw [slotsTaken_eq hfn] at htaken
    have hzero : begun.slotsTaken = 0 := rfl
    dsimp only at htaken
    omega
  refine ⟨_, _, _, _, .mk hsym hn hbinds hmarks hinner hbody hfn hfits hscopes2 rfl hbound,
    hscopes, ⟨hall.1, Nat.zero_le _, ?_⟩, hk.congr rfl (hadvances.ended hscopes hscopes2).2⟩
  simp only [ofTrees, Rules.function, if_pos hkind]
  exact hall.limitations

theorem exists_functions (hf : Tree.Formed ss)
    (hknown : ∀ p ts, Tree.node p ts ∈ ss → p.kind = .funcDecl → env.Knows p.name) (s : Output)
    (ctx : Context) (hscopes : ctx.scopes = []) (hk : ctx.Agrees Eq env) : ∃ fs s' ctx',
      Functions flavor ss (s, ctx) fs (s', ctx') ∧ ctx'.scopes = [] ∧
        ctx.Spends ctx' 0 ((ofTrees ss).flatMap (rules.function env)) ∧
        ctx'.Agrees Eq env := by
  induction hf generalizing s ctx with
  | nil => exact ⟨_, _, _, .nil, hscopes, .refl _, hk⟩
  | cons p ts _ fits children _ _ ih =>
    have hrest := ih fun q vs hmem => hknown q vs (by simp [hmem])
    rw [ofTrees, flatMap_cons]
    by_cases hkind : p.kind = .funcDecl
    · have hlen : ts.length = 1 := by simpa [Payload.Fits, hkind] using fits
      rcases length_eq_one_iff.mp hlen with ⟨body, rfl⟩
      rcases exists_defines hkind children (hknown p [body] (by simp) hkind) s ctx hscopes hk with
        ⟨_, _, s1, ctx1, hdefines, hscopes1, hspends, hk1⟩
      rcases hrest s1 ctx1 hscopes1 hk1 with ⟨_, _, _, hfunctions, hscopes2, hspends', hk2⟩
      rw [ofTree_declaration (by rw [hkind]; rfl)]
      exact ⟨_, _, _, .function hkind hdefines hfunctions, hscopes2, hspends.trans hspends', hk2⟩
    · rcases hrest s ctx hscopes hk with ⟨_, _, _, hfunctions, hscopes2, hspends', hk2⟩
      rw [rules.function_other env _ (by rwa [kind_ofTree])]
      exact ⟨_, _, _, .other hkind hfunctions, hscopes2, hspends', hk2⟩

theorem exists_enters (hf : Tree.Formed ss) (env : Context)
    (hknown : ∀ p ts, Tree.node p ts ∈ ss → p.kind = .varDecl → env.Knows p.name) (s : Output)
    (ctx : Context) (hin : ctx.Inside false) (hk : ctx.Agrees Eq env) : ∃ c steps s' ctx',
      Enters flavor ss (s, ctx) c steps (s', ctx') ∧
        ctx.Spends ctx' (allSlots (ofTrees (ss.filter fun s => !s.isVar)))
          (rules.topStatements env (ofTrees ss)) := by
  induction hf generalizing env s ctx with
  | nil => exact ⟨_, _, _, _, .nil, (Spends.refl _).mono (Nat.zero_le _)⟩
  | cons p ts _ fits children _ _ ih =>
    rw [ofTrees, Rules.topStatements, kind_ofTree]
    by_cases hdeclares : p.kind.isDeclaration = true
    · have hrest := ih env fun q vs hmem => hknown q vs (by simp [hmem])
      rw [if_pos hdeclares]
      by_cases hvar : p.kind = .varDecl
      · rcases hk.known (hknown p ts (by simp) hvar) with ⟨sym, hsym, -⟩
        rw [filter_cons_of_neg (by simp [Tree.isVar, Tree.payload?, hvar]),
          ofTree_declaration hdeclares ts]
        cases ts with
        | nil =>
          rcases hrest s ctx hin hk with ⟨_, _, _, _, h, hspends⟩
          exact ⟨_, _, _, _, .varZero hvar hsym h, by
            rwa [ofTrees, rules.topStatement_varDecl_nil env hvar]⟩
        | cons =>
          have hinit := children.terms.1.uncons.1
          rcases exists_expr flavor hinit s ctx hk with ⟨_, _, _, s1, ctx1, h, hspends, hk1⟩
          rcases hrest s1 ctx1 (hin.advances h.kept.advances) hk1 with ⟨_, _, _, _, h', hspends'⟩
          refine ⟨_, _, _, _, .varInit hvar hsym h h', ?_⟩
          rw [ofTrees, rules.topStatement_varDecl_cons env hvar]
          exact (hspends.trans hspends').mono (by omega)
      · have hother := Kind.declared_of_ne_varDecl hdeclares hvar
        rcases hrest s ctx hin hk with ⟨_, _, _, _, h, hspends⟩
        rw [rules.topStatement_declared env _ (by rwa [kind_ofTree])]
        refine ⟨_, _, _, _, .declared hother h, hspends.mono ?_⟩
        rw [filter_cons_of_pos (by simp [Tree.isVar, Tree.payload?, hvar]), ofTrees]
        exact Nat.le_add_left _ _
    · have hother := eq_false_of_ne_true hdeclares
      have hvar : p.kind ≠ .varDecl := fun h => hdeclares (by rw [h]; rfl)
      rw [if_neg hdeclares, rules.topStatement_other env _ (by rwa [kind_ofTree]),
        filter_cons_of_pos (by simp [Tree.isVar, Tree.payload?, hvar]), ofTrees]
      have hself : Tree.Formed [.node p ts] := .cons p ts [] fits children .nil
      rcases performs_of_formed flavor hself.terms.1 (.ofTree (.node p ts)) (by simp [ofTrees])
        env false s ctx hin hk with ⟨inner, _, _, s1, ctx1, hinner, h, hspends, hk1⟩
      rcases ih (env.after (.ofTree (.node p ts))) (fun q vs hmem hkind =>
        Knows.after (.ofTree (.node p ts)) env (hknown q vs (by simp [hmem]) hkind))
        s1 ctx1 (hin.advances h.advances) hk1 with ⟨_, _, _, _, h', hspends'⟩
      exact ⟨_, _, _, _, .stmt hother hinner h h', hspends.trans hspends'⟩

theorem exists_entry (userMain : Option Symbol) (hf : Tree.Formed [root])
    (hknown : ∀ p ts, Tree.node p ts ∈ root.statements → p.kind = .varDecl → env.Knows p.name)
    (s : Output) (ctx : Context) (hk : ctx.Agrees Eq env) :
    ∃ frame c s' ctx', Entry flavor root userMain (s, ctx) frame c (s', ctx') ∧
      ctx.Spends ctx' 0 (rules.topStatements env (ofTrees root.statements)) := by
  rcases hf.entryWords with ⟨words, hwords⟩
  have hslots := (slots_ofTrees _).2 words hwords
  let begun := ctx.beginning "main" .integer
  rcases exists_enters hf.statements env hknown s begun (inside_beginning ctx _ _) hk with
    ⟨_, _, s2, ctx2, hbody, hspends⟩
  have hbegun : begun.scopes = [] :: ctx.scopes := rfl
  rcases hbody.advances.scopes hbegun with ⟨scope, hscopes2⟩
  rcases hbody.advances.function rfl with ⟨used, -, hfn⟩
  have hfits : used ≤ words := by
    have htaken := hspends.slots
    rw [slotsTaken_eq hfn] at htaken
    have hzero : begun.slotsTaken = 0 := rfl
    rw [hzero, Nat.zero_add] at htaken
    exact Nat.le_trans htaken hslots
  exact ⟨_, _, _, _, .mk hwords hbody hfn hfits hscopes2 rfl, hspends.1, Nat.zero_le _, hspends.3⟩

/-- Programs. -/
theorem generates_of_formed (flavor : Flavor) (hf : Tree.Formed [root]) :
    ∃ fs out ctx, Generates flavor root fs (out, ctx) ∧ ctx.limitations =
      (rules.program (ofTrees root.statements)).map (Issue.limitation target) := by
  rcases exists_introduces hf.statements { target := [] } {} { target := target } rfl
    (fun _ => Or.inl ⟨rfl, rfl⟩) with ⟨userMain, s1, ctx1, hintroduced, hscopes1, hspends1, hk1⟩
  rcases exists_functions hf.statements (fun p ts h hkind => ofProgram_knows h (Or.inl hkind)) s1 ctx1
    hscopes1 hk1 with ⟨_, s2, ctx2, hfunctions, -, hspends2, hk2⟩
  rcases exists_entry userMain hf (fun p ts h hkind => ofProgram_knows h (Or.inr hkind)) s2 ctx2
    hk2 with ⟨_, _, s3, ctx3, hentry, hspends3⟩
  exact ⟨_, s3, ctx3, .mk hintroduced hfunctions hentry,
    ((hspends1.trans hspends2).trans hspends3).limitations⟩

theorem compile_formed (flavor : Flavor) (hf : Tree.Formed [root]) :
    ∃ text, compile flavor root =
      .ok (text, (rules.program (ofTrees root.statements)).map (Issue.limitation target)) := by
  rcases generates_of_formed flavor hf with ⟨fs, out, ctx, h, hlimits⟩
  exact ⟨out.text flavor, by rw [h.compile_eq, hlimits]⟩

end Program

end Codegen.Arm64
