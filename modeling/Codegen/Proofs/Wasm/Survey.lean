import Codegen.Proofs.Wasm.Effects

/-!
# What the WebAssembly Backend Cannot Lower

The rules of this backend, and that it lowers every formed expression with the issues
that its rules find. `expr` says how many cells an expression leaves; the survey only
knows whether a value is one word or two, which is what `settle` makes of the cells.

Where an operator or a type is refused, this backend leaves the operands out, so a
refusal hides what is not supported inside of them. It wants as many arguments as there
are parameters, and every value in the representation of its destination.
-/

namespace Codegen.Wasm

open Rules

variable {t : Term} {p : Payload} {args : List Term}

def fitIssues (f : Finding) (type : Ty) : List Issue :=
  f.issues ++ if f.rep = type.rep then [] else [⟨f.kind, .representation f.rep type⟩]

/-- The issues of arguments as values of the types of parameters. -/
def passIssues : List Param → List Finding → List Issue
  | param :: params, f :: rest => fitIssues f param.type ++ passIssues params rest
  | _, _ => []

/-- What the backend makes of findings. -/
def rules : Rules where
  print f :=
    (if f.type = .decimal then [⟨f.kind, .decimalPrint⟩]
      else if f.type = .array || f.type = .void then [⟨f.kind, .printOf f.type⟩]
      else []) ++ f.issues
  length kind f :=
    if f.type = .text || f.type = .array then f.issues else [⟨kind, .lengthArgument⟩]
  call kind name sym args :=
    if args.length = sym.params.length then passIssues sym.params args
    else [⟨kind, .argumentCount name args.length sym.params.length⟩]
  result sym count := if count = sym.params.length then sym.result.rep else .scalar
  binary p l r :=
    if l.type.rep = .fat || r.type.rep = .fat then [⟨p.kind, .operatorOn p.op l.type r.type⟩]
    else
      match p.operatorIssues l.type r.type with
      | [] => l.issues ++ r.issues
      | refused => refused
  unary p f :=
    match p.unaryIssues f.type f.type.rep with
    | [] => f.issues
    | refused => refused
  fit := fitIssues
  params _ _ := []

open Context

variable {scratch : Nat} {env : Context}

theorem exists_requests (s : Output) (ctx : Context) :
    ∃ s' ctx', Requests (s, ctx) (s', ctx') ∧ ctx.Spends ctx' 0 [] := by
  by_cases h : printBoolName ∈ ctx.helpers
  · exact ⟨s, ctx, .old h, .refl _⟩
  · exact ⟨_, _, .new h rfl rfl, rfl, Nat.le_refl _, by simp [claiming]⟩

/-- Wherever the names are those of the environment, the term is lowered with the
    issues and the representation that were found. -/
def Lowers (scratch : Nat) (env : Context) (t : Term) : Prop :=
  ∀ s ctx, ctx.Agrees Eq env → ∃ c cells reads s' ctx',
    Produces scratch (.expr t) (s, ctx) ⟨c, cells, reads⟩ (s', ctx') ∧
      (settle (c, cells)).2 = (rules.survey env t).rep ∧
      ctx.Spends ctx' 0 (rules.survey env t).issues

def LowersParts (scratch : Nat) (env : Context) (t : Term) : Prop :=
  ∀ q parts, t = .node q parts → ∀ u ∈ parts, Lowers scratch env u

theorem settle_words (c : Code) (rep : Rep) : (settle (c, rep.words)).2 = rep := by
  cases rep <;> rfl

theorem spends_coercion {ctx ctx' : Context} {v : Code × Rep} (type : Ty)
    (hv : v.2 = (rules.survey env t).rep) (h : ctx.Spends ctx' 0 (rules.survey env t).issues) :
    ctx.Spends (ctx'.reporting (coercion t type v).2) 0 (rules.fit (rules.survey env t) type) := by
  have hfit : rules.fit (rules.survey env t) type =
      (rules.survey env t).issues ++ (coercion t type v).2 := by
    have hissues : (coercion t type v).2 =
        if v.2 = type.rep then [] else [⟨t.kind, .representation v.2 type⟩] := by
      unfold coercion
      split <;> rfl
    rw [hissues, hv, ← rules.survey_kind env]
    rfl
  rw [hfit]
  exact h.trans .reporting

theorem lowers_ident (hkind : p.kind = .ident) (parts : List Term) :
    Lowers scratch env (.node p parts) := by
  intro s ctx hk
  have hf : Term.Formed [.node p []] :=
    .node p [] [] (by simp [Payload.Fits, hkind]) .nil .nil
  simp only [survey, inspected, hkind]
  rcases hk.varNamed? p.name with ⟨hnone, hnone'⟩ | ⟨a, b, hsome, hsome', hsym⟩
  · rw [hnone', ← hkind]
    exact ⟨_, _, _, _, _, .unknown hkind hnone ((hk.reporting _).typeOf hf _ (by simp)),
      settle_words _ _, .reporting⟩
  · rw [hsome']
    dsimp only
    rw [← hsym.type]
    exact ⟨_, _, _, _, _, .ident hkind hsome, settle_words _ _, .refl _⟩

/-- An operator is lowered if its operands are. -/
theorem lowers_binary (hkind : p.kind = .binary) {left right : Term}
    (hf : Term.Formed [left, right]) (hleft : Lowers scratch env left)
    (hright : Lowers scratch env right) : Lowers scratch env (.node p [left, right]) := by
  intro s ctx hk
  have hbinary : rules.binary p (rules.survey env left) (rules.survey env right) =
      match refusals p (combination p (env.typed left) (env.typed right)) with
      | [] => (rules.survey env left).issues ++ (rules.survey env right).issues
      | refused => refused := by
    rw [refusals_combination, ← rules.survey_type env left, ← rules.survey_type env right]
    unfold rules
    dsimp only
    split
    · rfl
    · rfl
  have hlt := hk.typeOf hf left (by simp)
  have hrt := hk.typeOf hf right (by simp)
  simp only [survey, surveys, inspected, hkind, hbinary]
  cases hop : combination p (env.typed left) (env.typed right) with
  | error =>
    exact ⟨_, _, _, _, _, .binaryRefused hkind hlt hrt hop, rfl, .reporting⟩
  | ok =>
    rcases hleft s ctx hk with ⟨_, _, _, s1, ctx1, hl, -, hspends⟩
    rcases hright s1 ctx1 (hk.kept hl.kept) with ⟨_, _, _, _, _, hr, -, hspends'⟩
    exact ⟨_, _, _, _, _, .binary hkind hlt hrt hop hl hr, rfl, hspends.trans hspends'⟩

theorem lowers_unary (hkind : p.kind = .unary) {operand : Term} (hf : Term.Formed [operand])
    (h : Lowers scratch env operand) : Lowers scratch env (.node p [operand]) := by
  intro s ctx hk
  have hunary : rules.unary p (rules.survey env operand) =
      match refusals p (application p (env.typed operand)) with
      | [] => (rules.survey env operand).issues
      | refused => refused := by
    rw [refusals_application, ← rules.survey_type env operand]
    rfl
  have htype := hk.typeOf hf operand (by simp)
  simp only [survey, surveys, inspected, hkind, hunary]
  cases hop : application p (env.typed operand) with
  | error =>
    exact ⟨_, _, _, _, _, .unaryRefused hkind htype hop, rfl, .reporting⟩
  | ok =>
    rcases h s ctx hk with ⟨_, _, _, _, _, hl, -, hspends⟩
    exact ⟨_, _, _, _, _, .unary hkind htype hop hl, rfl, hspends⟩

theorem issues_of_stringText? {raw : Bytes} (h : stringText? t = some raw) :
    (rules.survey env t).issues = [] := by
  cases t with
  | node p =>
    have hkind : p.kind = .string := by
      by_cases hkind : p.kind = .string
      · exact hkind
      · rw [stringText?, if_neg hkind] at h
        cases h
    simp [survey, inspected, hkind]
  | _ => cases h

theorem exists_print (hf : Term.Formed [t]) (h : Lowers scratch env t) (s : Output) (ctx : Context)
    (hk : ctx.Agrees Eq env) : ∃ c reads s' ctx',
      Produces scratch (.print t) (s, ctx) ⟨c, 0, reads⟩ (s', ctx') ∧
        ctx.Spends ctx' 0 (rules.print (rules.survey env t)) := by
  have hprint : rules.print (rules.survey env t) =
      (if env.typed t = .decimal then [⟨t.kind, .decimalPrint⟩]
        else if env.typed t = .array || env.typed t = .void then
          [⟨t.kind, .printOf (env.typed t)⟩]
        else []) ++ (rules.survey env t).issues := by
    rw [← rules.survey_type, ← rules.survey_kind env]
    rfl
  have htype := hk.typeOf hf t (by simp)
  rcases h s ctx hk with ⟨_, _, _, s1, ctx1, ht, -, hspends⟩
  have hreported (is : List Issue) := h s (ctx.reporting is) (hk.reporting is)
  rw [hprint]
  generalize env.typed t = type at htype ⊢
  by_cases htext : type = .text
  · subst htext
    cases hraw : stringText? t with
    | some =>
      rw [issues_of_stringText? hraw]
      exact ⟨_, _, _, _, .printLiteral htype hraw rfl, rfl, Nat.le_refl _,
        (List.append_nil _).symm⟩
    | none => exact ⟨_, _, _, _, .printText htype hraw ht rfl, hspends⟩
  by_cases hboolean : type = .boolean
  · subst hboolean
    rcases exists_requests s1 ctx1 with ⟨_, _, hhelper, hspends'⟩
    refine ⟨_, _, _, _, .printBoolean htype ht hhelper, ?_⟩
    have hall := hspends.trans hspends'
    rwa [List.append_nil] at hall
  by_cases hdecimal : type = .decimal
  · subst hdecimal
    rcases hreported [⟨t.kind, .decimalPrint⟩] with ⟨_, _, _, _, _, ht', -, hspends'⟩
    exact ⟨_, _, _, _, .printDecimal htype ht', Spends.reporting.trans hspends'⟩
  rw [if_neg hdecimal]
  by_cases hrefused : type = .array ∨ type = .void
  · rcases hreported [⟨t.kind, .printOf type⟩] with ⟨_, _, _, _, _, ht', -, hspends'⟩
    rw [if_pos (by simpa using hrefused)]
    exact ⟨_, _, _, _, .printRefused htype hrefused ht', Spends.reporting.trans hspends'⟩
  · rw [if_neg (by simpa using hrefused)]
    exact ⟨_, _, _, _, .printInteger htype ⟨htext, hboolean, hdecimal, hrefused⟩ ht, hspends⟩

theorem exists_prints (hf : Term.Formed args) (h : ∀ t ∈ args, Lowers scratch env t) (s : Output)
    (ctx : Context) (hk : ctx.Agrees Eq env) :
    ∃ c reads s' ctx', Produces scratch (.prints args) (s, ctx) ⟨c, 0, reads⟩ (s', ctx') ∧
      ctx.Spends ctx' 0 ((rules.surveys env args).flatMap rules.print) := by
  induction args generalizing s ctx with
  | nil => exact ⟨_, _, _, _, .printsNone, .refl _⟩
  | cons arg _ ih =>
    rcases exists_print hf.uncons.1 (h arg (by simp)) s ctx hk with
      ⟨_, _, s1, ctx1, harg, hspends⟩
    rcases ih hf.uncons.2 (fun t ht => h t (by simp [ht])) s1 ctx1 (hk.kept harg.kept) with
      ⟨_, _, _, _, hargs, hspends'⟩
    exact ⟨_, _, _, _, .prints harg hargs, hspends.trans hspends'⟩

theorem exists_passes (h : ∀ t ∈ args, Lowers scratch env t) (params : List Param) (s : Output)
    (ctx : Context) (hk : ctx.Agrees Eq env) :
    ∃ c reads s' ctx', Produces scratch (.passes params args) (s, ctx) ⟨c, 0, reads⟩ (s', ctx') ∧
      ctx.Spends ctx' 0 (passIssues params (rules.surveys env args)) := by
  induction args generalizing s ctx params with
  | nil =>
    cases params <;> exact ⟨_, _, _, _, .passNone (.inr rfl), .refl _⟩
  | cons arg _ ih =>
    cases params with
    | nil => exact ⟨_, _, _, _, .passNone (.inl rfl), .refl _⟩
    | cons param params =>
      rcases h arg (by simp) s ctx hk with ⟨_, _, _, s1, ctx1, harg, hrep, hspends⟩
      rcases ih (fun t ht => h t (by simp [ht])) params s1 _ ((hk.kept harg.kept).reporting _) with
        ⟨_, _, _, _, hargs, hspends'⟩
      exact ⟨_, _, _, _, .pass harg rfl hargs, (spends_coercion param.type hrep hspends).trans hspends'⟩

theorem rep_of_not_hasResult {type : Ty} (h : type.hasResult = false) : type.rep = .scalar := by
  have hcases : type = .void ∨ type = .unknown := by
    by_cases hvoid : type = .void
    · exact Or.inl hvoid
    · refine Or.inr (Classical.byContradiction fun hunknown => ?_)
      rw [Ty.hasResult, bne_iff_ne.mpr hvoid, bne_iff_ne.mpr hunknown] at h
      cases h
  rcases hcases with rfl | rfl <;> decide

theorem settle_afterCall (c : Code) (scratch : Nat) (type : Ty) :
    (settle (c, (afterCall scratch type).2)).2 = type.rep := by
  unfold afterCall
  cases hvalue : type.hasResult with
  | false => exact (rep_of_not_hasResult hvalue).symm
  | true => cases hrep : type.rep <;> rfl

/-- A call is lowered if its arguments are. -/
theorem lowers_call (p : Payload) {name : Bytes} (h : ∀ t ∈ args, Lowers scratch env t)
    (hprint : name ≠ "print") (hlength : name ≠ "length") :
    Lowers scratch env (.call p (some name) args) := by
  intro s ctx hk
  simp only [survey, called, Option.getD_some, if_neg hprint, if_neg hlength]
  rcases hk.funcNamed? name with ⟨hnone, hnone'⟩ | ⟨a, b, hsome, hsome', hsym⟩
  · rw [hnone']
    exact ⟨_, _, _, _, _, .unresolved hprint hlength hnone, rfl, .reporting⟩
  · rw [hsome']
    have hlen : (rules.surveys env args).length = args.length := by
      rw [rules.surveys_eq_map, List.length_map]
    have hcall : rules.call p.kind name b (rules.surveys env args) =
        if args.length = a.params.length then passIssues a.params (rules.surveys env args)
        else [⟨p.kind, .argumentCount name args.length a.params.length⟩] := by
      rw [← hlen, hsym.params]
      rfl
    have hresult : rules.result b (rules.surveys env args).length =
        if args.length = a.params.length then a.result.rep else .scalar := by
      rw [hlen, hsym.params, hsym.result]
      rfl
    simp only [hcall, hresult]
    split_ifs with hcount
    · rcases exists_passes h a.params s ctx hk with ⟨_, _, _, _, hargs, hspends⟩
      exact ⟨_, _, _, _, _, .call hprint hlength hsome hcount hargs rfl,
        settle_afterCall _ _ _, hspends⟩
    · exact ⟨_, _, _, _, _, .callArity hprint hlength hsome hcount, rfl, .reporting⟩

theorem exists_elements {parts : List Term} (hf : Term.Formed parts)
    (h : ∀ t ∈ parts, Lowers scratch env t) (address : Int) (s : Output) (ctx : Context)
    (hk : ctx.Agrees Eq env) : ∃ c reads s' ctx',
      Produces scratch (.elements address parts) (s, ctx) ⟨c, 0, reads⟩ (s', ctx') ∧
        ctx.Spends ctx' 0 ((rules.surveys env parts).flatMap Finding.element) := by
  induction parts generalizing s ctx address with
  | nil => exact ⟨_, _, _, _, .elementsNone, .refl _⟩
  | cons t _ ih =>
    have hrest := ih hf.uncons.2 (fun t ht => h t (by simp [ht])) (address + 8)
    rw [surveys, List.flatMap_cons, Finding.element]
    rcases h t (by simp) s ctx hk with ⟨_, _, _, s1, ctx1, ht, hsettled, hspends⟩
    have hk1 := hk.kept ht.kept
    cases hrep : (rules.survey env t).rep with
    | fat =>
      rcases hrest s1 _ (hk1.reporting _) with ⟨_, _, _, _, helements, hspends'⟩
      rw [rules.survey_kind, rules.survey_type]
      exact ⟨_, _, _, _, .elementFat ht (hsettled.trans hrep)
        (hk1.typeOf hf.uncons.1 t (by simp)) helements,
        (hspends.trans .reporting).trans hspends'⟩
    | scalar =>
      rcases hrest s1 ctx1 hk1 with ⟨_, _, _, _, helements, hspends'⟩
      exact ⟨_, _, _, _, .elementScalar ht (hsettled.trans hrep) helements,
        (hspends.trans (.refl _)).trans hspends'⟩

/-- So is an assignment. -/
theorem exists_assign (kind : Kind) {target value : Term} (hf : Term.Formed [target, value])
    (htarget : LowersParts scratch env target) (hvalue : Lowers scratch env value) (s : Output)
    (ctx : Context) (hk : ctx.Agrees Eq env) : ∃ c reads s' ctx',
      Produces scratch (.assign kind [target, value]) (s, ctx) ⟨c, 0, reads⟩ (s', ctx') ∧
        ctx.Spends ctx' 0
          (rules.assigned env kind [target, value] (rules.surveys env [target, value])) := by
  have hrefused (hplace : target.isPlace = false) (hnode : target ≠ .missing) :
      ∃ c reads s' ctx',
        Produces scratch (.assign kind [target, value]) (s, ctx) ⟨c, 0, reads⟩ (s', ctx') ∧
          ctx.Spends ctx' 0 [⟨kind, .assignmentTo target.kind⟩] :=
    ⟨_, _, _, _, .assignRefused hplace hnode, .reporting⟩
  simp only [surveys]
  cases hf with
  | call =>
    exact hrefused rfl (by simp)
  | node q _ _ fits =>
    rw [assigned]
    cases hkind : q.kind with
    | ident =>
      rcases hk.varNamed? q.name with ⟨hnone, hnone'⟩ | ⟨a, b, hsome, hsome', hsym⟩
      · rw [hnone']
        exact ⟨_, _, _, _, .assignUnresolved hkind hnone, .reporting⟩
      · rw [hsome']
        dsimp only
        rw [← hsym.type]
        rcases hvalue s ctx hk with ⟨_, _, _, _, _, hv, hrep, hspends⟩
        exact ⟨_, _, _, _, .assignVariable hkind hsome hv rfl, spends_coercion _ hrep hspends⟩
    | index =>
      rcases fits.operands (by simp [hkind]) with ⟨base, index, rfl⟩
      have hissues : (rules.survey env (.node q [base, index])).issues =
          (rules.survey env base).issues ++ (rules.survey env index).issues := by
        simp [survey, surveys, inspected, hkind]
      simp only [hissues]
      rcases htarget q _ rfl base (by simp) s ctx hk with ⟨_, _, _, s1, ctx1, hb, -, hspends⟩
      have hk1 := hk.kept hb.kept
      rcases htarget q _ rfl index (by simp) s1 ctx1 hk1 with ⟨_, _, _, s2, ctx2, hi, -, hspends'⟩
      rcases hvalue s2 ctx2 (hk1.kept hi.kept) with ⟨_, _, _, _, _, hv, hrep, hspends''⟩
      exact ⟨_, _, _, _, .assignElement hkind hb hi hv rfl,
        (hspends.trans hspends').trans (spends_coercion _ hrep hspends'')⟩
    | _ =>
      dsimp only
      rw [← hkind]
      exact hrefused (by simp [Term.isPlace, hkind]) (by simp)

theorem lowers_length (p : Payload) (hf : Term.Formed args) (h : ∀ t ∈ args, Lowers scratch env t) :
    Lowers scratch env (.call p (some "length") args) := by
  intro s ctx hk
  simp only [survey, called]
  rcases args with _ | ⟨arg, _ | ⟨_, _⟩⟩
  case nil | cons.cons =>
    exact ⟨_, _, _, _, _, .lengthArity (by simp), rfl, .reporting⟩
  case cons.nil =>
    have hlength : rules.length p.kind (rules.survey env arg) =
        if env.typed arg = .text ∨ env.typed arg = .array then (rules.survey env arg).issues
        else [⟨p.kind, .lengthArgument⟩] := by
      rw [← rules.survey_type]
      simp [rules]
    have htype := hk.typeOf hf arg (by simp)
    simp only [surveys, hlength]
    by_cases hfat : env.typed arg = .text ∨ env.typed arg = .array
    · rcases h arg (by simp) s ctx hk with ⟨_, _, _, _, _, harg, -, hspends⟩
      rw [if_pos hfat]
      exact ⟨_, _, _, _, _, .length htype hfat harg, rfl, hspends⟩
    · rw [if_neg hfat]
      exact ⟨_, _, _, _, _, .lengthRefused htype hfat, rfl, .reporting⟩

/-- Every formed expression. -/
theorem lowers_of_formed (scratch : Nat) (env : Context) {ts : List Term}
    (hf : Term.Formed ts) : ∀ t ∈ ts, Lowers scratch env t ∧ LowersParts scratch env t := by
  refine hf.forall_mem (fun p callee args inside ihC => ?_) fun p parts fits inside ihC => ?_
  · refine ⟨?_, nofun⟩
    have hargs (t : Term) (h : t ∈ args) : Lowers scratch env t := (ihC t h).1
    by_cases hprint : callee = "print"
    · subst hprint
      intro s ctx hk
      rcases exists_prints inside hargs s ctx hk with ⟨_, _, _, _, hprints, hspends⟩
      exact ⟨_, _, _, _, _, .printCall hprints, rfl, hspends⟩
    by_cases hlength : callee = "length"
    · subst hlength
      exact lowers_length p inside hargs
    · exact lowers_call p hargs hprint hlength
  · have hparts (t : Term) (h : t ∈ parts) : Lowers scratch env t := (ihC t h).1
    refine ⟨?_, fun q parts' heq u hu => ?_⟩
    · cases hkind : p.kind with
      | ident => exact lowers_ident hkind parts
      | binary =>
        rcases fits.operands (by simp [hkind]) with ⟨left, right, rfl⟩
        exact lowers_binary hkind inside (hparts left (by simp)) (hparts right (by simp))
      | unary =>
        have hlen : parts.length = 1 := by simpa [Payload.Fits, hkind] using fits
        rcases List.length_eq_one_iff.mp hlen with ⟨operand, rfl⟩
        exact lowers_unary hkind inside (hparts operand (by simp))
      | array =>
        intro s ctx hk
        simp only [survey, inspected, hkind]
        rcases exists_elements inside hparts (ctx.data.reserve (8 * parts.length) 8).1 s
          { ctx with data := (ctx.data.reserve (8 * parts.length) 8).2 } hk with
          ⟨_, _, _, _, helements, hspends⟩
        exact ⟨_, _, _, _, _, .array hkind rfl helements, rfl, hspends.1, hspends.2, hspends.3⟩
      | index =>
        rcases fits.operands (by simp [hkind]) with ⟨base, index, rfl⟩
        intro s ctx hk
        simp only [survey, inspected, hkind]
        rcases hparts base (by simp) s ctx hk with ⟨_, _, _, s1, ctx1, hb, -, hspends⟩
        rcases hparts index (by simp) s1 ctx1 (hk.kept hb.kept) with
          ⟨_, _, _, _, _, hi, -, hspends'⟩
        exact ⟨_, _, _, _, _, .index hkind hb hi, rfl, hspends.trans hspends'⟩
      | assign =>
        rcases fits.operands (by simp [hkind]) with ⟨target, value, rfl⟩
        intro s ctx hk
        simp only [survey, inspected, hkind]
        rcases exists_assign p.kind inside (ihC target (by simp)).2 (hparts value (by simp)) s ctx
          hk with ⟨_, _, _, _, hassign, hspends⟩
        rw [← hkind]
        exact ⟨_, _, _, _, _, .assign hkind hassign, rfl, hspends⟩
      | string =>
        intro s ctx hk
        simp only [survey, inspected, hkind]
        exact ⟨_, _, _, _, _, .string hkind rfl, rfl, rfl, Nat.le_refl _, by simp⟩
      | integer | decimal | boolean =>
        intro s ctx hk
        simp only [survey, inspected, hkind]
        exact ⟨_, _, _, _, _, .literal (by simp only [literal?, hkind]; rfl), rfl, .refl _⟩
      | _ =>
        intro s ctx hk
        simp only [survey, inspected, hkind]
        rw [← hkind]
        exact ⟨_, _, _, _, _, .other (by rw [hkind]; rfl), rfl, .reporting⟩
    · cases heq
      exact hparts u hu

end Codegen.Wasm
