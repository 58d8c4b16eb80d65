import Codegen.Proofs.Arm64.Effects

/-!
# What the AArch64 Backend Cannot Lower

The rules of this backend, and that it lowers every formed expression with the issues that its
rules find, to a value of the representation that they say.
-/

namespace Codegen.Arm64

open Rules List

variable {args : List Term} {p : Payload}

/-- How many arguments fit in registers, from their findings. -/
def fittingArgs (words : Nat) : List Finding → Nat
  | [] => 0
  | f :: rest =>
    if 8 < words + f.type.rep.words then 0
    else fittingArgs (words + f.type.rep.words) rest + 1

def paramIssues (function : Bytes) (reg : Nat) : List Param → List Issue
  | [] => []
  | param :: rest =>
    if 8 < reg + param.type.rep.words then
      ⟨.funcDecl, .parameterOverflow param.name function⟩ :: paramIssues function reg rest
    else paramIssues function (reg + param.type.rep.words) rest

/-- What this backend makes of findings. An operand is lowered before its operator is
    refused, but not if it is fat; what cannot be printed is not lowered at all. -/
def rules : Rules where
  print f := if f.type = .array || f.type = .void then [⟨f.kind, .printOf f.type⟩] else f.issues
  length kind f := f.issues ++ if f.rep = .fat then [] else [⟨kind, .lengthArgument⟩]
  call kind name _ args :=
    (if fittingArgs 0 args < args.length then [⟨kind, .argumentOverflow name⟩] else [])
      ++ (args.take (fittingArgs 0 args)).reverse.flatMap Finding.issues
  result sym _ := sym.result.rep
  binary p l r :=
    if l.type.rep = .fat || r.type.rep = .fat then [⟨p.kind, .operatorOn p.op l.type r.type⟩]
    else l.issues ++ r.issues ++ p.operatorIssues l.type r.type
  unary p f := f.issues ++ p.unaryIssues f.type f.rep
  fit f _ := f.issues
  params function := paramIssues function 0

open Context

variable {flavor : Flavor} {env : Context}

theorem exists_supplies (strings : List (Bytes × Bytes)) (s : Output) (ctx : Context) :
    ∃ st', Supplies strings (s, ctx) st' ∧ ctx.Spends st'.2 0 [] := by
  induction strings generalizing s ctx with
  | nil => exact ⟨_, .nil, .refl _⟩
  | cons entry _ ih =>
    by_cases h : entry.1 ∈ ctx.helpers
    · rcases ih s ctx with ⟨st', hrest, hspends⟩
      exact ⟨st', .old h hrest, hspends⟩
    · rcases ih (s.withConstant ⟨entry.1, entry.2, true⟩) (ctx.claiming entry.1) with
        ⟨st', hrest, hspends⟩
      exact ⟨st', .new h hrest, hspends.1, hspends.2, hspends.3⟩

theorem exists_requests (printer : Printer) (s : Output) (ctx : Context) :
    ∃ s' ctx', Requests flavor printer (s, ctx) (s', ctx') ∧ ctx.Spends ctx' 0 [] := by
  by_cases h : printer.symbol ∈ ctx.helpers
  · exact ⟨s, ctx, .old h, .refl _⟩
  · rcases exists_supplies printer.strings s (ctx.claiming printer.symbol) with
      ⟨⟨s', ctx'⟩, hstrings, hspends⟩
    exact ⟨_, ctx', .new h hstrings, hspends.1, hspends.2, hspends.3⟩

/-- Wherever the names are those of the environment, the term is lowered with the
    issues and the representation that were found. -/
def Lowers (flavor : Flavor) (env : Context) (t : Term) : Prop :=
  ∀ s ctx, ctx.Agrees Eq env → ∃ c reads s' ctx',
    Produces flavor (.expr t) (s, ctx) ⟨c, [(rules.survey env t).rep], reads⟩ (s', ctx') ∧
      ctx.Spends ctx' 0 (rules.survey env t).issues

def LowersParts (flavor : Flavor) (env : Context) (t : Term) : Prop :=
  ∀ q parts, t = .node q parts → ∀ u ∈ parts, Lowers flavor env u

theorem run_fitting {ctx : Context} (hf : Term.Formed args) (words : Nat) (hk : ctx.Agrees Eq env) :
    (fitting words args).run ctx = .ok (fittingArgs words (rules.surveys env args), ctx) := by
  induction args generalizing words with
  | nil => rfl
  | cons arg _ ih =>
    rw [fitting, surveys, fittingArgs, rules.survey_type, StateT.run_bind, run_typeOf hk hf.uncons.1]
    change (if 8 < words + (env.typed arg).rep.words then (pure 0 : Gen Nat) else _).run ctx = _
    split_ifs
    · rfl
    · rw [StateT.run_bind, ih hf.uncons.2]
      rfl

theorem exists_pushes (h : ∀ t ∈ args, Lowers flavor env t) (count : Nat) (s : Output)
    (ctx : Context) (hk : ctx.Agrees Eq env) :
    ∃ c reps reads s' ctx',
      Produces flavor (.pushes count args) (s, ctx) ⟨c, reps, reads⟩ (s', ctx') ∧
        ctx.Spends ctx' 0
          (((rules.surveys env args).take count).reverse.flatMap Finding.issues) := by
  induction args generalizing count with
  | nil =>
    rw [surveys, take_nil]
    exact ⟨_, _, _, _, _, .pushNone (.inr rfl), .refl _⟩
  | cons arg _ ih =>
    cases count with
    | zero => exact ⟨_, _, _, _, _, .pushNone (.inl rfl), .refl _⟩
    | succ count =>
      rcases ih (fun t ht => h t (by simp [ht])) count with ⟨_, _, _, s1, ctx1, hrest, hspends⟩
      rcases h arg (by simp) s1 ctx1 (hk.kept hrest.kept) with ⟨_, _, _, _, harg, hspends'⟩
      refine ⟨_, _, _, _, _, .push hrest harg, ?_⟩
      rw [surveys, take_succ_cons, reverse_cons, flatMap_append,
        flatMap_singleton]
      exact hspends.trans hspends'

theorem exists_prints (hf : Term.Formed args) (h : ∀ t ∈ args, Lowers flavor env t) (s : Output)
    (ctx : Context) (hk : ctx.Agrees Eq env) :
    ∃ c reads s' ctx', Produces flavor (.prints args) (s, ctx) ⟨c, [], reads⟩ (s', ctx') ∧
      ctx.Spends ctx' 0 ((rules.surveys env args).flatMap rules.print) := by
  induction args generalizing s ctx with
  | nil => exact ⟨_, _, _, _, .printNone, .refl _⟩
  | cons arg _ ih =>
    have hrest := ih hf.uncons.2 (fun t ht => h t (by simp [ht]))
    have htype := hk.typeOf hf.uncons.1 arg (by simp)
    have hprint : rules.print (rules.survey env arg) =
        if env.typed arg = .array ∨ env.typed arg = .void then
          [⟨arg.kind, .printOf (env.typed arg)⟩]
        else (rules.survey env arg).issues := by
      rw [← rules.survey_type, ← rules.survey_kind env]
      simp [rules]
    rw [surveys, flatMap_cons, hprint]
    split_ifs with hrefused
    · rcases hrest s _ (hk.reporting _) with ⟨_, _, _, _, hprints, hspends⟩
      exact ⟨_, _, _, _, .printRefused htype hrefused hprints, Spends.reporting.trans hspends⟩
    · rcases h arg (by simp) s ctx hk with ⟨_, _, s1, ctx1, harg, hspends⟩
      rcases exists_requests (.ofTy (env.typed arg)) s1 ctx1 with ⟨s2, ctx2, hhelper, hspends'⟩
      rcases hrest s2 ctx2 ((hk.kept harg.kept).kept hhelper.kept) with ⟨_, _, _, _, hprints, hspends''⟩
      exact ⟨_, _, _, _, .printValue htype hrefused harg hhelper rfl hprints,
        hspends.trans (hspends'.trans hspends'')⟩

theorem exists_elements {parts : List Term} (hf : Term.Formed parts)
    (h : ∀ t ∈ parts, Lowers flavor env t) (storage : Bytes) (index : Nat) (s : Output)
    (ctx : Context) (hk : ctx.Agrees Eq env) :
    ∃ c reads s' ctx',
      Produces flavor (.elements storage index parts) (s, ctx) ⟨c, [], reads⟩ (s', ctx') ∧
        ctx.Spends ctx' 0 ((rules.surveys env parts).flatMap Finding.element) := by
  induction parts generalizing s ctx index with
  | nil => exact ⟨_, _, _, _, .elementsNone, .refl _⟩
  | cons t _ ih =>
    have hrest := ih hf.uncons.2 (fun t ht => h t (by simp [ht])) (index + 1)
    rw [surveys, flatMap_cons, Finding.element]
    rcases h t (by simp) s ctx hk with ⟨_, _, s1, ctx1, ht, hspends⟩
    have hk1 := hk.kept ht.kept
    cases hrep : (rules.survey env t).rep with rw [hrep] at ht
    | fat =>
      rcases hrest s1 _ (hk1.reporting _) with ⟨_, _, _, _, helements, hspends'⟩
      rw [rules.survey_kind, rules.survey_type]
      exact ⟨_, _, _, _, .elementFat ht (hk1.typeOf hf.uncons.1 t (by simp)) helements,
        (hspends.trans .reporting).trans hspends'⟩
    | scalar =>
      rcases hrest s1 ctx1 hk1 with ⟨_, _, _, _, helements, hspends'⟩
      exact ⟨_, _, _, _, .elementScalar ht helements, (hspends.trans (.refl _)).trans hspends'⟩

theorem lowers_call (p : Payload) {name : Bytes} (hf : Term.Formed args)
    (h : ∀ t ∈ args, Lowers flavor env t) (hprint : name ≠ "print") (hlength : name ≠ "length") :
    Lowers flavor env (.call p (some name) args) := by
  intro s ctx hk
  simp only [survey, called, Option.getD_some, if_neg hprint, if_neg hlength]
  rcases hk.funcNamed? name with ⟨hnone, hnone'⟩ | ⟨a, b, hsome, hsome', hsym⟩
  · rw [hnone']
    exact ⟨_, _, _, _, .unresolved hprint hlength hnone, .reporting⟩
  · rw [hsome']
    have hlen : (rules.surveys env args).length = args.length := by
      rw [rules.surveys_eq_map, length_map]
    rcases exists_pushes h (fittingArgs 0 (rules.surveys env args)) s _ (hk.reporting _) with
      ⟨_, _, _, _, _, hpushes, hspends⟩
    have hcall := Produces.call (p := p) hprint hlength hsome (run_fitting hf 0 hk) rfl hpushes
    rw [hsym.result] at hcall
    refine ⟨_, _, _, _, hcall, ?_⟩
    rw [← hlen] at hspends
    exact Spends.reporting.trans hspends

theorem lowers_length (p : Payload) (h : ∀ t ∈ args, Lowers flavor env t) :
    Lowers flavor env (.call p (some "length") args) := by
  intro s ctx hk
  simp only [survey, called]
  rcases args with _ | ⟨arg, _ | ⟨_, _⟩⟩
  case nil | cons.cons =>
    exact ⟨_, _, _, _, .lengthArity (by simp), .reporting⟩
  case cons.nil =>
    rcases h arg (by simp) s ctx hk with ⟨_, _, _, _, harg, hspends⟩
    have hlength : rules.length p.kind (rules.survey env arg) = (rules.survey env arg).issues ++
        if (rules.survey env arg).rep = .fat then [] else [⟨p.kind, .lengthArgument⟩] := rfl
    simp only [surveys, hlength]
    cases hrep : (rules.survey env arg).rep with rw [hrep] at harg
    | fat => exact ⟨_, _, _, _, .lengthFat harg, hspends.trans (.refl _)⟩
    | scalar => exact ⟨_, _, _, _, .lengthScalar harg, hspends.trans .reporting⟩

theorem lowers_ident (hkind : p.kind = .ident) (parts : List Term) :
    Lowers flavor env (.node p parts) := by
  intro s ctx hk
  have hf : Term.Formed [.node p []] :=
    .node p [] [] (by simp [Payload.Fits, hkind]) .nil .nil
  simp only [survey, inspected, hkind]
  rcases hk.varNamed? p.name with ⟨hnone, hnone'⟩ | ⟨a, b, hsome, hsome', hsym⟩
  · rw [hnone', ← hkind]
    exact ⟨_, _, _, _, .unknown hkind hnone ((hk.reporting _).typeOf hf _ (by simp)),
      .reporting⟩
  · rw [hsome']
    dsimp only
    rw [← hsym.type]
    exact ⟨_, _, _, _, .ident hkind hsome, .refl _⟩

theorem lowers_binary (hkind : p.kind = .binary) {left right : Term}
    (hf : Term.Formed [left, right]) (hleft : Lowers flavor env left)
    (hright : Lowers flavor env right) : Lowers flavor env (.node p [left, right]) := by
  intro s ctx hk
  have hbinary : rules.binary p (rules.survey env left) (rules.survey env right) =
      if (env.typed left).rep = .fat ∨ (env.typed right).rep = .fat then
        [⟨.binary, .operatorOn p.op (env.typed left) (env.typed right)⟩]
      else (rules.survey env left).issues ++ (rules.survey env right).issues
        ++ p.operatorIssues (env.typed left) (env.typed right) := by
    rw [← rules.survey_type env left, ← rules.survey_type env right, ← hkind]
    simp [rules]
  have hlt := hk.typeOf hf left (by simp)
  have hrt := hk.typeOf hf right (by simp)
  simp only [survey, surveys, inspected, hkind, hbinary]
  split_ifs with hfat
  · rw [← hkind]
    exact ⟨_, _, _, _, .binaryRefused hkind hlt hrt hfat, .reporting⟩
  · rcases hleft s ctx hk with ⟨l, _, s1, ctx1, hl, hspends⟩
    rcases hright s1 ctx1 (hk.kept hl.kept) with ⟨r, _, s2, ctx2, hr, hspends'⟩
    rcases plain_combine p (env.typed left) (env.typed right) l r with ⟨c, -, hop⟩
    exact ⟨_, _, _, _, .binary hkind hlt hrt hfat hl hr (hop s2 ctx2),
      (hspends.trans hspends').trans .reporting⟩

theorem lowers_unary (hkind : p.kind = .unary) {operand : Term} (hf : Term.Formed [operand])
    (h : Lowers flavor env operand) : Lowers flavor env (.node p [operand]) := by
  intro s ctx hk
  have hunary : rules.unary p (rules.survey env operand) = (rules.survey env operand).issues
      ++ p.unaryIssues (env.typed operand) (rules.survey env operand).rep := by
    rw [← rules.survey_type env operand]
    rfl
  simp only [survey, surveys, inspected, hkind, hunary]
  rcases h s ctx hk with ⟨l, _, s1, ctx1, hl, hspends⟩
  rcases plain_applyUnary p (env.typed operand) l (rules.survey env operand).rep with ⟨c, -, hop⟩
  exact ⟨_, _, _, _, .unary hkind (hk.typeOf hf operand (by simp)) hl (hop s1 ctx1),
    hspends.trans .reporting⟩

theorem exists_assign (kind : Kind) {target value : Term} (hf : Term.Formed [target, value])
    (htarget : LowersParts flavor env target) (hvalue : Lowers flavor env value) (s : Output)
    (ctx : Context) (hk : ctx.Agrees Eq env) :
    ∃ c reads s' ctx',
      Produces flavor (.assign kind [target, value]) (s, ctx) ⟨c, [], reads⟩ (s', ctx') ∧
        ctx.Spends ctx' 0
          (rules.assigned env kind [target, value] (rules.surveys env [target, value])) := by
  have hrefused (hplace : target.isPlace = false) (hnode : target ≠ .missing) :
      ∃ c reads s' ctx',
        Produces flavor (.assign kind [target, value]) (s, ctx) ⟨c, [], reads⟩ (s', ctx') ∧
          ctx.Spends ctx' 0 [⟨kind, .assignmentTo target.kind⟩] :=
    ⟨_, _, _, _, .assignRefused hplace hnode, .reporting⟩
  simp only [surveys]
  cases hf with
  | call =>
    exact hrefused rfl (by simp)
  | node q _ _ fits =>
    rw [assigned]
    cases hkind : q.kind with
    | ident =>
      rcases hk.varNamed? q.name with ⟨hnone, hnone'⟩ | ⟨a, b, hsome, hsome', hsym⟩
      · rw [hnone']
        exact ⟨_, _, _, _, .assignUnresolved hkind hnone, .reporting⟩
      · rw [hsome']
        rcases hvalue s ctx hk with ⟨_, _, _, _, hv, hspends⟩
        exact ⟨_, _, _, _, .assignVariable hkind hsome hv, hspends⟩
    | index =>
      rcases fits.operands (by simp [hkind]) with ⟨base, index, rfl⟩
      have hissues : (rules.survey env (.node q [base, index])).issues =
          (rules.survey env base).issues ++ (rules.survey env index).issues := by
        simp [survey, surveys, inspected, hkind]
      simp only [hissues]
      rcases htarget q _ rfl base (by simp) s ctx hk with ⟨_, _, s1, ctx1, hb, hspends⟩
      have hk1 := hk.kept hb.kept
      rcases htarget q _ rfl index (by simp) s1 ctx1 hk1 with ⟨_, _, s2, ctx2, hi, hspends'⟩
      rcases hvalue s2 ctx2 (hk1.kept hi.kept) with ⟨_, _, _, _, hv, hspends''⟩
      exact ⟨_, _, _, _, .assignElement hkind hb hi hv, (hspends.trans hspends').trans hspends''⟩
    | _ =>
      dsimp only
      rw [← hkind]
      exact hrefused (by simp [Term.isPlace, hkind]) (by simp)

/-- Every formed expression. -/
theorem lowers_of_formed (flavor : Flavor) (env : Context) {ts : List Term}
    (hf : Term.Formed ts) :
    ∀ t ∈ ts, Lowers flavor env t ∧ LowersParts flavor env t := by
  refine hf.forall_mem (fun p callee args inside ihC => ?_) fun p parts fits inside ihC => ?_
  · refine ⟨?_, nofun⟩
    have hargs (t : Term) (h : t ∈ args) : Lowers flavor env t := (ihC t h).1
    by_cases hprint : callee = "print"
    · subst hprint
      intro s ctx hk
      rcases exists_prints inside hargs s ctx hk with ⟨_, _, _, _, hprints, hspends⟩
      exact ⟨_, _, _, _, .print hprints, hspends⟩
    by_cases hlength : callee = "length"
    · subst hlength
      exact lowers_length p hargs
    · exact lowers_call p inside hargs hprint hlength
  · have hparts (t : Term) (h : t ∈ parts) : Lowers flavor env t := (ihC t h).1
    refine ⟨?_, fun q parts' heq u hu => ?_⟩
    · cases hkind : p.kind with
      | ident => exact lowers_ident hkind parts
      | binary =>
        rcases fits.operands (by simp [hkind]) with ⟨left, right, rfl⟩
        exact lowers_binary hkind inside (hparts left (by simp)) (hparts right (by simp))
      | unary =>
        have hlen : parts.length = 1 := by simpa [Payload.Fits, hkind] using fits
        rcases length_eq_one_iff.mp hlen with ⟨operand, rfl⟩
        exact lowers_unary hkind inside (hparts operand (by simp))
      | array =>
        intro s ctx hk
        simp only [survey, inspected, hkind]
        rcases exists_elements inside hparts (arraySymbol s.arrays) 0 (s.withArray parts.length) ctx hk
          with ⟨_, _, _, _, helements, hspends⟩
        exact ⟨_, _, _, _, .array hkind helements, hspends⟩
      | index =>
        rcases fits.operands (by simp [hkind]) with ⟨base, index, rfl⟩
        intro s ctx hk
        simp only [survey, inspected, hkind]
        rcases hparts base (by simp) s ctx hk with ⟨_, _, s1, ctx1, hb, hspends⟩
        rcases hparts index (by simp) s1 ctx1 (hk.kept hb.kept) with ⟨_, _, _, _, hi, hspends'⟩
        exact ⟨_, _, _, _, .index hkind hb hi, hspends.trans hspends'⟩
      | assign =>
        rcases fits.operands (by simp [hkind]) with ⟨target, value, rfl⟩
        intro s ctx hk
        simp only [survey, inspected, hkind]
        rcases exists_assign p.kind inside (ihC target (by simp)).2 (hparts value (by simp)) s ctx hk
          with ⟨_, _, _, _, hassign, hspends⟩
        rw [← hkind]
        exact ⟨_, _, _, _, .assign hkind hassign, hspends⟩
      | string =>
        intro s ctx hk
        simp only [survey, inspected, hkind]
        exact ⟨_, _, _, _, .string hkind rfl, rfl, Nat.le_refl _, by simp⟩
      | integer | decimal | boolean =>
        intro s ctx hk
        simp only [survey, inspected, hkind]
        exact ⟨_, _, _, _, .literal (by simp only [literalCode?, hkind]; rfl), .refl _⟩
      | _ =>
        intro s ctx hk
        simp only [survey, inspected, hkind]
        rw [← hkind]
        exact ⟨_, _, _, _, .other (by rw [hkind]; rfl), .reporting⟩
    · cases heq
      exact hparts u hu

end Codegen.Arm64
