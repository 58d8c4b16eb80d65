import Codegen.Proofs.Compare
import Mathlib.Data.List.Induction

/-!
# Rewritten Programs

`Term.Recast` relates terms to their rewritings: the same nodes with related parts, except
where constants have been computed, where a product with two has become a sum, and where
the last statements of a block have been left out. The issues of the rewriting then follow
from those of the original, for rules that are steady.

The proof goes through a program three times, as the survey does. Expressions come first;
what is shown of them holds in any two environments whose names agree, since a variable
that was declared with a blurred type is blurred wherever it is used. Statements come
next, which hand agreeing environments on. The top level is last. There the order is
different from everywhere else, because everything is declared before anything is
lowered, so a statement that is left out takes its declaration with it. That is the one
place where leaving something out can do harm, and the theorem about programs has the
absence of such declarations as a condition.
-/

namespace Codegen

open Context Rules List

variable {lic : Licence} {rules : Rules} {env env' : Context} {p : Payload} {ts ts' : List Term}
  {t t' : Term}

namespace Term

/-- An integer literal, or arithmetic on constants, with no type but that of integers. -/
inductive Constant : Term → Prop where
  | integer (p : Payload) (kind : p.kind = .integer)
      (type : p.type = .unknown ∨ p.type = .integer) : Constant (.node p [])
  | binary (p : Payload) (op : Arith) (l r : Term) (kind : p.kind = .binary)
      (text : BinaryOp.ofText? p.op = some (.arith op))
      (type : p.type = .unknown ∨ p.type = .integer) (left : Constant l) (right : Constant r) :
      Constant (.node p [l, r])

/-- Terms and their rewritings. -/
inductive Recast (lic : Licence) : List Term → List Term → Prop where
  | nil : Recast lic [] []
  | node (p : Payload) (parts parts' us us' : List Term) (inside : Recast lic parts parts')
      (siblings : Recast lic us us') : Recast lic (.node p parts :: us) (.node p parts' :: us')
  | call (p : Payload) (callee : Option Bytes) (args args' us us' : List Term)
      (kind : p.kind.isDeclaration = false) (inside : Recast lic args args')
      (siblings : Recast lic us us') :
      Recast lic (.call p callee args :: us) (.call p callee args' :: us')
  | constant (c c' : Term) (us us' : List Term) (before : Constant c) (after : Constant c')
      (siblings : Recast lic us us') : Recast lic (c :: us) (c' :: us')
  | product (p : Payload) (x x' two : Term) (parts us us' : List Term)
      (licensed : lic.doubles = true) (kind : p.kind = .binary) (op : p.op = "*")
      (factors : parts = [x, two] ∨ parts = [two, x]) (constant : Constant two)
      (inside : Recast lic [x] [x']) (siblings : Recast lic us us') :
      Recast lic (.node p parts :: us)
        (.node { kind := .binary, op := "+", type := p.type } [x', x'] :: us')
  | cut (p : Payload) (kept dead kept' us us' : List Term) (licensed : lic.cuts = true)
      (kind : p.kind.isBlockLike = true) (inside : Recast lic kept kept')
      (siblings : Recast lic us us') :
      Recast lic (.node p (kept ++ dead) :: us) (.node p kept' :: us')

namespace Recast

variable {us us' : List Term}

theorem first (h : Recast lic (t :: us) (t' :: us')) {vs vs' : List Term}
    (h' : Recast lic vs vs') : Recast lic (t :: vs) (t' :: vs') := by
  cases h with
  | node _ _ _ _ _ inside => exact .node _ _ _ _ _ inside h'
  | call _ _ _ _ _ _ kind inside => exact .call _ _ _ _ _ _ kind inside h'
  | constant _ _ _ _ before after => exact .constant _ _ _ _ before after h'
  | product _ _ _ _ _ _ _ licensed kind op factors constant inside =>
    exact .product _ _ _ _ _ _ _ licensed kind op factors constant inside h'
  | cut _ _ _ _ _ _ licensed kind inside => exact .cut _ _ _ _ _ _ licensed kind inside h'

theorem uncons (h : Recast lic (t :: us) (t' :: us')) :
    Recast lic [t] [t'] ∧ Recast lic us us' :=
  ⟨h.first .nil, by cases h <;> assumption⟩

theorem cons (h : Recast lic [t] [t']) (h' : Recast lic us us') :
    Recast lic (t :: us) (t' :: us') :=
  h.first h'

theorem take (h : Recast lic ts ts') (count : Nat) :
    Recast lic (ts.take count) (ts'.take count) := by
  induction count generalizing ts ts' with
  | zero => exact .nil
  | succ _ ih =>
    cases ts with
    | nil =>
      cases h
      exact .nil
    | cons =>
      cases ts' with
      | nil => exact nomatch h
      | cons => exact h.uncons.1.cons (ih h.uncons.2)

end Recast

/-- The findings of two expressions match wherever names agree. -/
def Surveyed (lic : Licence) (rules : Rules) (t t' : Term) : Prop :=
  ∀ env env' : Context, env.Agrees (Ty.Blurs lic) env' →
    (rules.survey env t).Matches lic (rules.survey env' t')

theorem Surveyed.typed (h : Surveyed lic rules t t') (henv : env.Agrees (Ty.Blurs lic) env') :
    Ty.Blurs lic (env.typed t) (env'.typed t') := by
  have htype := (h env env' henv).type
  rwa [rules.survey_type, rules.survey_type] at htype

theorem surveys_matches (h : Forall₂ (Surveyed lic rules) ts ts')
    (henv : env.Agrees (Ty.Blurs lic) env') :
    Forall₂ (Finding.Matches lic) (rules.surveys env ts) (rules.surveys env' ts') := by
  induction h with
  | nil => exact .nil
  | cons hfirst _ ih =>
    exact .cons (hfirst env env' henv) ih

end Term

open Context in
theorem Ty.Blurs.getD {T T' : Ty} (h : Ty.Blurs lic T T') (resolved : Option Ty) :
    Ty.Blurs lic (resolved.getD T) (resolved.getD T') := by
  cases resolved with
  | none => exact h
  | some type => exact .refl type

open Context in
theorem resolvedType_plain (h : p.type = .unknown ∨ p.type = .integer) :
    (resolvedType? p).getD .integer = .integer := by
  unfold resolvedType?
  split
  · next hresolved =>
    rcases h with h | h
    · simp [h] at hresolved
    · exact h
  · rfl

namespace Term

variable {c c' : Term}

theorem Constant.survey (hsteady : rules.Steady lic) (env : Context) (h : Constant c) :
    (rules.survey env c).type = .integer ∧ (rules.survey env c).rep = .scalar ∧
      (rules.survey env c).issues = [] := by
  induction h with
  | integer p kind type =>
    rw [rules.survey_type, typed.eq_def]
    simp [Rules.survey, Rules.inspected, kind, resolvedType_plain type]
  | binary p _ l r kind text type _ _ ihl ihr =>
    have hplain : (isComparison p.op || isLogical p.op) = false := by
      unfold isComparison isLogical
      rw [text]
      rfl
    have htyped : env.typed (.node p [l, r]) = .integer := by
      rw [typed.eq_def]
      simp only [kind, hplain, ← rules.survey_type, ihl.1, ihr.1]
      exact resolvedType_plain type
    rw [rules.survey_type, htyped]
    simp only [Rules.survey, Rules.surveys, Rules.inspected, kind]
    exact ⟨trivial, trivial, hsteady.constant text ihl.1 ihr.1 ihl.2.2 ihr.2.2⟩

theorem Constant.matches (hsteady : rules.Steady lic) (h : Constant c) (h' : Constant c') :
    Surveyed lic rules c c' := by
  intro env env' _
  obtain ⟨htype, hrep, hnone⟩ := h.survey hsteady env
  obtain ⟨htype', hrep', hnone'⟩ := h'.survey hsteady env'
  refine ⟨?_, by rw [hrep, hrep'], ?_⟩
  · rw [htype, htype']
    exact .refl _
  · rw [hnone, hnone']
    exact .refl []

/-- Related terms are nodes or calls with the same payload, or expressions that have been
    computed differently. -/
inductive Heads : Term → Term → Prop where
  | node (p : Payload) (parts parts' : List Term) : Heads (.node p parts) (.node p parts')
  | call (p : Payload) (callee : Option Bytes) (args args' : List Term) :
      Heads (.call p callee args) (.call p callee args')
  | computed (p p' : Payload) (parts parts' : List Term)
      (kind : p.kind = .integer ∨ p.kind = .binary)
      (kind' : p'.kind = .integer ∨ p'.kind = .binary) : Heads (.node p parts) (.node p' parts')

theorem Constant.kind (h : Constant c) :
    ∃ p parts, c = .node p parts ∧ (p.kind = .integer ∨ p.kind = .binary) := by
  cases h with
  | integer p kind => exact ⟨p, [], rfl, Or.inl kind⟩
  | binary p _ l r kind => exact ⟨p, [l, r], rfl, Or.inr kind⟩

theorem Constant.heads (h : Constant c) (h' : Constant c') : Heads c c' := by
  rcases h.kind with ⟨p, parts, rfl, kind⟩
  rcases h'.kind with ⟨p', parts', rfl, kind'⟩
  exact .computed p p' parts parts' kind kind'

theorem Recast.heads (h : Recast lic ts ts') : Forall₂ Heads ts ts' := by
  induction h with
  | nil => exact .nil
  | node p parts parts' _ _ _ _ _ ihS => exact .cons (.node p parts parts') ihS
  | call p callee args args' _ _ _ _ _ _ ihS => exact .cons (.call p callee args args') ihS
  | constant _ _ _ _ before after _ ihS => exact .cons (before.heads after) ihS
  | product p _ _ _ parts _ _ _ kind _ _ _ _ _ _ ihS =>
    exact .cons (.computed p _ parts _ (Or.inr kind) (Or.inr rfl)) ihS
  | cut p kept dead kept' _ _ _ _ _ _ _ ihS => exact .cons (.node p (kept ++ dead) kept') ihS

end Term

section Expressions

open Term Context

variable {parts parts' : List Term} {found found' : List Finding}

theorem assigned_follows (hsteady : rules.Steady lic) (kind : Kind)
    (hheads : Forall₂ Heads parts parts')
    (hfound : Forall₂ (Finding.Matches lic) found found')
    (henv : env.Agrees (Ty.Blurs lic) env') :
    Follows lic (rules.assigned env kind parts found) (rules.assigned env' kind parts' found') := by
  rcases hheads with _ | ⟨hhead, _⟩
  · exact .refl []
  cases hhead with
  | call =>
    exact .refl _
  | node p =>
    rcases hfound with _ | ⟨htarget, _ | ⟨hvalue, _⟩⟩
    · exact .refl []
    · exact .refl []
    rw [assigned, assigned]
    cases hkind : p.kind with
    | ident =>
      rcases henv.varNamed? p.name with ⟨hc, hd⟩ | ⟨a, b, hc, hd, hsym⟩
      · rw [hc, hd]
        exact .refl _
      · rw [hc, hd]
        exact hsteady.fit hvalue hsym.type.rep
    | index => exact htarget.issues.append (hsteady.fit hvalue rfl)
    | _ => exact .refl _
  | computed _ _ _ _ hkind hkind' =>
    rcases hfound with _ | ⟨htarget, _ | ⟨hvalue, _⟩⟩
    · exact .refl []
    · exact .refl []
    rw [assigned, assigned]
    rcases hkind with h | h <;> rcases hkind' with h' | h' <;> rw [h, h'] <;>
      exact .of_ne (cons_ne_nil _ _) (cons_ne_nil _ _)

theorem inspected_follows (hsteady : rules.Steady lic) (p : Payload)
    (hheads : Forall₂ Heads parts parts')
    (hfound : Forall₂ (Finding.Matches lic) found found')
    (henv : env.Agrees (Ty.Blurs lic) env') :
    (rules.inspected env' p parts' found').1 = (rules.inspected env p parts found).1 ∧
      Follows lic (rules.inspected env p parts found).2
        (rules.inspected env' p parts' found').2 := by
  unfold inspected
  cases hkind : p.kind with
  | ident =>
    rcases henv.varNamed? p.name with ⟨hc, hd⟩ | ⟨a, b, hc, hd, hsym⟩
    · rw [hc, hd]
      refine ⟨?_, .refl _⟩
      simp [typed, hkind, hc, hd]
    · rw [hc, hd]
      exact ⟨hsym.type.rep, .refl []⟩
  | binary =>
    rcases hfound with _ | ⟨hl, _ | ⟨hr, _⟩⟩
    any_goals exact ⟨rfl, .refl []⟩
    exact ⟨rfl, hsteady.binary p hl hr⟩
  | unary =>
    rcases hfound with _ | ⟨hf, _⟩
    · exact ⟨rfl, .refl []⟩
    · exact ⟨rfl, hsteady.unary p hf⟩
  | array => exact ⟨rfl, Follows.flatMap hfound fun _ _ h => h.element⟩
  | index =>
    rcases hfound with _ | ⟨hbase, _ | ⟨hindex, _⟩⟩
    any_goals exact ⟨rfl, .refl []⟩
    exact ⟨rfl, hbase.issues.append hindex.issues⟩
  | assign => exact ⟨rfl, assigned_follows hsteady _ hheads hfound henv⟩
  | _ => exact ⟨rfl, .refl _⟩

theorem typed_node (p : Payload) (hparts : Forall₂ (Surveyed lic rules) parts parts')
    (henv : env.Agrees (Ty.Blurs lic) env') :
    Ty.Blurs lic (env.typed (.node p parts)) (env'.typed (.node p parts')) := by
  rw [typed.eq_def, typed.eq_def]
  refine Ty.Blurs.getD ?_ _
  cases hkind : p.kind with
  | ident =>
    rcases henv.varNamed? p.name with ⟨hc, hd⟩ | ⟨a, b, hc, hd, hsym⟩
    · rw [hc, hd]
      exact .refl _
    · rw [hc, hd]
      exact hsym.type
  | binary =>
    rcases hparts with _ | ⟨hl, _ | ⟨hr, _⟩⟩
    any_goals exact .refl _
    dsimp only
    split
    · exact .refl _
    · exact (hl.typed henv).arithmetic (hr.typed henv)
  | unary =>
    rcases hparts with _ | ⟨hf, _⟩
    · exact .refl _
    dsimp only
    split
    · exact .refl _
    · exact hf.typed henv
  | _ => exact .refl _

theorem surveyed_node (hsteady : rules.Steady lic) (p : Payload)
    (hheads : Forall₂ Heads parts parts')
    (hparts : Forall₂ (Surveyed lic rules) parts parts') :
    Surveyed lic rules (.node p parts) (.node p parts') := by
  intro env env' henv
  have hfound := inspected_follows hsteady p hheads (surveys_matches hparts henv) henv
  exact ⟨typed_node p hparts henv, hfound.1, hfound.2⟩

theorem called_follows (hsteady : rules.Steady lic) (p : Payload) (name : Bytes)
    {args args' : List Finding} (hargs : Forall₂ (Finding.Matches lic) args args')
    (henv : env.Agrees (Ty.Blurs lic) env') :
    (rules.called env' p name args').1 = (rules.called env p name args).1 ∧
      Follows lic (rules.called env p name args).2 (rules.called env' p name args').2 := by
  unfold called
  by_cases hprint : name = "print"
  · rw [if_pos hprint, if_pos hprint]
    exact ⟨rfl, Follows.flatMap hargs fun _ _ h => hsteady.print h⟩
  by_cases hlength : name = "length"
  · rw [if_neg hprint, if_neg hprint, if_pos hlength, if_pos hlength]
    refine ⟨rfl, ?_⟩
    rcases hargs with _ | ⟨harg, _ | ⟨_, _⟩⟩
    · exact .refl _
    · exact hsteady.length _ harg
    · exact .refl _
  rw [if_neg hprint, if_neg hprint, if_neg hlength, if_neg hlength]
  rcases henv.funcNamed? name with ⟨hc, hd⟩ | ⟨a, b, hc, hd, hsym⟩
  · rw [hc, hd]
    exact ⟨rfl, .refl _⟩
  · rw [hc, hd]
    rw [← hargs.length_eq]
    exact ⟨hsteady.result _ hsym, hsteady.call _ _ hsym hargs⟩

theorem surveyed_call (hsteady : rules.Steady lic) (p : Payload) (callee : Option Bytes)
    {args args' : List Term} (hargs : Forall₂ (Surveyed lic rules) args args') :
    Surveyed lic rules (.call p callee args) (.call p callee args') := by
  intro env env' henv
  have hcalled := called_follows hsteady p (callee.getD []) (surveys_matches hargs henv) henv
  rw [survey, survey]
  refine ⟨?_, hcalled.1, hcalled.2⟩
  rw [typed, henv.callType]
  exact .refl _

theorem surveyed_product (hsteady : rules.Steady lic) {x x' two : Term} (hlic : lic.doubles = true)
    (hkind : p.kind = .binary) (hop : p.op = "*") (hparts : parts = [x, two] ∨ parts = [two, x])
    (htwo : Constant two) (hx : Surveyed lic rules x x') :
    Surveyed lic rules (.node p parts)
      (.node { kind := .binary, op := "+", type := p.type } [x', x']) := by
  intro env env' henv
  obtain ⟨htype, -, hnone⟩ := htwo.survey hsteady env
  have hmatch := hx env env' henv
  have hresolved : resolvedType? { kind := .binary, op := "+", type := p.type } = resolvedType? p := by
    unfold resolvedType?
    rw [hkind]
  have hproduct : (isComparison p.op || isLogical p.op) = false := by
    rw [hop]
    decide
  have hblurs := Ty.Blurs.product hlic (hx.typed henv)
  have hissues := hsteady.product (q := { kind := .binary, op := "+", type := p.type }) hop rfl
    hmatch htype hnone
  rw [rules.survey_type] at htype
  rcases hparts with rfl | rfl
  all_goals
    refine ⟨?_, ?_, ?_⟩
    · rw [rules.survey_type, rules.survey_type, typed.eq_def, typed.eq_def]
      simp only [hkind, hresolved, hproduct, htype]
      first | exact hblurs.1.getD _ | exact hblurs.2.getD _
    · simp [survey, surveys, inspected, hkind]
    · simp only [survey, surveys, inspected, hkind]
      first | exact hissues.1 | exact hissues.2

theorem survey_blockLike (env : Context) (h : p.kind.isBlockLike = true) (parts : List Term) :
    rules.survey env (.node p parts) =
      ⟨p.kind, (resolvedType? p).getD .void, .scalar, [⟨p.kind, .notAnExpression⟩]⟩ := by
  rw [survey, typed.eq_def]
  unfold inspected
  cases hkind : p.kind with
  | block | program => simp [hkind]
  | _ =>
    rw [hkind] at h
    cases h

/-- The findings of rewritten expressions match. -/
theorem Term.Recast.surveyed (hsteady : rules.Steady lic) (h : Recast lic ts ts') :
    Forall₂ (Surveyed lic rules) ts ts' := by
  induction h with
  | nil => exact .nil
  | node p _ _ _ _ inside _ ihC ihS =>
    exact .cons (surveyed_node hsteady p inside.heads ihC) ihS
  | call p callee _ _ _ _ _ _ _ ihC ihS =>
    exact .cons (surveyed_call hsteady p callee ihC) ihS
  | constant _ _ _ _ before after _ ihS => exact .cons (before.matches hsteady after) ihS
  | product _ _ _ _ _ _ _ licensed kind op factors constant _ _ ihC ihS =>
    rcases ihC with _ | ⟨hx, _⟩
    exact .cons (surveyed_product hsteady licensed kind op factors constant hx) ihS
  | cut _ _ _ _ _ _ _ kind _ _ _ ihS =>
    refine .cons (fun env env' _ => ?_) ihS
    rw [survey_blockLike env kind, survey_blockLike env' kind]
    exact ⟨.refl _, rfl, .refl _⟩

end Expressions

section Statements

open Term Context

variable {parts parts' : List Term}

/-- What carries over from one statement to another. -/
def Term.Followed (lic : Licence) (rules : Rules) (t t' : Term) : Prop :=
  ∀ (looping : Bool) (env env' : Context), env.Agrees (Ty.Blurs lic) env' →
    Follows lic (rules.stmt looping env t) (rules.stmt looping env' t') ∧
      (env.after t).Agrees (Ty.Blurs lic) (env'.after t')

theorem varType_blurs (p : Payload) (hparts : Forall₂ (Surveyed lic rules) parts parts')
    (henv : env.Agrees (Ty.Blurs lic) env') :
    Ty.Blurs lic (env.varType p parts) (env'.varType p parts') := by
  rcases hparts with _ | ⟨hinit, _⟩
  · exact .refl _
  · rw [varType, varType]
    split_ifs
    · exact hinit.typed henv
    · exact .refl _

theorem stmts_follows (h : Forall₂ (Followed lic rules) ts ts') (looping : Bool)
    (henv : env.Agrees (Ty.Blurs lic) env') :
    Follows lic (rules.stmts looping env ts) (rules.stmts looping env' ts') := by
  induction h generalizing env env' with rw [stmts]
  | nil => exact .refl []
  | cons hfirst _ ih =>
    have hstmt := hfirst looping env env' henv
    exact hstmt.1.append (ih hstmt.2)

theorem stmts_append (rules : Rules) (looping : Bool) (env : Context) (ts us : List Term) :
    ∃ js, rules.stmts looping env (ts ++ us) = rules.stmts looping env ts ++ js := by
  induction ts generalizing env with
  | nil => exact ⟨rules.stmts looping env us, by rw [stmts, nil_append, nil_append]⟩
  | cons t _ ih =>
    rcases ih (env.after t) with ⟨js, hjs⟩
    refine ⟨js, ?_⟩
    rw [cons_append, stmts, stmts, hjs, append_assoc]

theorem chain_follows (looping : Bool) {env env' : Context}
    (hparts : Forall₂ (Surveyed lic rules) ts ts')
    (h : Forall₂ (Followed lic rules) ts ts') (henv : env.Agrees (Ty.Blurs lic) env') :
    Follows lic (rules.chain looping env ts) (rules.chain looping env' ts') ∧
      (env.afterChain ts).Agrees (Ty.Blurs lic) (env'.afterChain ts') := by
  -- A condition and its body are two steps of the list; a body left over has no condition.
  induction ts using twoStepInduction generalizing ts' env env' with
  | nil =>
    rcases h with _ | _
    exact ⟨.refl [], henv⟩
  | singleton =>
    rcases h with _ | ⟨hbody, _ | _⟩
    exact hbody looping env env' henv
  | cons_cons _ _ _ ih =>
    rcases hparts with _ | ⟨htest, _ | ⟨_, hparts⟩⟩
    rcases h with _ | ⟨_, _ | ⟨hbody, h⟩⟩
    have hyes := hbody looping env env' henv
    have hno := ih hparts h hyes.2
    exact ⟨((htest env env' henv).issues.append hyes.1).append hno.1, hno.2⟩

theorem Term.Surveyed.followed (h : Surveyed lic rules t t')
    (hstmt : ∀ looping env, rules.stmt looping env t = (rules.survey env t).issues)
    (hstmt' : ∀ looping env, rules.stmt looping env t' = (rules.survey env t').issues)
    (hafter : ∀ env : Context, env.after t = env) (hafter' : ∀ env : Context, env.after t' = env) :
    Followed lic rules t t' := by
  intro looping env env' henv
  rw [hstmt, hstmt', hafter, hafter']
  exact ⟨(h env env' henv).issues, henv⟩

theorem stmt_computed (h : p.kind = .integer ∨ p.kind = .binary) (looping : Bool) (env : Context)
    (parts : List Term) :
    rules.stmt looping env (.node p parts) = (rules.survey env (.node p parts)).issues := by
  rw [stmt.eq_def]
  rcases h with h | h <;> simp only [h]

theorem after_computed (h : p.kind = .integer ∨ p.kind = .binary) (env : Context)
    (parts : List Term) : env.after (.node p parts) = env := by
  refine env.after_eq p parts ?_
  rcases h with h | h <;> rw [h] <;> rfl

theorem followed_computed {p' : Payload} (hkind : p.kind = .integer ∨ p.kind = .binary)
    (hkind' : p'.kind = .integer ∨ p'.kind = .binary)
    (h : Surveyed lic rules (.node p parts) (.node p' parts')) :
    Followed lic rules (.node p parts) (.node p' parts') :=
  h.followed (fun looping env => stmt_computed hkind looping env parts)
    (fun looping env => stmt_computed hkind' looping env parts')
    (fun env => after_computed hkind env parts) (fun env => after_computed hkind' env parts')

theorem followed_node (hsteady : rules.Steady lic) (p : Payload)
    (hheads : Forall₂ Heads parts parts')
    (hparts : Forall₂ (Surveyed lic rules) parts parts')
    (h : Forall₂ (Followed lic rules) parts parts') :
    Followed lic rules (.node p parts) (.node p parts') := by
  by_cases hleaves : p.kind.leavesNames = true
  · -- What leaves names behind: declarations, and the bodies of conditions and loops.
    intro looping env env' henv
    rw [stmt.eq_def, stmt.eq_def, Context.after.eq_def, Context.after.eq_def]
    cases hkind : p.kind with
    | varDecl =>
      have htype := varType_blurs p hparts henv
      have hafter := henv.declareHere (a := .localVar p.name (env.varType p parts) 0)
        (b := .localVar p.name (env'.varType p parts') 0) rfl ⟨rfl, htype, rfl, rfl⟩
      rcases hparts with _ | ⟨hinit, _⟩ <;> simp only [hkind]
      · exact ⟨.refl [], hafter⟩
      · exact ⟨hsteady.fit (hinit env env' henv) htype.rep, hafter⟩
    | classDecl =>
      simp only [hkind]
      exact ⟨.refl [], henv.declareHere rfl ⟨rfl, .refl _, rfl, rfl⟩⟩
    | cond =>
      simp only [hkind]
      exact chain_follows looping hparts h henv
    | whileLoop =>
      rcases hparts with _ | ⟨htest, _ | ⟨_, _⟩⟩ <;> simp only [hkind]
      any_goals exact ⟨.refl [], henv⟩
      rcases h with _ | ⟨_, _ | ⟨hbody, _⟩⟩
      have hloop := hbody true env env' henv
      exact ⟨(htest env env' henv).issues.append hloop.1, hloop.2⟩
    | _ =>
      rw [hkind] at hleaves
      cases hleaves
  -- All other kinds leave the names as they are, and only issues are compared.
  · intro looping env env' henv
    have hno : p.kind.leavesNames = false := eq_false_of_ne_true hleaves
    rw [env.after_eq p parts hno, env'.after_eq p parts' hno]
    refine ⟨?_, henv⟩
    rw [stmt.eq_def, stmt.eq_def]
    cases hkind : p.kind with
    | varDecl | classDecl | cond | whileLoop =>
      rw [hkind] at hno
      cases hno
    | block =>
      simp only [hkind]
      exact stmts_follows h looping henv
    | assign =>
      simp only [hkind]
      exact assigned_follows hsteady _ hheads (surveys_matches hparts henv) henv
    | forRange =>
      rcases hparts with _ | ⟨hfirst, _ | ⟨hlast, _ | ⟨_, _⟩⟩⟩ <;> simp only [hkind]
      any_goals exact .refl []
      rcases h with _ | ⟨_, _ | ⟨_, _ | ⟨hbody, _⟩⟩⟩
      have hcounting : (env.counting p.name).Agrees (Ty.Blurs lic) (env'.counting p.name) :=
        henv.declareHere rfl ⟨rfl, .refl _, rfl, rfl⟩
      exact ((hsteady.fit (hfirst env env' henv) rfl).append
        (hsteady.fit (hlast env env' henv) rfl)).append (hbody true _ _ hcounting).1
    | ret =>
      rcases hparts with _ | ⟨hvalue, _⟩ <;> simp only [hkind]
      · exact .refl []
      · exact (hvalue env env' henv).issues
    | brk | cont | funcDecl | program | other =>
      simp only [hkind]
      exact .refl _
    | _ =>
      simp only [hkind]
      exact (surveyed_node hsteady p hheads hparts env env' henv).issues

/-- The issues of rewritten statements follow. -/
theorem Term.Recast.followed (hsteady : rules.Steady lic) (h : Recast lic ts ts') :
    Forall₂ (Followed lic rules) ts ts' := by
  induction h with
  | nil => exact .nil
  | node p _ _ _ _ inside _ ihC ihS =>
    exact .cons (followed_node hsteady p inside.heads (inside.surveyed hsteady) ihC) ihS
  | call p callee _ _ _ _ _ inside _ _ ihS =>
    have hcall := surveyed_call hsteady p callee (inside.surveyed hsteady)
    refine .cons (hcall.followed ?_ ?_ ?_ ?_) ihS
    · exact fun looping env => by rw [stmt]
    · exact fun looping env => by rw [stmt]
    · exact fun env => by rw [Context.after.eq_def]
    · exact fun env => by rw [Context.after.eq_def]
  | constant _ _ _ _ before after _ ihS =>
    have hmatch := before.matches hsteady after
    rcases before.kind with ⟨p, parts, rfl, hkind⟩
    rcases after.kind with ⟨p', parts', rfl, hkind'⟩
    exact .cons (followed_computed hkind hkind' hmatch) ihS
  | product _ _ _ _ _ _ _ licensed kind op factors constant inside _ _ ihS =>
    rcases inside.surveyed hsteady with _ | ⟨hx, _⟩
    have hproduct := surveyed_product hsteady licensed kind op factors constant hx
    exact .cons (followed_computed (Or.inr kind) (Or.inr rfl) hproduct) ihS
  | cut p kept dead _ _ _ licensed kind _ _ ihC ihS =>
    refine .cons (fun looping env env' henv => ?_) ihS
    have hno : p.kind.leavesNames = false := by
      cases hkind : p.kind with
      | varDecl | classDecl | cond | whileLoop =>
        rw [hkind] at kind
        cases kind
      | _ => rfl
    rw [env.after_eq p _ hno, env'.after_eq p _ hno, stmt.eq_def, stmt.eq_def]
    refine ⟨?_, henv⟩
    cases hkind : p.kind with
    | block =>
      simp only [hkind]
      rcases stmts_append rules looping env kept dead with ⟨js, hjs⟩
      rw [hjs]
      exact (stmts_follows ihC looping henv).cut licensed js
    | program =>
      simp only [hkind]
      exact .refl _
    | _ =>
      rw [hkind] at kind
      cases kind

end Statements

section Programs

open Term Context

variable {ss ss' : List Term}

/-- What carries over for a statement of the top level, where declarations, functions and
    the statements of the entry are each looked at in a pass of their own. -/
structure Term.Entered (lic : Licence) (rules : Rules) (t t' : Term) : Prop where
  kind : t'.kind.isDeclaration = t.kind.isDeclaration
  declared : ∀ env env' : Context, env.Agrees (Ty.Blurs lic) env' →
    (env.declareTop t).Agrees (Ty.Blurs lic) (env'.declareTop t')
  function : ∀ env env' : Context, env.Agrees (Ty.Blurs lic) env' →
    Follows lic (rules.function env t) (rules.function env' t')
  statement : ∀ env env' : Context, env.Agrees (Ty.Blurs lic) env' →
    Follows lic (rules.topStatement env t) (rules.topStatement env' t')
  followed : Followed lic rules t t'

theorem not_funcDecl (h : t.kind.isDeclaration = false) : t.kind ≠ .funcDecl := by
  intro hkind
  rw [hkind] at h
  cases h

theorem Term.Followed.entered (h : Followed lic rules t t') (hkind : t.kind.isDeclaration = false)
    (hkind' : t'.kind.isDeclaration = false) : Entered lic rules t t' where
  kind := hkind'.trans hkind.symm
  declared env env' henv := by
    rw [env.declareTop_other t hkind, env'.declareTop_other t' hkind']
    exact henv
  function env env' _ := by
    rw [rules.function_other env t (not_funcDecl hkind),
      rules.function_other env' t' (not_funcDecl hkind')]
    exact .refl []
  statement env env' henv := by
    rw [rules.topStatement_other env t hkind, rules.topStatement_other env' t' hkind']
    exact (h false env env' henv).1
  followed := h

theorem withParams_agrees (params : List Param) (henv : env.Agrees (Ty.Blurs lic) env') :
    (env.withParams params).Agrees (Ty.Blurs lic) (env'.withParams params) := by
  induction params generalizing env env' with
  | nil => exact henv
  | cons _ _ ih => exact ih (henv.declareHere rfl ⟨rfl, .refl _, rfl, rfl⟩)

theorem entered_node (hsteady : rules.Steady lic) (p : Payload) {parts parts' : List Term}
    (hparts : Forall₂ (Surveyed lic rules) parts parts')
    (hbodies : Forall₂ (Followed lic rules) parts parts')
    (h : Followed lic rules (.node p parts) (.node p parts')) :
    Entered lic rules (.node p parts) (.node p parts') := by
  by_cases hdeclares : p.kind.isDeclaration = true
  · refine ⟨rfl, fun env env' henv => ?_, fun env env' henv => ?_, fun env env' henv => ?_, h⟩
    · cases hkind : p.kind with
      | funcDecl | classDecl =>
        simp only [declareTop, hkind]
        exact henv.declareHere rfl ⟨rfl, .refl _, rfl, rfl⟩
      | varDecl =>
        simp only [declareTop, hkind]
        exact henv.declareHere rfl ⟨rfl, varType_blurs p hparts henv, rfl, rfl⟩
      | _ =>
        rw [hkind] at hdeclares
        cases hdeclares
    · rcases hbodies with _ | ⟨hbody, _⟩
      · exact .refl []
      · rw [Rules.function, Rules.function]
        split_ifs
        · exact Follows.append (.refl _) (hbody false _ _ (withParams_agrees p.params henv)).1
        · exact .refl []
    · unfold topStatement
      simp only [Term.kind, Term.payload?, Option.map_some]
      cases hkind : p.kind with
      | funcDecl | classDecl => exact .refl []
      | varDecl =>
        rcases hparts with _ | ⟨hinit, _⟩
        · exact .refl []
        · refine hsteady.fit (hinit env env' henv) ?_
          rcases henv p.name with ⟨hc, hd⟩ | ⟨a, b, hc, hd, hsym⟩
          · rw [hc, hd]
          · rw [hc, hd]
            exact hsym.type.rep
      | _ =>
        rw [hkind] at hdeclares
        cases hdeclares
  · have hother : (Term.node p parts).kind.isDeclaration = false := eq_false_of_ne_true hdeclares
    exact h.entered hother hother

theorem computed_not_declaration (h : p.kind = .integer ∨ p.kind = .binary) :
    p.kind.isDeclaration = false := by
  rcases h with h | h <;> rw [h] <;> rfl

theorem Term.Recast.entered (hsteady : rules.Steady lic) (h : Recast lic ts ts') :
    Forall₂ (Entered lic rules) ts ts' := by
  have hfollowed := h.followed hsteady
  induction h with (rcases hfollowed with _ | ⟨hfirst, hrest⟩)
  | nil => exact .nil
  | node p _ _ _ _ inside _ _ ihS =>
    exact .cons (entered_node hsteady p (inside.surveyed hsteady) (inside.followed hsteady) hfirst)
      (ihS hrest)
  | call _ _ _ _ _ _ kind _ _ _ ihS =>
    exact .cons (hfirst.entered kind kind) (ihS hrest)
  | constant _ _ _ _ before after _ ihS =>
    rcases before.kind with ⟨p, parts, rfl, hkind⟩
    rcases after.kind with ⟨p', parts', rfl, hkind'⟩
    exact .cons (hfirst.entered (computed_not_declaration hkind)
      (computed_not_declaration hkind')) (ihS hrest)
  | product _ _ _ _ _ _ _ _ kind _ _ _ _ _ _ ihS =>
    exact .cons (hfirst.entered (computed_not_declaration (Or.inr kind)) rfl) (ihS hrest)
  | cut p _ _ _ _ _ _ kind _ _ _ ihS =>
    have hother : p.kind.isDeclaration = false := by
      cases hkind : p.kind with
      | funcDecl | classDecl | varDecl =>
        rw [hkind] at kind
        cases kind
      | _ => rfl
    exact .cons (hfirst.entered hother hother) (ihS hrest)

theorem foldl_declareTop (h : Forall₂ (Entered lic rules) ss ss')
    (henv : env.Agrees (Ty.Blurs lic) env') :
    (ss.foldl declareTop env).Agrees (Ty.Blurs lic)
      (ss'.foldl declareTop env') := by
  induction h generalizing env env' with
  | nil => exact henv
  | cons hfirst _ ih => exact ih (hfirst.declared env env' henv)

theorem topStatements_follows (h : Forall₂ (Entered lic rules) ss ss')
    (henv : env.Agrees (Ty.Blurs lic) env') :
    Follows lic (rules.topStatements env ss) (rules.topStatements env' ss') := by
  induction h generalizing env env' with
  | nil => exact .refl []
  | cons hfirst _ ih =>
    rw [topStatements, topStatements, hfirst.kind]
    refine (hfirst.statement env env' henv).append (ih ?_)
    split
    · exact henv
    · exact (hfirst.followed false env env' henv).2

/-- The issues of a rewritten program that loses no declaration follow. -/
theorem Term.Recast.program (hsteady : rules.Steady lic) (h : Recast lic ss ss') :
    Follows lic (rules.program ss) (rules.program ss') := by
  have hentered := h.entered hsteady
  have henv : (ofProgram ss).Agrees (Ty.Blurs lic) (ofProgram ss') :=
    foldl_declareTop hentered (.refl .refl _)
  exact (Follows.flatMap hentered fun _ _ hs => hs.function _ _ henv).append
    (topStatements_follows hentered henv)

theorem topStatements_append (rules : Rules) (env : Context) (ss dead : List Term) :
    ∃ js, rules.topStatements env (ss ++ dead) = rules.topStatements env ss ++ js := by
  induction ss generalizing env with
  | nil => exact ⟨rules.topStatements env dead, rfl⟩
  | cons s _ ih =>
    rcases ih (if s.kind.isDeclaration then env else env.after s) with ⟨js, hjs⟩
    refine ⟨js, ?_⟩
    rw [cons_append, topStatements, topStatements, hjs, append_assoc]

theorem program_append (rules : Rules) (ss dead : List Term)
    (h : ∀ t ∈ dead, t.kind.isDeclaration = false) :
    ∃ js, rules.program (ss ++ dead) = rules.program ss ++ js := by
  have hnames : ofProgram (ss ++ dead) = ofProgram ss := by
    unfold ofProgram
    rw [foldl_append]
    generalize ss.foldl declareTop _ = env
    induction dead with
    | nil => rfl
    | cons t _ ih =>
      rw [foldl_cons, env.declareTop_other t (h t (by simp))]
      exact ih fun t ht => h t (by simp [ht])
  have hfunctions (env : Context) : dead.flatMap (rules.function env) = [] := by
    rw [flatMap_eq_nil_iff]
    exact fun t ht => rules.function_other env t (not_funcDecl (h t ht))
  unfold program
  rcases topStatements_append rules (.ofProgram ss) ss dead with ⟨js, hjs⟩
  refine ⟨js, ?_⟩
  rw [hnames, flatMap_append, hfunctions, append_nil, hjs, append_assoc]

end Programs

end Codegen
