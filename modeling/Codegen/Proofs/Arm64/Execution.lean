import Codegen.Proofs.Arm64.Effects

/-!
# How AArch64 Code of Statements Comes About

`Executes` continues `Produces` to statements. A rule says which labels and slots a statement
takes, in which context its parts are lowered, what is put together from their code, and which
steps were made on the way.
-/

namespace Codegen.Arm64

open Context Gen

/-- What is lowered: a statement, statements in sequence, or conditions with their bodies, which
    jump to a label at their end. -/
inductive Task where
  | stmt (stmt : Stmt)
  | stmts (ts : List Term)
  | chain (join : Label) (ts : List Term)

/-- The comment in place of a statement that is refused. -/
def refusal (issue : Issue) : Bytes :=
  match issue.cause with
  | .nestedFunction name => "nested function " ++ name ++ " omitted"
  | .nestedProgram => "nested program omitted"
  | _ => "unsupported statement " ++ issue.kind.name

variable (flavor : Flavor) in
/-- How code of statements comes about. -/
inductive Executes : Task → Stage → Code → List Step → Stage → Prop where
  | expression {t st c rep reads st'} (h : Produces flavor (.expr t) st ⟨c, [rep], reads⟩ st') :
      Executes (.stmt (.expression t)) st c [.evaluated [t] reads] st'
  | block {body s ctx c steps s' ctx' scope outer}
      (h : Executes (.stmts body) (s, ctx.entering) c steps (s', ctx'))
      (hscopes : ctx'.scopes = scope :: outer) :
      Executes (.stmt (.block body)) (s, ctx) c steps (s', { ctx' with scopes := outer })
  | declare {name type init s ctx declared c rep reads s' ctx' fn sym}
      (htype : ctx.declaredType type init = .ok declared)
      (h : Produces flavor (.expr init) (s, ctx) ⟨c, [rep], reads⟩ (s', ctx'))
      (hfn : ctx'.function = some fn) (hsym : sym = .localVar name declared fn.nextSlot) :
      Executes (.stmt (.declare name type (some init))) (s, ctx) (c ++ store sym)
        [.evaluated [init] reads, .declared sym] (s', ctx'.declaring fn name declared)
  | declareZero {name type s ctx fn sym} (hfn : ctx.function = some fn)
      (hsym : sym = .localVar name type fn.nextSlot) :
      Executes (.stmt (.declare name type none)) (s, ctx) (zero type.rep ++ store sym)
        [.declared sym] (s, ctx.declaring fn name type)
  | assign {parts st c reads st'} (h : Produces flavor (.assign .assign parts) st ⟨c, [], reads⟩ st') :
      Executes (.stmt (.assign parts)) st c [.evaluated parts reads] st'
  | cond {parts s ctx join c steps st'} (hjoin : join = ⟨ctx.labels⟩)
      (h : Executes (.chain join parts) (s, ctx.labeling 1) c steps st') :
      Executes (.stmt (.cond parts)) (s, ctx) (c ++ [.label join]) steps st'
  | whileLoop {condition body stmt s ctx start done c rep reads s1 ctx1 fn b steps s2 ctx2 fn'}
      (hstart : start = ⟨ctx.labels⟩) (hdone : done = ⟨ctx.labels + 1⟩)
      (hcondition : Produces flavor (.expr condition) (s, ctx.labeling 2) ⟨c, [rep], reads⟩
        (s1, ctx1)) (hfn : ctx1.function = some fn) (hstmt : body.stmt? = some stmt)
      (h : Executes (.stmt stmt) (s1, ctx1.looping fn (some ⟨done, start⟩)) b steps (s2, ctx2))
      (hfn' : ctx2.function = some fn') :
      Executes (.stmt (.whileLoop condition body)) (s, ctx) (whileCode start done c b)
        (.evaluated [condition] reads :: steps) (s2, ctx2.looping fn' fn.loop)
  | forRange {name first last body stmt s ctx fn a arep areads st1 b brep breads s2 ctx2 sym ctx3
        start step done fn3 c steps s4 ctx4 fn4 scope outer} (hfn : ctx.function = some fn)
      (hfirst : Produces flavor (.expr first) (s, ctx.entering.taking fn 2) ⟨a, [arep], areads⟩ st1)
      (hlast : Produces flavor (.expr last) st1 ⟨b, [brep], breads⟩ (s2, ctx2))
      (hsym : sym = .localVar name .integer fn.nextSlot) (hctx3 : ctx3 = ctx2.declareHere sym)
      (hstart : start = ⟨ctx3.labels⟩) (hstep : step = ⟨ctx3.labels + 1⟩)
      (hdone : done = ⟨ctx3.labels + 2⟩) (hfn3 : ctx3.function = some fn3)
      (hstmt : body.stmt? = some stmt)
      (h : Executes (.stmt stmt) (s2, (ctx3.labeling 3).looping fn3 (some ⟨done, step⟩)) c
        steps (s4, ctx4))
      (hfn4 : ctx4.function = some fn4) (hscopes : ctx4.scopes = scope :: outer) :
      Executes (.stmt (.forRange name first last body)) (s, ctx)
        (forCode fn.nextSlot (fn.nextSlot + 1) start step done a b c)
        ([.reserved fn.nextSlot, .reserved (fn.nextSlot + 1), .evaluated [first] areads,
          .evaluated [last] breads, .declared sym] ++ steps)
        (s4, { ctx4.looping fn4 fn3.loop with scopes := outer })
  | ret {value st c rep reads s' ctx' fn}
      (h : Produces flavor (.expr value) st ⟨c, [rep], reads⟩ (s', ctx'))
      (hfn : ctx'.function = some fn) :
      Executes (.stmt (.ret (some value))) st (c ++ code [.branch fn.ret])
        [.evaluated [value] reads] (s', ctx')
  | retZero {s ctx fn} (hfn : ctx.function = some fn) :
      Executes (.stmt (.ret none)) (s, ctx)
        (zero ctx.returnType.rep ++ code [.branch fn.ret]) [] (s, ctx)
  | jump {kind s ctx targets} (h : ctx.loopTargets? = some targets) :
      Executes (.stmt (.jump kind)) (s, ctx)
        (code [.branch (if kind = .brk then targets.brk else targets.cont)]) [] (s, ctx)
  | jumpOutside {kind s ctx} (h : ctx.loopTargets? = none) :
      Executes (.stmt (.jump kind)) (s, ctx) [.comment (kind.name ++ " outside of a loop")]
        [] (s, ctx.reporting [⟨kind, .outsideLoop kind.head⟩])
  | classDecl {name fields s ctx} :
      Executes (.stmt (.classDecl name fields)) (s, ctx)
        [.comment ("class " ++ name ++ ": " ++ Bytes.ofNat fields.length ++ " fields")]
        [.declared (.ofClass name fields)] (s, ctx.declareHere (.ofClass name fields))
  | refused {issue s ctx} :
      Executes (.stmt (.refused issue)) (s, ctx) [.comment (refusal issue)] []
        (s, ctx.reporting [issue])
  | nil {st} : Executes (.stmts []) st [] [] st
  | cons {t ts stmt st c steps st1 cs steps' st'} (hstmt : t.stmt? = some stmt)
      (h : Executes (.stmt stmt) st c steps st1) (hrest : Executes (.stmts ts) st1 cs steps' st') :
      Executes (.stmts (t :: ts)) st (c ++ cs) (steps ++ steps') st'
  | chainNil {join st} : Executes (.chain join []) st [] [] st
  | chainLast {join body stmt st c steps st'} (hstmt : body.stmt? = some stmt)
      (h : Executes (.stmt stmt) st c steps st') :
      Executes (.chain join [body]) st c steps st'
  | chainLink {join condition body rest stmt s ctx next c rep reads st1 b steps st2 cs steps' st'}
      (hnext : next = ⟨ctx.labels⟩)
      (hcondition : Produces flavor (.expr condition) (s, ctx.labeling 1) ⟨c, [rep], reads⟩ st1)
      (hstmt : body.stmt? = some stmt) (h : Executes (.stmt stmt) st1 b steps st2)
      (hrest : Executes (.chain join rest) st2 cs steps' st') :
      Executes (.chain join (condition :: body :: rest)) (s, ctx)
        (c ++ code [.cbz x0 next] ++ b ++ code [.branch join] ++ [.label next] ++ cs)
        (.evaluated [condition] reads :: (steps ++ steps')) st'

section Runs

variable {flavor : Flavor} {c : Code} {task : Task} {st st' : Stage} {steps : List Step}

def performed (flavor : Flavor) : Stmt → Emit Code
  | .expression t => do
    let (c, _) ← expr flavor t
    return c
  | .block body => do
    enterScope
    let c ← stmts flavor body
    leaveScope
    return c
  | .declare name type init => declareVar flavor { name, type, kind := .varDecl } init.toList
  | .assign parts => assign flavor .assign parts
  | .cond parts => do
    let join ← newLabel
    let c ← ifChain flavor join parts
    return c ++ [.label join]
  | .whileLoop condition body => do
    let start ← newLabel
    let done ← newLabel
    let (c, _) ← expr flavor condition
    let saved ← enterLoop ⟨done, start⟩
    let b ← stmt flavor body
    leaveLoop saved
    return whileCode start done c b
  | .forRange name first last body => do
    enterScope
    let counter ← hiddenLocal .integer
    let limit ← hiddenLocal .integer
    let (a, _) ← expr flavor first
    let (b, _) ← expr flavor last
    let _ ← bindLocal name .integer counter
    let start ← newLabel
    let step ← newLabel
    let done ← newLabel
    let saved ← enterLoop ⟨done, step⟩
    let c ← stmt flavor body
    leaveLoop saved
    leaveScope
    return forCode counter limit start step done a b c
  | .ret value => returnValue flavor value.toList
  | .jump kind => jump kind
  | .classDecl name fields => do
    let _ ← declareClass name fields
    return [.comment ("class " ++ name ++ ": " ++ Bytes.ofNat fields.length ++ " fields")]
  | .refused issue => do
    limit issue.kind issue.cause
    return [.comment (refusal issue)]

theorem stmt_eq {t : Term} {inner : Stmt} (h : t.stmt? = some inner) :
    stmt flavor t = performed flavor inner := by
  refine Term.stmt?_cases (motive := fun t inner => stmt flavor t = performed flavor inner)
    (fun p callee args => ?_) (fun p condition body rest hkind => ?_)
    (fun p first last body rest hkind => ?_) (fun p parts inner hwhile hfor h => ?_) h
  · rfl
  · rw [stmt.eq_def]
    simp only [hkind]
    rfl
  · rw [stmt.eq_def]
    simp only [hkind]
    rfl
  · rw [stmt.eq_def]
    unfold Term.stmt? at h
    cases hkind : p.kind with
    | whileLoop => exact absurd hkind hwhile
    | forRange => exact absurd hkind hfor
    | varDecl | ret =>
      simp only [hkind, Option.some.injEq] at h ⊢
      subst h
      cases parts <;> rfl
    | _ =>
      simp only [hkind, Option.some.injEq] at h ⊢
      subst h
      rfl

def Task.Runs (flavor : Flavor) : Task → Stage → Code → Stage → Prop
  | .stmt inner, st, c, st' => Ends (performed flavor inner) st.1 st.2 c st'.1 st'.2
  | .stmts ts, st, c, st' => Ends (Arm64.stmts flavor ts) st.1 st.2 c st'.1 st'.2
  | .chain join ts, st, c, st' => Ends (ifChain flavor join ts) st.1 st.2 c st'.1 st'.2

/-- What the rules say is what the generator does. -/
theorem Executes.runs (h : Executes flavor task st c steps st') : task.Runs flavor st c st' := by
  induction h with
  | expression h => exact ends_bind h.runs ends_pure
  | block _ hscopes ih =>
    exact ends_bind ends_enterScope (ends_bind ih
      (ends_bind (ends_leaveScope hscopes) ends_pure))
  | @declare name type init s ctx declared c _ _ s' ctx' fn sym htype h hfn hsym =>
    subst hsym
    have hstored : Ends (do
        let (c, _) ← expr flavor init
        let sym ← declareLocal name declared
        return c ++ store sym) s ctx (c ++ store (.localVar name declared fn.nextSlot)) s'
          (ctx'.declaring fn name declared) :=
      ends_bind h.runs (ends_bind (ends_declareLocal hfn) ends_pure)
    by_cases hunknown : type = .unknown
    · rw [declaredType, if_pos hunknown] at htype
      simp only [Task.Runs, performed, declareVar, if_pos hunknown]
      exact ends_bind (ends_typeOf htype) hstored
    · rw [declaredType, if_neg hunknown] at htype
      cases htype
      simp only [Task.Runs, performed, declareVar, if_neg hunknown]
      exact hstored
  | declareZero hfn hsym =>
    subst hsym
    exact ends_bind (ends_declareLocal hfn) ends_pure
  | assign h => exact h.runs
  | cond hjoin _ ih =>
    subst hjoin
    exact ends_bind ends_newLabel (ends_bind ih ends_pure)
  | whileLoop hstart hdone htest hfn hstmt _ hfn' ih =>
    subst hstart hdone
    rw [Task.Runs, ← stmt_eq hstmt] at ih
    exact ends_bind ends_newLabel (ends_bind ends_newLabel (ends_bind
      htest.runs (ends_bind (ends_enterLoop hfn) (ends_bind ih
      (ends_bind (ends_leaveLoop hfn') ends_pure)))))
  | @forRange name _ _ _ _ _ _ fn _ _ _ _ _ _ _ _ ctx2 _ _ _ _ _ _ _ _ _ _ _ _ _ hfn hfirst hlast
      hsym hctx3 hstart hstep hdone hfn3 hstmt _ hfn4 hscopes ih =>
    subst hsym hctx3 hstart hstep hdone
    rw [Task.Runs, ← stmt_eq hstmt] at ih
    -- The bounds leave the function as it is, so the slot of the counter is still taken.
    have hfn2 : ctx2.function = some { fn with nextSlot := fn.nextSlot + 2 } :=
      hlast.kept.function.trans hfirst.kept.function
    exact ends_bind ends_enterScope (ends_bind (ends_hiddenLocal .integer hfn)
      (ends_bind (ends_hiddenLocal .integer rfl) (ends_bind hfirst.runs
      (ends_bind hlast.runs (ends_bind
        (ends_bindLocal name hfn2 (Nat.le_succ (fn.nextSlot + 1)))
      (ends_bind ends_newLabel (ends_bind ends_newLabel (ends_bind ends_newLabel
      (ends_bind (ends_enterLoop hfn3) (ends_bind ih (ends_bind (ends_leaveLoop hfn4)
      (ends_bind (ends_leaveScope hscopes) ends_pure))))))))))))
  | ret h hfn => exact ends_bind h.runs (ends_bind (ends_returnLabel hfn) ends_pure)
  | retZero hfn =>
    exact ends_bind ends_context (ends_bind (ends_returnLabel hfn) ends_pure)
  | jump h =>
    refine ends_bind ends_context ?_
    rw [h]
    exact ends_pure
  | jumpOutside h =>
    refine ends_bind ends_context ?_
    rw [h]
    exact ends_bind ends_limit ends_pure
  | classDecl => exact ends_bind ends_declareClass ends_pure
  | refused => exact ends_bind ends_limit ends_pure
  | nil | chainNil => exact ends_pure
  | cons hstmt _ _ ih ihrest =>
    rw [Task.Runs, ← stmt_eq hstmt] at ih
    exact ends_bind ih (ends_bind ihrest ends_pure)
  | chainLast hstmt _ ih =>
    rw [Task.Runs, ← stmt_eq hstmt] at ih
    exact ih
  | chainLink hnext htest hstmt _ _ ih ihrest =>
    subst hnext
    rw [Task.Runs, ← stmt_eq hstmt] at ih
    exact ends_bind ends_newLabel (ends_bind htest.runs (ends_bind ih
      (ends_bind ihrest ends_pure)))

/-- What a statement leaves alone. -/
theorem Executes.advances (h : Executes flavor task st c steps st') : st.2.Advances st'.2 := by
  induction h with
  | expression h | assign h => exact h.kept.advances
  | block _ hscopes ih => exact ih.enclosed hscopes
  | declare _ h hfn => exact h.kept.advances.trans (.declaring _ hfn _ _)
  | declareZero hfn => exact .declaring _ hfn _ _
  | cond _ _ ih => exact (Advances.labeling _ _).trans ih
  | whileLoop _ _ htest hfn _ _ hfn' ih =>
    exact ((Advances.labeling _ _).trans htest.kept.advances).trans (.looped _ hfn ih hfn')
  | forRange hfn hfirst hlast hsym hctx3 _ _ _ hfn3 _ _ hfn4 hscopes ih =>
    exact (Advances.counted hfn (hfirst.kept.trans hlast.kept) hsym hctx3 hfn3 ih hfn4).enclosed
      hscopes
  | ret h => exact h.kept.advances
  | retZero | jump => exact .refl _
  | jumpOutside | refused => exact Kept.reporting.advances
  | classDecl => exact .declareHere _ rfl fun hkind => by cases hkind
  | nil | chainNil => exact .refl _
  | cons _ _ _ ih1 ih2 => exact ih1.trans ih2
  | chainLast _ _ ih => exact ih
  | chainLink _ htest _ _ _ ih1 ih2 =>
    exact (((Advances.labeling _ _).trans htest.kept.advances).trans ih1).trans ih2

/-- What a statement does to the output. -/
theorem Executes.changes (h : Executes flavor task st c steps st') : Changes flavor st st' := by
  induction h with
  | expression h | assign h | ret h => exact h.changes
  | block _ _ ih => exact .tail (ih.after rfl rfl) (.context rfl rfl)
  | declare _ h =>
    exact h.changes.tail (.context (helpers_declareHere _ _) (data_declareHere _ _))
  | declareZero | classDecl =>
    exact .single (.context (helpers_declareHere _ _) (data_declareHere _ _))
  | cond _ _ ih => exact ih.after rfl rfl
  | whileLoop _ _ htest _ _ _ _ ih =>
    exact .tail (.trans (htest.changes.after rfl rfl) (ih.after rfl rfl)) (.context rfl rfl)
  | forRange _ hfirst hlast _ hctx3 _ _ _ _ _ _ _ _ ih =>
    subst hctx3
    refine .trans (hfirst.changes.after rfl rfl) (hlast.changes.trans ?_)
    exact .tail (ih.after (helpers_declareHere _ _) (data_declareHere _ _)) (.context rfl rfl)
  | retZero | jump | nil | chainNil => exact .refl
  | jumpOutside | refused => exact .single .reporting
  | cons _ _ _ ih1 ih2 => exact ih1.trans ih2
  | chainLast _ _ ih => exact ih
  | chainLink _ htest _ _ _ ih1 ih2 =>
    exact .trans (htest.changes.after rfl rfl) (ih1.trans ih2)

end Runs

end Codegen.Arm64
