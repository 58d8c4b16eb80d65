import Codegen.Proofs.Wasm.Effects

/-!
# How WebAssembly Code of Statements Comes About

`Executes` continues `Produces` to statements. A rule says which labels and slots a statement
takes, in which context its parts are lowered, what is put together from their code, and which
steps were made on the way.
-/

namespace Codegen.Wasm

open Context

/-- What is lowered: a statement, statements in sequence, or conditions with their bodies. -/
inductive Task where
  | stmt (stmt : Stmt)
  | stmts (ts : List Term)
  | chain (ts : List Term)

def returning (scratch : Nat) (rep : Rep) : Code :=
  (match rep with | .fat => pack scratch | .scalar => []) ++ [.ret]

variable (scratch : Nat) in
/-- How code of statements comes about. -/
inductive Executes : Task → Stage → Code → List Step → Stage → Prop where
  | expression {t st c cells reads st'} (h : Produces scratch (.expr t) st ⟨c, cells, reads⟩ st') :
      Executes (.stmt (.expression t)) st (c ++ discard cells) [.evaluated [t] reads] st'
  | block {body s ctx c steps s' ctx' scope outer}
      (h : Executes (.stmts body) (s, ctx.entering) c steps (s', ctx'))
      (hscopes : ctx'.scopes = scope :: outer) :
      Executes (.stmt (.block body)) (s, ctx) c steps (s', { ctx' with scopes := outer })
  | declare {name type init s ctx declared c cells reads s' ctx' v fn sym}
      (htype : ctx.declaredType type init = .ok declared)
      (h : Produces scratch (.expr init) (s, ctx) ⟨c, cells, reads⟩ (s', ctx'))
      (hv : coercion init declared (settle (c, cells)) = v)
      (hfn : ctx'.function = some fn) (hsym : sym = .localVar name declared fn.nextSlot) :
      Executes (.stmt (.declare name type (some init))) (s, ctx) (v.1 ++ store sym)
        [.evaluated [init] reads, .declared sym]
        (s', (ctx'.reporting v.2).declaring fn name declared)
  | declareZero {name type s ctx fn sym} (hfn : ctx.function = some fn)
      (hsym : sym = .localVar name type fn.nextSlot) :
      Executes (.stmt (.declare name type none)) (s, ctx) (zero type.rep ++ store sym)
        [.declared sym] (s, ctx.declaring fn name type)
  | assign {parts st c reads st'} (h : Produces scratch (.assign .assign parts) st ⟨c, 0, reads⟩ st') :
      Executes (.stmt (.assign parts)) st c [.evaluated parts reads] st'
  | cond {parts st c steps st'} (h : Executes (.chain parts) st c steps st') :
      Executes (.stmt (.cond parts)) st c steps st'
  | whileLoop {condition body stmt s ctx done top c cells reads s1 ctx1 fn b steps s2 ctx2 fn'}
      (hdone : done = ⟨ctx.labels⟩) (htop : top = ⟨ctx.labels + 1⟩)
      (hcondition : Produces scratch (.expr condition) (s, ctx.labeling 2) ⟨c, cells, reads⟩
        (s1, ctx1)) (hfn : ctx1.function = some fn) (hstmt : body.stmt? = some stmt)
      (h : Executes (.stmt stmt) (s1, ctx1.looping fn (some ⟨done, top⟩)) b steps (s2, ctx2))
      (hfn' : ctx2.function = some fn') :
      Executes (.stmt (.whileLoop condition body)) (s, ctx)
        (whileCode done top ((settle (c, cells)).1 ++ truth) b)
        (.evaluated [condition] reads :: steps) (s2, ctx2.looping fn' fn.loop)
  | forRange {name first last body stmt s ctx fn a acells areads s1 ctx1 va b bcells breads s2 ctx2
        vb sym ctx3 done top step fn3 c steps s4 ctx4 fn4 scope outer}
      (hfn : ctx.function = some fn)
      (hfirst : Produces scratch (.expr first) (s, ctx.entering.taking fn 2) ⟨a, acells, areads⟩
        (s1, ctx1)) (hva : coercion first .integer (settle (a, acells)) = va)
      (hlast : Produces scratch (.expr last) (s1, ctx1.reporting va.2) ⟨b, bcells, breads⟩
        (s2, ctx2)) (hvb : coercion last .integer (settle (b, bcells)) = vb)
      (hsym : sym = .localVar name .integer fn.nextSlot)
      (hctx3 : ctx3 = (ctx2.reporting vb.2).declareHere sym)
      (hdone : done = ⟨ctx3.labels⟩) (htop : top = ⟨ctx3.labels + 1⟩)
      (hstep : step = ⟨ctx3.labels + 2⟩) (hfn3 : ctx3.function = some fn3)
      (hstmt : body.stmt? = some stmt)
      (h : Executes (.stmt stmt) (s2, (ctx3.labeling 3).looping fn3 (some ⟨done, step⟩)) c
        steps (s4, ctx4))
      (hfn4 : ctx4.function = some fn4) (hscopes : ctx4.scopes = scope :: outer) :
      Executes (.stmt (.forRange name first last body)) (s, ctx)
        (forCode fn.nextSlot (fn.nextSlot + 1) done top step va.1 vb.1 c)
        ([.reserved fn.nextSlot, .reserved (fn.nextSlot + 1), .evaluated [first] areads,
          .evaluated [last] breads, .declared sym] ++ steps)
        (s4, { ctx4.looping fn4 fn3.loop with scopes := outer })
  | ret {value s ctx c cells reads st'} (hresult : ctx.returnType.hasResult = true)
      (h : Produces scratch (.expr value) (s, ctx) ⟨c, cells, reads⟩ st') :
      Executes (.stmt (.ret (some value))) (s, ctx)
        ((settle (c, cells)).1 ++ returning scratch (settle (c, cells)).2)
        [.evaluated [value] reads] st'
  | retEffect {value s ctx c cells reads st'} (hresult : ctx.returnType.hasResult = false)
      (h : Produces scratch (.expr value) (s, ctx) ⟨c, cells, reads⟩ st') :
      Executes (.stmt (.ret (some value))) (s, ctx) (c ++ discard cells ++ [.ret])
        [.evaluated [value] reads] st'
  | retZero {s ctx c} (hcode : c = if ctx.returnType.hasResult then [.const 0, .ret] else [.ret]) :
      Executes (.stmt (.ret none)) (s, ctx) c [] (s, ctx)
  | jump {kind s ctx targets} (h : ctx.loopTargets? = some targets) :
      Executes (.stmt (.jump kind)) (s, ctx)
        [.br (if kind = .brk then targets.brk else targets.cont)] [] (s, ctx)
  | jumpOutside {kind s ctx} (h : ctx.loopTargets? = none) :
      Executes (.stmt (.jump kind)) (s, ctx) [.nop] []
        (s, ctx.reporting [⟨kind, .outsideLoop kind.head⟩])
  | classDecl {name fields s ctx} :
      Executes (.stmt (.classDecl name fields)) (s, ctx)
        [.comment ("class " ++ name ++ ": " ++ Bytes.ofNat fields.length ++ " fields")]
        [.declared (.ofClass name fields)] (s, ctx.declareHere (.ofClass name fields))
  | refused {issue s ctx} :
      Executes (.stmt (.refused issue)) (s, ctx) [.nop] [] (s, ctx.reporting [issue])
  | nil {st} : Executes (.stmts []) st [] [] st
  | cons {t ts stmt st c steps st1 cs steps' st'} (hstmt : t.stmt? = some stmt)
      (h : Executes (.stmt stmt) st c steps st1) (hrest : Executes (.stmts ts) st1 cs steps' st') :
      Executes (.stmts (t :: ts)) st (c ++ cs) (steps ++ steps') st'
  | chainNil {st} : Executes (.chain []) st [] [] st
  | chainLast {body stmt st c steps st'} (hstmt : body.stmt? = some stmt)
      (h : Executes (.stmt stmt) st c steps st') :
      Executes (.chain [body]) st c steps st'
  | chainEnd {condition body stmt st c cells reads st1 b steps st'}
      (hcondition : Produces scratch (.expr condition) st ⟨c, cells, reads⟩ st1)
      (hstmt : body.stmt? = some stmt) (h : Executes (.stmt stmt) st1 b steps st') :
      Executes (.chain [condition, body]) st
        ((settle (c, cells)).1 ++ truth ++ [.cond b none]) (.evaluated [condition] reads :: steps) st'
  | chainLink {condition body next rest stmt st c cells reads st1 b steps st2 cs steps' st'}
      (hcondition : Produces scratch (.expr condition) st ⟨c, cells, reads⟩ st1)
      (hstmt : body.stmt? = some stmt) (h : Executes (.stmt stmt) st1 b steps st2)
      (hrest : Executes (.chain (next :: rest)) st2 cs steps' st') :
      Executes (.chain (condition :: body :: next :: rest)) st
        ((settle (c, cells)).1 ++ truth ++ [.cond b (some cs)])
        (.evaluated [condition] reads :: (steps ++ steps')) st'

section Runs

variable {scratch : Nat} {s s' : Output} {ctx ctx' : Context} {c : Code} {t : Term} {cells : Nat}
  {reads : List Read} {task : Task} {st st' : Stage} {steps : List Step}

theorem Produces.value (h : Produces scratch (.expr t) (s, ctx) ⟨c, cells, reads⟩ (s', ctx')) :
    Ends (value scratch t) s ctx (settle (c, cells)) s' ctx' :=
  ends_map settle h.runs

theorem Produces.valueAs (h : Produces scratch (.expr t) (s, ctx) ⟨c, cells, reads⟩ (s', ctx'))
    (type : Ty) :
    Ends (valueAs scratch t type) s ctx (coercion t type (settle (c, cells))).1 s'
      (ctx'.reporting (coercion t type (settle (c, cells))).2) :=
  ends_bind h.value (ends_coerce rfl _ _)

theorem Produces.condition (h : Produces scratch (.expr t) (s, ctx) ⟨c, cells, reads⟩ (s', ctx')) :
    Ends (condition scratch t) s ctx ((settle (c, cells)).1 ++ truth) s' ctx' :=
  ends_bind h.value ends_pure

theorem Produces.effect (h : Produces scratch (.expr t) (s, ctx) ⟨c, cells, reads⟩ (s', ctx')) :
    Ends (effect scratch t) s ctx (c ++ discard cells) s' ctx' :=
  ends_bind h.runs ends_pure

theorem returnValue_head (parts : List Term) :
    returnValue scratch parts = returnValue scratch parts.head?.toList := by
  cases parts with
  | nil => rfl
  | cons =>
    unfold returnValue
    congr
    funext ctx
    dsimp only
    cases ctx.returnType.hasResult <;> rfl

def performed (scratch : Nat) : Stmt → Emit Code
  | .expression t => effect scratch t
  | .block body => do
    Gen.enterScope
    let c ← stmts scratch body
    Gen.leaveScope
    return c
  | .declare name type init => declareVar scratch { name, type, kind := .varDecl } init.toList
  | .assign parts => assign scratch .assign parts
  | .cond parts => ifChain scratch parts
  | .whileLoop test body => do
    let done ← Gen.newLabel
    let top ← Gen.newLabel
    let c ← condition scratch test
    let saved ← Gen.enterLoop ⟨done, top⟩
    let b ← stmt scratch body
    Gen.leaveLoop saved
    return whileCode done top c b
  | .forRange name first last body => do
    Gen.enterScope
    let counter ← Gen.hiddenLocal .integer
    let limit ← Gen.hiddenLocal .integer
    let a ← valueAs scratch first .integer
    let b ← valueAs scratch last .integer
    let _ ← Gen.bindLocal name .integer counter
    let done ← Gen.newLabel
    let top ← Gen.newLabel
    let step ← Gen.newLabel
    let saved ← Gen.enterLoop ⟨done, step⟩
    let c ← stmt scratch body
    Gen.leaveLoop saved
    Gen.leaveScope
    return forCode counter limit done top step a b c
  | .ret value => returnValue scratch value.toList
  | .jump kind => jump kind
  | .classDecl name fields => do
    let _ ← Gen.declareClass name fields
    return [.comment ("class " ++ name ++ ": " ++ Bytes.ofNat fields.length ++ " fields")]
  | .refused issue => do
    Gen.limit issue.kind issue.cause
    return [.nop]

theorem stmt_eq {inner : Stmt} (h : t.stmt? = some inner) :
    stmt scratch t = performed scratch inner := by
  refine Term.stmt?_cases (motive := fun t inner => stmt scratch t = performed scratch inner)
    (fun p callee args => ?_) (fun p condition body rest hkind => ?_)
    (fun p first last body rest hkind => ?_) (fun p parts inner hwhile hfor h => ?_) h
  · rfl
  · rw [stmt.eq_def]
    simp only [hkind]
    rfl
  · rw [stmt.eq_def]
    simp only [hkind]
    rfl
  · rw [stmt.eq_def]
    unfold Term.stmt? at h
    cases hkind : p.kind with
    | whileLoop => exact absurd hkind hwhile
    | forRange => exact absurd hkind hfor
    | varDecl =>
      simp only [hkind, Option.some.injEq] at h ⊢
      subst h
      cases parts <;> rfl
    | ret =>
      simp only [hkind, Option.some.injEq] at h ⊢
      subst h
      exact returnValue_head parts
    | _ =>
      simp only [hkind, Option.some.injEq] at h ⊢
      subst h
      rfl

def Task.Runs (scratch : Nat) : Task → Stage → Code → Stage → Prop
  | .stmt inner, st, c, st' => Ends (performed scratch inner) st.1 st.2 c st'.1 st'.2
  | .stmts ts, st, c, st' => Ends (Wasm.stmts scratch ts) st.1 st.2 c st'.1 st'.2
  | .chain ts, st, c, st' => Ends (ifChain scratch ts) st.1 st.2 c st'.1 st'.2

/-- What the rules say is what the generator does. -/
theorem Executes.runs (h : Executes scratch task st c steps st') : task.Runs scratch st c st' := by
  induction h with
  | expression h => exact h.effect
  | block _ hscopes ih =>
    exact ends_bind ends_enterScope (ends_bind ih
      (ends_bind (ends_leaveScope hscopes) ends_pure))
  | @declare name type init s ctx declared c _ _ s' _ _ _ sym htype h hv hfn hsym =>
    subst hsym hv
    have hstored : Ends (do
        let c ← Wasm.valueAs scratch init declared
        let sym ← Gen.declareLocal name declared
        return c ++ store sym) s ctx _ s' _ :=
      ends_bind (h.valueAs declared) (ends_bind (ends_declareLocal hfn)
        ends_pure)
    by_cases hunknown : type = .unknown
    · rw [declaredType, if_pos hunknown] at htype
      simp only [Task.Runs, performed, declareVar, if_pos hunknown]
      exact ends_bind (ends_typeOf htype) hstored
    · rw [declaredType, if_neg hunknown] at htype
      cases htype
      simp only [Task.Runs, performed, declareVar, if_neg hunknown]
      exact hstored
  | declareZero hfn hsym =>
    subst hsym
    exact ends_bind (ends_declareLocal hfn) ends_pure
  | assign h => exact h.runs
  | cond _ ih => exact ih
  | whileLoop hdone htop htest hfn hstmt _ hfn' ih =>
    subst hdone htop
    rw [Task.Runs, ← stmt_eq hstmt] at ih
    exact ends_bind ends_newLabel (ends_bind ends_newLabel (ends_bind
      htest.condition (ends_bind (ends_enterLoop hfn) (ends_bind ih
      (ends_bind (ends_leaveLoop hfn') ends_pure)))))
  | @forRange name _ _ _ _ _ _ fn _ _ _ _ _ _ _ _ _ _ ctx2 _ _ _ _ _ _ _ _ _ _ _ _ _ _ hfn hfirst
      hva hlast hvb hsym hctx3 hdone htop hstep hfn3 hstmt _ hfn4 hscopes ih =>
    subst hva hvb hsym hctx3 hdone htop hstep
    rw [Task.Runs, ← stmt_eq hstmt] at ih
    -- The bounds leave the function as it is, so the slot of the counter is still taken.
    have hfn2 : ctx2.function = some { fn with nextSlot := fn.nextSlot + 2 } :=
      hlast.kept.function.trans hfirst.kept.function
    exact ends_bind ends_enterScope (ends_bind (ends_hiddenLocal .integer hfn)
      (ends_bind (ends_hiddenLocal .integer rfl) (ends_bind (hfirst.valueAs _)
      (ends_bind (hlast.valueAs _) (ends_bind
        (ends_bindLocal name hfn2 (Nat.le_succ (fn.nextSlot + 1)))
      (ends_bind ends_newLabel (ends_bind ends_newLabel (ends_bind ends_newLabel
      (ends_bind (ends_enterLoop hfn3) (ends_bind ih (ends_bind (ends_leaveLoop hfn4)
      (ends_bind (ends_leaveScope hscopes) ends_pure))))))))))))
  | ret hresult h =>
    refine ends_bind ends_context ?_
    simp only [hresult]
    unfold returning
    rw [← List.append_assoc]
    exact ends_bind h.value ends_pure
  | retEffect hresult h =>
    refine ends_bind ends_context ?_
    simp only [hresult]
    exact ends_bind h.effect ends_pure
  | @retZero s ctx c hcode =>
    refine ends_bind ends_context ?_
    subst hcode
    cases hresult : ctx.returnType.hasResult <;> simp only [hresult] <;> exact ends_pure
  | jump h =>
    refine ends_bind ends_context ?_
    rw [h]
    exact ends_pure
  | jumpOutside h =>
    refine ends_bind ends_context ?_
    rw [h]
    exact ends_bind ends_limit ends_pure
  | classDecl => exact ends_bind ends_declareClass ends_pure
  | refused => exact ends_bind ends_limit ends_pure
  | nil | chainNil => exact ends_pure
  | cons hstmt _ _ ih ihrest =>
    rw [Task.Runs, ← stmt_eq hstmt] at ih
    exact ends_bind ih (ends_bind ihrest ends_pure)
  | chainLast hstmt _ ih =>
    rw [Task.Runs, ← stmt_eq hstmt] at ih
    exact ih
  | chainEnd htest hstmt _ ih =>
    rw [Task.Runs, ← stmt_eq hstmt] at ih
    exact ends_bind htest.condition (ends_bind ih ends_pure)
  | chainLink htest hstmt _ _ ih ihrest =>
    rw [Task.Runs, ← stmt_eq hstmt] at ih
    exact ends_bind htest.condition (ends_bind ih (ends_bind ihrest ends_pure))

/-- What a statement leaves alone. -/
theorem Executes.advances (h : Executes scratch task st c steps st') : st.2.Advances st'.2 := by
  induction h with
  | expression h | assign h | ret _ h | retEffect _ h => exact h.kept.advances
  | block _ hscopes ih => exact ih.enclosed hscopes
  | declare _ h _ hfn =>
    exact (h.kept.trans .reporting).advances.trans (.declaring (Context.reporting _ _) hfn _ _)
  | declareZero hfn => exact .declaring _ hfn _ _
  | cond _ ih => exact ih
  | whileLoop _ _ htest hfn _ _ hfn' ih =>
    exact ((Advances.labeling _ _).trans htest.kept.advances).trans (.looped _ hfn ih hfn')
  | forRange hfn hfirst _ hlast _ hsym hctx3 _ _ _ hfn3 _ _ hfn4 hscopes ih =>
    have hkept := (hfirst.kept.trans .reporting).trans hlast.kept
    exact (Advances.counted hfn (hkept.trans .reporting) hsym hctx3 hfn3 ih hfn4).enclosed
      hscopes
  | retZero | jump | nil | chainNil => exact .refl _
  | jumpOutside | refused => exact Kept.reporting.advances
  | classDecl => exact .declareHere _ rfl fun hkind => by cases hkind
  | cons _ _ _ ih1 ih2 => exact ih1.trans ih2
  | chainLast _ _ ih => exact ih
  | chainEnd htest _ _ ih => exact htest.kept.advances.trans ih
  | chainLink htest _ _ _ ih1 ih2 => exact (htest.kept.advances.trans ih1).trans ih2

def Task.terms : Task → List Term
  | .stmt s => s.terms
  | .stmts ts | .chain ts => ts

/-- What a statement does to the module. -/
theorem Executes.grows (h : Executes scratch task st c steps st') : Grows st st' := by
  induction h with
  | expression h | assign h | ret _ h | retEffect _ h => exact h.grows
  | block _ _ ih => exact .trans (ih.after rfl) (.of_helpers rfl)
  | declare _ h => exact h.grows.trans (.of_helpers (helpers_declareHere _ _))
  | declareZero | classDecl => exact .of_helpers (helpers_declareHere _ _)
  | cond _ ih => exact ih
  | whileLoop _ _ htest _ _ _ _ ih =>
    exact .trans (.trans (htest.grows.after rfl) (ih.after rfl)) (.of_helpers rfl)
  | forRange _ hfirst _ hlast _ _ hctx3 _ _ _ _ _ _ _ _ ih =>
    subst hctx3
    refine .trans (hfirst.grows.after rfl) (.trans (hlast.grows.after rfl) ?_)
    exact .trans (ih.after (helpers_declareHere _ _)) (.of_helpers rfl)
  | retZero | jump | nil | chainNil => exact .refl _
  | jumpOutside | refused => exact .reporting
  | cons _ _ _ ih1 ih2 => exact ih1.trans ih2
  | chainLast _ _ ih => exact ih
  | chainEnd htest _ _ ih => exact htest.grows.trans ih
  | chainLink htest _ _ _ ih1 ih2 => exact (htest.grows.trans ih1).trans ih2

end Runs

end Codegen.Wasm
