import Codegen.Proofs.Wasm.Balance
import Codegen.Proofs.Wasm.Program

/-!
# The Code of a Statement Closes

A statement leaves the operand stack as it found it, or it jumps. Whether its code is
valid depends on more than the code of an expression does: on the cells of the locals
that it declares, the results of the function it may return from, and the labels that it
may jump to.

A declaration takes cells that the function did not have before, so what a statement asks
of its setting is read off the context that it leaves and not the one that it began in. A
setting with room for a later context has room for the earlier ones, and it holds the names
of the later context if it holds those of the earlier one.
-/

namespace Codegen.Wasm

open Context

variable {looping : Bool}

namespace Setting

/-- The cells, the results and the jump targets of a function under way are there. -/
structure Frames (g : Setting) (labels : List Label) (fn : FunctionState) : Prop where
  slots : fn.nextSlot ≤ g.locals
  results : g.results = resultCells fn.result.hasResult
  targets : ∀ targets, fn.loop = some targets → targets.brk ∈ labels ∧ targets.cont ∈ labels

/-- The same for the function that is under way in a context. -/
def Carries (g : Setting) (labels : List Label) (k : Context) : Prop :=
  ∃ fn, k.function = some fn ∧ g.Frames labels fn

variable {g : Setting} {labels inner : List Label} {k k' : Context} {fn : FunctionState}
  {name : Bytes} {type : Ty}

theorem Carries.frames (h : g.Carries labels k) (hfn : k.function = some fn) :
    g.Frames labels fn := by
  rcases h with ⟨_, hgn, hframes⟩
  cases hfn.symm.trans hgn
  exact hframes

theorem Carries.earlier (h : g.Carries labels k') (hadvances : k.Advances k')
    (hin : k.Inside looping) : g.Carries labels k := by
  rcases hin.function with ⟨fn, hfn, -⟩
  rcases hadvances.function hfn with ⟨n, hn, hfn'⟩
  have hframes := h.frames hfn'
  exact ⟨fn, hfn, Nat.le_trans hn hframes.slots, hframes.results, hframes.targets⟩

/-- Inside a loop the targets are its own; cells and results are those of the function. -/
theorem Carries.inLoop {outside : Option LoopTargets} {targets : LoopTargets}
    (h : g.Carries labels (k.looping fn outside)) (hfn : k.function = some fn)
    (hloop : fn.loop = some targets) (hbrk : targets.brk ∈ inner) (hcont : targets.cont ∈ inner) :
    g.Carries inner k := by
  have hframes : g.Frames labels { fn with loop := outside } := h.frames rfl
  refine ⟨fn, hfn, hframes.slots, hframes.results, fun found hfound => ?_⟩
  cases hloop.symm.trans hfound
  exact ⟨hbrk, hcont⟩

theorem Carries.holds (h : g.Carries labels (k.declaring fn name type)) :
    g.Holds (.localVar name type fn.nextSlot) :=
  (h.frames (function_declaring k fn name type)).slots

theorem Hosts.declaring (h : g.Hosts k) (hsym : g.Holds (.localVar name type fn.nextSlot)) :
    g.Hosts (k.declaring fn name type) :=
  Hosts.declareHere h hsym

theorem Carries.returnType (h : g.Carries labels k) :
    g.results = resultCells k.returnType.hasResult := by
  rcases h with ⟨fn, hfn, hframes⟩
  rw [hframes.results, Context.returnType, hfn]
  rfl

end Setting

variable {labels : List Label} {g : Setting}

section Structures

variable {c : Code} {top : Label}

theorem closes_looping {c d : Code} {extra : List ValType} (hc : Types g (top :: labels) c [] extra)
    (hd : Closes g (top :: labels) d) : Closes g labels [.loop top (c ++ d ++ [.br top])] := by
  refine closes_loop ?_
  -- Whether the statements jump or not, the jump at the end is checked with what they leave.
  rcases hd ⟨extra ++ [], true⟩ with ⟨s', hs', -⟩
  have hfirst : checkAll g (top :: labels) c .fresh = some ⟨extra ++ [], true⟩ := hc [] true
  rw [checkAll_append, checkAll_append, hfirst, Option.bind_some, hs', Option.bind_some,
    checkAll_br (by simp)]
  rfl

/-- A loop is closed if its parts are. -/
theorem closes_whileCode {done : Label} {test body : Code} {extra : List ValType}
    (htest : Types g (top :: done :: labels) test [] (.i32 :: extra))
    (hbody : Closes g (top :: done :: labels) body) :
    Closes g labels (whileCode done top test body) := by
  have heqz : Types g (top :: done :: labels) [.num .eqz32] [.i32] [.i32] := fun _ _ => rfl
  have hleave : Types g (top :: done :: labels) [.num .eqz32, .brIf done] [.i32] [] :=
    heqz.append (types_brIf (by simp))
  exact closes_block (closes_looping (htest.append (hleave.frame extra)) hbody)

/-- So is a counting loop. -/
theorem closes_forCode {counter limit : Nat} {done step : Label} {first last body : Code}
    (hcounter : counter < g.locals) (hlimit : limit < g.locals)
    (hfirst : Types g labels first [] [.i64]) (hlast : Types g labels last [] [.i64])
    (hbody : Closes g (step :: top :: done :: labels) body) :
    Closes g labels (forCode counter limit done top step first last body) := by
  have hgreater : Types g (top :: done :: labels) [.num .gtS] [.i64, .i64] [.i32] := fun _ _ => rfl
  have htest : Types g (top :: done :: labels)
      [.localGet counter, .localGet limit, .num .gtS, .brIf done] [] [] :=
    (types_localGet hcounter).append (((types_localGet hlimit).frame [.i64]).append
      (hgreater.append (types_brIf (by simp))))
  have hadd : Types g (top :: done :: labels) [.const 1, .num .add] [.i64] [.i64] := fun _ _ => rfl
  have hstep : Types g (top :: done :: labels)
      [.localGet counter, .const 1, .num .add, .localSet counter] [] [] :=
    (types_localGet hcounter).append (hadd.append (types_localSet hcounter))
  have hloop := closes_block (closes_looping htest ((closes_block hbody).append hstep.closes))
  exact ((((hfirst.append (types_localSet hcounter)).append hlast).append
    (types_localSet hlimit)).closes).append hloop

/-- So is a `return`. -/
theorem closes_return {hasResult : Bool} (hresults : g.results = resultCells hasResult)
    (hc : Types g labels c [] (resultCells hasResult)) : Closes g labels (c ++ [.ret]) := by
  refine hc.closes_append fun cells live => ?_
  rw [← reverse_resultCells, ← hresults]
  exact checkAll_ret cells live

/-- A value that is returned is made one cell. -/
theorem closes_returning {scratch : Nat} {v : Code × Rep} (hresults : g.results = resultCells true)
    (hv : Types g labels v.1 [] (words v.2.words)) (hscratch : scratch < g.locals) :
    Closes g labels (v.1 ++ returning scratch v.2) := by
  unfold returning
  rw [← List.append_assoc]
  refine closes_return hresults (hv.append ?_)
  cases v.2 with
  | fat => exact types_pack hscratch
  | scalar => exact types_nil _

/-- A `break` and a `continue` go to labels around them. -/
theorem closes_jump {k : Context} (h : g.Carries labels k) {targets : LoopTargets}
    (htargets : k.loopTargets? = some targets) (kind : Kind) :
    Closes g labels [.br (if kind = .brk then targets.brk else targets.cont)] := by
  rcases h with ⟨fn, hfn, hframes⟩
  rw [loopTargets?_eq hfn] at htargets
  have hboth := hframes.targets _ htargets
  refine fun stack => ⟨.left, checkAll_br ?_ stack, Or.inr rfl⟩
  split
  · exact hboth.1
  · exact hboth.2

/-- A condition tests the top cell of a value. The other one, if there is one, stays. -/
theorem types_test {v : Code × Rep} (h : Types g labels v.1 [] (words v.2.words)) :
    Types g labels (v.1 ++ truth) [] (.i32 :: words (v.2.words - 1)) := by
  rcases v with ⟨c, _ | _⟩
  · exact h.append types_truth
  · exact h.append (types_truth.frame [.i64])

end Structures

/-- Whether every place in a statement gets the cells it takes. -/
def tidyStatement (env : Context) : Stmt → Bool
  | .expression t | .declare _ _ (some t) | .ret (some t) => tidy env t
  | .block body => tidyStmts env body
  | .assign parts => tidyAssign env parts
  | .cond parts => tidyChain env parts
  | .whileLoop condition body => tidy env condition && tidyStmt env body
  | .forRange name first last body =>
    tidy env first && tidy env last && tidyStmt (env.counting name) body
  | _ => true

variable {env : Context}

theorem tidyStatement_of_stmt? {t : Term} {s : Stmt} (h : t.stmt? = some s) :
    tidyStmt env t = true → tidyStatement env s = true := by
  refine Term.stmt?_cases (motive := fun t s => tidyStmt env t = true → tidyStatement env s = true)
    (fun p callee args htidy => ?_) (fun p condition body rest hkind htidy => ?_)
    (fun p first last body rest hkind htidy => ?_)
    (fun p parts s hwhile hfor h htidy => ?_) h
  · rwa [tidyStmt.eq_def] at htidy
  · rw [tidyStmt.eq_def] at htidy
    simp only [hkind] at htidy
    exact htidy
  · rw [tidyStmt.eq_def] at htidy
    simp only [hkind] at htidy
    exact htidy
  · rw [tidyStmt.eq_def] at htidy
    unfold Term.stmt? at h
    cases hkind : p.kind with
    | whileLoop => exact absurd hkind hwhile
    | forRange => exact absurd hkind hfor
    | varDecl | ret =>
      simp only [hkind, Option.some.injEq] at h htidy
      subst h
      cases parts with
      | nil => rfl
      | cons => exact htidy
    | brk | cont | classDecl | funcDecl | program | other =>
      simp only [hkind, Option.some.injEq] at h
      subst h
      rfl
    | _ =>
      simp only [hkind, Option.some.injEq] at h htidy
      subst h
      exact htidy

/-- What is asked of a task. -/
def Task.tidy (env : Context) : Task → Bool
  | .stmt s => tidyStatement env s
  | .stmts ts => tidyStmts env ts
  | .chain ts => tidyChain env ts

/-- In the body of a counting loop its counter is a name like any other. -/
theorem Setting.Suits.counting {k : Context} (h : g.Suits env k) (name : Bytes) {slot : Nat}
    (hslot : slot < g.locals) :
    g.Suits (env.counting name) (k.declareHere (.localVar name .integer slot)) := by
  have hcell : g.Holds (.localVar name .integer slot) := hslot
  exact ⟨h.hosts.declareHere hcell, h.agrees.declareHere rfl ⟨rfl, rfl, rfl, rfl⟩⟩

/-- The code of every tidy statement closes. -/
theorem Executes.closes {g : Setting} {labels : List Label} {scratch : Nat} {env : Context}
    {task : Task} {st st' : Stage} {c : Code} {steps : List Step} {looping : Bool}
    (h : Executes scratch task st c steps st') (hnames : g.Suits env st.2)
    (hin : st.2.Inside looping) (hg : g.Serves scratch st'.2.helpers)
    (hcarries : g.Carries labels st'.2) (hf : Term.Formed task.terms)
    (htidy : task.tidy env = true) : Closes g labels c ∧ g.Hosts st'.2 := by
  -- Each statement may declare names, and a loop has labels of its own.
  induction h generalizing env labels looping with
  | expression h =>
    exact ⟨((h.types hnames hg hf htidy).append (types_discard _)).closes,
      (hnames.kept h.kept).hosts⟩
  | block h hscopes ih =>
    obtain ⟨rfl, hglobals⟩ := h.advances.leaving hscopes
    have hclosed := ih ⟨hnames.hosts, hnames.agrees⟩ ⟨⟨[], _, rfl⟩, hin.function⟩ hg hcarries hf htidy
    exact ⟨hclosed.1, hnames.hosts.congr rfl hglobals⟩
  | declare _ h hv _ hsym =>
    subst hv hsym
    rw [show (Context.declaring _ _ _ _).helpers = _ from helpers_declareHere _ _] at hg
    exact ⟨((types_coercion (h.types_tidy hnames hg hf htidy) _ _).append
      (types_store rfl hcarries.holds)).closes,
      (hnames.kept (h.kept.trans .reporting)).hosts.declaring hcarries.holds⟩
  | declareZero _ hsym =>
    subst hsym
    exact ⟨((types_zero _).append (types_store rfl hcarries.holds)).closes,
      hnames.hosts.declaring hcarries.holds⟩
  | assign h => exact ⟨(h.types hnames hg hf htidy).closes, (hnames.kept h.kept).hosts⟩
  | cond _ ih => exact ih hnames hin hg hcarries hf htidy
  | @whileLoop _ _ _ _ _ done top _ _ _ _ _ _ _ _ _ ctx2 _ _ _ htest _ hstmt h hfn' ih =>
    obtain ⟨hcond, hbody⟩ := Bool.and_eq_true_iff.mp htidy
    have hstart : g.Suits env (Context.labeling _ 2) := ⟨hnames.hosts, hnames.agrees⟩
    have hnames1 := hstart.kept htest.kept
    rcases h.advances.function rfl with ⟨n, hn, hfn2⟩
    cases hfn'.symm.trans hfn2
    have hlooped : g.Carries labels (ctx2.looping _ _) := hcarries
    have hinner : g.Carries (top :: done :: labels) ctx2 :=
      hlooped.inLoop hfn' rfl (by simp) (by simp)
    have hin1 := hin.advances ((Advances.labeling _ 2).trans htest.kept.advances)
    have hclosed := ih ⟨hnames1.hosts, hnames1.agrees⟩ ⟨hin1.scope, _, rfl, rfl⟩ hg hinner
      (Term.Formed.stmt hstmt hf.uncons.2) (tidyStatement_of_stmt? hstmt hbody)
    refine ⟨closes_whileCode (types_test ?_) hclosed.1, hclosed.2⟩
    exact htest.types_tidy hstart (hg.earlier h.grows.helpers) hf.uncons.1 hcond
  | @forRange name first last body _ _ ctx fn _ _ _ _ ctx1 va _ _ _ _ ctx2 vb sym ctx3 done top
      step fn3 _ _ _ ctx4 _ scope _ hfn hfirst hva hlast hvb hsym hctx3 _ _ _ hfn3 hstmt h hfn4
      hscopes ih =>
      obtain ⟨htidyBounds, hbody⟩ := Bool.and_eq_true_iff.mp htidy
      obtain ⟨htidyFirst, htidyLast⟩ := Bool.and_eq_true_iff.mp htidyBounds
      -- The bounds are evaluated in the scope of the loop, where there are no names yet.
      have hstart : g.Suits env (ctx.entering.taking fn 2) := ⟨hnames.hosts, hnames.agrees⟩
      have hkept1 : Context.Kept _ (ctx1.reporting va.2) := hfirst.kept.trans .reporting
      have hkept2 : Context.Kept _ (ctx2.reporting vb.2) := (hkept1.trans hlast.kept).trans .reporting
      have hnames1 := hstart.kept hkept1
      have hnames2 := hstart.kept hkept2
      -- The two slots of the loop are below those that its body takes.
      have hslots : fn3.nextSlot = fn.nextSlot + 2 :=
        (slotsTaken_eq hfn3).symm.trans (Advances.slotsTaken_counting hkept2 hctx3)
      rcases h.advances.function rfl with ⟨n, hn, hfn5⟩
      cases hfn4.symm.trans hfn5
      have hlooped : g.Carries labels (ctx4.looping _ _) := hcarries
      have hinner : g.Carries (step :: top :: done :: labels) ctx4 :=
        hlooped.inLoop hfn4 rfl (by simp) (by simp)
      have hroom : n ≤ g.locals := (hinner.frames hfn4).slots
      have hn : fn3.nextSlot ≤ n := hn
      have hnames3 : g.Suits (env.counting name) ctx3 := by
        rw [hctx3, hsym]
        exact hnames2.counting name (by omega)
      have hentered : ctx.entering.Inside looping := ⟨⟨[], ctx.scopes, rfl⟩, hin.function⟩
      have hin3 := hentered.advances (.counting hfn hkept2 hsym hctx3)
      have hclosed := ih ⟨hnames3.hosts, hnames3.agrees⟩ ⟨hin3.scope, _, rfl, rfl⟩ hg hinner
        (Term.Formed.stmt hstmt hf.uncons.2.uncons.2) (tidyStatement_of_stmt? hstmt hbody)
      have hg2 : g.Serves scratch ctx2.helpers := by
        have hhelpers : ctx3.helpers = ctx2.helpers := by rw [hctx3, helpers_declareHere]; rfl
        exact hhelpers ▸ hg.earlier h.grows.helpers
      subst hva hvb
      obtain ⟨rfl, hglobals⟩ := (Advances.counted hfn hkept2 hsym hctx3 hfn3
        h.advances hfn4).leaving hscopes
      refine ⟨closes_forCode (by omega) (by omega) (types_coercion ?_ first .integer)
        (types_coercion ?_ last .integer) hclosed.1, hnames.hosts.congr rfl hglobals⟩
      · exact hfirst.types_tidy hstart (hg2.earlier hlast.grows.helpers) hf.uncons.1 htidyFirst
      · exact hlast.types_tidy hnames1 hg2 hf.uncons.2.uncons.1 htidyLast
  | ret hresult h =>
    have hreturns := (hcarries.earlier h.kept.advances hin).returnType
    rw [hresult] at hreturns
    exact ⟨closes_returning hreturns (h.types_tidy hnames hg hf htidy) hg.scratch,
      (hnames.kept h.kept).hosts⟩
  | retEffect hresult h =>
    have hreturns := (hcarries.earlier h.kept.advances hin).returnType
    rw [hresult] at hreturns
    exact ⟨closes_return hreturns ((h.types hnames hg hf htidy).append (types_discard _)),
      (hnames.kept h.kept).hosts⟩
  | retZero hcode =>
    refine ⟨?_, hnames.hosts⟩
    have hreturns := hcarries.returnType
    subst hcode
    generalize Ty.hasResult _ = hasResult at hreturns ⊢
    cases hasResult with
    | true => exact closes_return hreturns (fun _ _ => rfl : Types g labels [.const 0] [] [.i64])
    | false => exact closes_return hreturns (types_nil [])
  | jump htargets => exact ⟨closes_jump hcarries htargets _, hnames.hosts⟩
  | jumpOutside | refused => exact ⟨Types.closes fun _ _ => rfl, hnames.hosts⟩
  | classDecl => exact ⟨Types.closes fun _ _ => rfl, hnames.hosts.declareHere trivial⟩
  | nil | chainNil => exact ⟨(types_nil []).closes, hnames.hosts⟩
  | cons hstmt h hrest ih1 ih2 =>
    rw [Task.tidy, tidyStmts, Bool.and_eq_true] at htidy
    have hfirst := ih1 hnames hin (hg.earlier hrest.grows.helpers)
      (hcarries.earlier hrest.advances (hin.advances h.advances))
      (Term.Formed.stmt hstmt hf.uncons.1) (tidyStatement_of_stmt? hstmt htidy.1)
    have hnames1 : g.Suits (env.after _) _ :=
      ⟨hfirst.2, h.agrees_after hstmt hin hnames.agrees hf.uncons.1⟩
    have hothers := ih2 hnames1 (hin.advances h.advances) hg hcarries hf.uncons.2 htidy.2
    exact ⟨hfirst.1.append hothers.1, hothers.2⟩
  | chainLast hstmt _ ih =>
    exact ih hnames hin hg hcarries (Term.Formed.stmt hstmt hf)
      (tidyStatement_of_stmt? hstmt htidy)
  | chainEnd htest hstmt h ih =>
    rw [Task.tidy, tidyChain, Bool.and_eq_true, Bool.and_eq_true, Bool.and_eq_true] at htidy
    obtain ⟨⟨⟨hsingle, hcells⟩, hbody⟩, -⟩ := htidy
    have hclosed := ih (hnames.kept htest.kept) (hin.advances htest.kept.advances) hg
      hcarries (Term.Formed.stmt hstmt hf.uncons.2) (tidyStatement_of_stmt? hstmt hbody)
    refine ⟨((Types.append ?_ types_truth).append (types_cond hclosed.1)).closes, hclosed.2⟩
    exact htest.types_single hnames.agrees hf.uncons.1
      (htest.types hnames (hg.earlier h.grows.helpers) hf.uncons.1 hcells) hsingle
  | chainLink htest hstmt h hrest ih1 ih2 =>
    rw [Task.tidy, tidyChain, Bool.and_eq_true, Bool.and_eq_true, Bool.and_eq_true] at htidy
    obtain ⟨⟨⟨hsingle, hcells⟩, hbody⟩, hothers⟩ := htidy
    have hin1 := hin.advances htest.kept.advances
    have hnames1 := hnames.kept htest.kept
    have hg2 := hg.earlier hrest.grows.helpers
    have hyes := ih1 hnames1 hin1 hg2
      (hcarries.earlier hrest.advances (hin1.advances h.advances))
      (Term.Formed.stmt hstmt hf.uncons.2.uncons.1) (tidyStatement_of_stmt? hstmt hbody)
    have hnames2 : g.Suits (env.after _) _ :=
      ⟨hyes.2, h.agrees_after hstmt hin1 hnames1.agrees hf.uncons.2.uncons.1⟩
    have hno := ih2 hnames2 (hin1.advances h.advances) hg hcarries hf.uncons.2.uncons.2 hothers
    refine ⟨((Types.append ?_ types_truth).append (types_condElse hyes.1 hno.1)).closes, hno.2⟩
    exact htest.types_single hnames.agrees hf.uncons.1
      (htest.types hnames (hg2.earlier h.grows.helpers) hf.uncons.1 hcells) hsingle

end Codegen.Wasm
