import Codegen.Proofs.Arm64.Symbols
import Codegen.Proofs.CallOrder

/-!
# Calls in AArch64 Code

Without limitations every part of an expression is lowered, and once. The arguments of a call go
onto the stack from the last to the first, so that they come off it in the order of the
registers. Their code is emitted on the way, so the calls in it are in this order too.
-/

namespace Codegen.Arm64

open Context List

/-- The mangled name of the function of the program that a line calls. -/
def Line.called? : Line → Option Bytes
  | .instr (.bl symbol) => behind? "fn_" symbol
  | _ => none

/-- The functions of the program that code calls, one after the other. -/
def called (c : Code) : List Bytes := c.filterMap Line.called?

section Fragments

variable {c l r : Code}

@[simp]
theorem called_nil : called [] = [] := rfl

@[simp]
theorem called_append (a b : Code) : called (a ++ b) = called a ++ called b := filterMap_append

@[simp]
theorem called_label (l : Label) (c : Code) : called (.label l :: c) = called c := rfl

/-- What refers to nothing calls nothing. -/
@[simp]
theorem called_of_marks (h : marks c = []) : called c = [] := by
  refine filterMap_eq_nil_iff.mpr fun line hline => ?_
  have hmark := filterMap_eq_nil_iff.mp h line hline
  rcases line with i | _ | _ | _
  · cases i with
    | bl symbol => cases hmark
    | _ => rfl
  all_goals rfl

@[simp]
theorem called_loadAddress (r : Reg) (symbol : Bytes) : called (loadAddress r symbol) = [] := rfl

@[simp]
theorem called_load (sym : Symbol) : called (load sym) = [] := by
  unfold load
  cases sym.global <;> cases sym.type.rep <;> simp <;> rfl

@[simp]
theorem called_store (sym : Symbol) : called (store sym) = [] := by
  unfold store
  cases sym.global <;> cases sym.type.rep <;> simp <;> rfl

@[simp]
theorem called_storeElement (storage : Bytes) (index : Nat) :
    called (storeElement storage index) = [] := by
  unfold storeElement
  dsimp only
  split
  · rfl
  · simp
    rfl

theorem called_whileCode (start done : Label) (a b : Code) :
    called (whileCode start done a b) = called a ++ called b := by
  have hjumps : called (code [.cbz x0 done]) = [] ∧ called (code [.branch start]) = [] :=
    ⟨rfl, rfl⟩
  simp [whileCode, hjumps]

theorem called_forCode (counter limit : Nat) (start step done : Label) (a b c : Code) :
    called (forCode counter limit start step done a b c) = called a ++ called b ++ called c := by
  have hjumps : called (code [.cmp x0 x1, .branchIf .gt done]) = [] ∧
      called (code [.addImm x0 x0 1]) = [] ∧ called (code [.branch start]) = [] := ⟨rfl, rfl, rfl⟩
  simp [forCode, hjumps]

theorem called_prologue (symbol : Bytes) (words : Nat) : called (prologue symbol words) = [] := by
  rw [prologue, called_append, called_of_marks (marks_reserveFrame _)]
  rfl

theorem called_epilogue (ret : Label) : called (epilogue ret) = [] := rfl

/-- A call of a function of the program. -/
theorem called_bl (name : Bytes) : called (code [.bl ("fn_" ++ mangle name)]) = [mangle name] := by
  have hcalled : (Line.instr (.bl ("fn_" ++ mangle name))).called? = some (mangle name) :=
    behind?_append _ _
  exact filterMap_cons_some hcalled

/-- The helpers are not functions of the program. -/
theorem called_printer (printer : Printer) : called (code [.bl printer.symbol]) = [] := by
  cases printer <;> decide

theorem Combines.called (h : Combines l r c) :
    Arm64.called c = Arm64.called l ++ Arm64.called r := by
  rcases h with ⟨a, b, d, hplain, rfl⟩
  have hnone := called_of_marks (marks_calculates hplain)
  simp only [called_append, append_eq_nil_iff] at hnone
  simp [hnone]

theorem Applies.called (h : Applies l c) : Arm64.called c = Arm64.called l := by
  rcases h with ⟨d, hplain, rfl⟩
  rw [called_append, called_of_marks (marks_calculates hplain), append_nil]

end Fragments

/-- The functions that are called where something is lowered. -/
def Job.calls : Job → List Bytes
  | .expr t => t.calls .backward
  | .pushes count args => (args.take count).reverse.flatMap (Term.calls .backward)
  | .prints args => args.flatMap (Term.calls .backward)
  | .elements _ _ ts => ts.flatMap (Term.calls .backward)
  | .assign _ parts => (parts.take 2).flatMap (Term.calls .backward)

/-- The functions that are called where statements are lowered. -/
def Task.calls : Task → List Bytes
  | .stmt s => s.calls .backward
  | .stmts ts => ts.flatMap (Term.calls .backward)
  | .chain _ ts => ts.flatMap (Term.calls .backward)

theorem lowered_of_literalCode? {p : Payload} {c : Code} (h : literalCode? p = some c)
    (count : Nat) : p.kind.lowered count = 0 := by
  unfold literalCode? at h
  cases hkind : p.kind with
  | integer | decimal | boolean => rfl
  | _ =>
    simp only [hkind] at h
    cases h

section Calls

variable {flavor : Flavor} {st st' : Stage} {c : Code} {steps : List Step}

/-- Code of an expression without limitations calls what the expression calls. -/
theorem Produces.called {job : Job} {r : Lowered} (h : Produces flavor job st r st')
    (hstored : st.2.StoresFunctions "fn_") (hclean : st'.2.limitations = []) :
    called r.code = job.calls.map mangle := by
  have hlater {job : Job} {r : Lowered} {st st' : Stage} (h : Produces flavor job st r st')
      (hstored : st.2.StoresFunctions "fn_") : st'.2.StoresFunctions "fn_" :=
    h.kept.advances.storesFunctions hstored
  induction h with
  | print _ ih =>
    rw [Job.calls, Term.calls_builtin rfl]
    exact ih hstored hclean
  | lengthFat _ ih =>
    have hmov : Arm64.called (code [.mov x0 x1]) = [] := rfl
    have harg := ih hstored hclean
    rw [Job.calls, Term.calls_builtin rfl, flatMap_singleton, called_append, harg, hmov, append_nil]
    rfl
  -- By these rules something is reported, and nothing was.
  | lengthScalar | lengthArity | unresolved | unknown | binaryRefused | other | assignUnresolved
  | assignRefused => cases reporting_clean hclean
  | @call p args s ctx sym count issues c reps reads st' name hprint hlength hsym _ hissues h ih =>
    have hargs := ih hstored hclean
    -- All arguments fit, since otherwise there would be a limitation.
    have hcount : args.length ≤ count := by
      by_contra hless
      rw [if_pos (by omega)] at hissues
      cases hissues.symm.trans (reporting_clean (h.kept.clean hclean))
    have hbuiltin : isBuiltin name = false := by simp [isBuiltin, hprint, hlength]
    rw [Job.calls, take_of_length_le hcount] at hargs
    rw [Job.calls, Term.calls_call hbuiltin, called_append, called_append, hargs,
      called_of_marks (marks_popArgs _ _), hstored.storage hsym, called_bl, append_nil, map_append]
    rfl
  | literal h =>
    rw [Job.calls, Term.calls_leaf (lowered_of_literalCode? h _)]
    exact called_of_marks (marks_literalCode? h)
  | string hkind =>
    rw [Job.calls, Term.calls_leaf (by rw [hkind]; rfl)]
    simp
  | ident hkind =>
    rw [Job.calls, Term.calls_leaf (by rw [hkind]; rfl)]
    simp
  | binary hkind _ _ _ hl hr hop ihl ihr =>
    rcases (plain_combine _ _ _ _ _).of_ends hop with ⟨rfl, -, rfl, hcode⟩
    have hclean2 := Kept.reporting.clean hclean
    have hleft := ihl hstored (hr.kept.clean hclean2)
    have hright := ihr (hlater hl hstored) hclean2
    rw [Job.calls, Term.calls_node, hkind, hcode.called, hleft, hright]
    simp [Job.calls, Kind.lowered]
  | unary hkind _ h hop ih =>
    rcases (plain_applyUnary _ _ _ _).of_ends hop with ⟨rfl, -, rfl, hcode⟩
    have hoperand := ih hstored (Kept.reporting.clean hclean)
    rw [Job.calls, Term.calls_node, hkind, hcode.called, hoperand]
    simp [Job.calls, Kind.lowered]
  | array hkind _ ih =>
    have helements := ih hstored hclean
    rw [Job.calls, Term.calls_node, hkind, Kind.lowered, take_length]
    simp [helements, Job.calls]
  | index hkind hb hi ihb ihi =>
    have hbase := ihb hstored (hi.kept.clean hclean)
    have hindex := ihi (hlater hb hstored) hclean
    have hload : Arm64.called (code [.ldr x0 (.word x1 x0)]) = [] := rfl
    rw [Job.calls, Term.calls_node, hkind]
    simp [hbase, hindex, hload, Job.calls, Kind.lowered]
  | assign hkind _ ih =>
    have hassign := ih hstored hclean
    rw [Job.calls, Term.calls_node, hkind, called_append, hassign, called_of_marks (marks_zero _),
      append_nil]
    rfl
  | pushNone h => rcases h with rfl | rfl <;> simp [Job.calls]
  | push hargs harg iha ih =>
    have hrest := iha hstored (harg.kept.clean hclean)
    have hfirst := ih (hlater hargs hstored) hclean
    simp [hrest, hfirst, Job.calls]
  | printNone | elementsNone => rfl
  | printRefused _ _ h => cases reporting_clean (h.kept.clean hclean)
  | printValue _ _ harg hhelper hlength hargs iha ih =>
    have hclean2 := hargs.kept.clean hclean
    have hfirst := iha hstored (hhelper.kept.clean hclean2)
    have hrest := ih (hhelper.kept.advances.storesFunctions (hlater harg hstored)) hclean
    subst hlength
    simp [hfirst, hrest, marks_missingLength, called_printer, Job.calls]
  | elementFat _ _ hrest => cases reporting_clean (hrest.kept.clean hclean)
  | elementScalar helement hrest ih1 ih2 =>
    have hfirst := ih1 hstored (hrest.kept.clean hclean)
    have hmore := ih2 (hlater helement hstored) hclean
    simp [hfirst, hmore, Job.calls]
  | @assignVariable kind p parts value rest s ctx sym v rep reads st' hkind _ _ ih =>
    have hvalue := ih hstored hclean
    have htarget : (Term.node p parts).calls .backward = [] :=
      Term.calls_leaf (by rw [hkind]; rfl)
    simp [hvalue, htarget, Job.calls]
  | @assignElement kind p base index more value rest st b brep breads st1 i irep ireads st2 v vrep
      vreads st' hkind hb hi hv ihb ihi ihv =>
    have hclean2 := hv.kept.clean hclean
    have hstored1 := hlater hb hstored
    have hbase := ihb hstored (hi.kept.clean hclean2)
    have hindex := ihi hstored1 hclean2
    have hvalue := ihv (hlater hi hstored1) hclean
    have htarget : (Term.node p (base :: index :: more)).calls .backward =
        base.calls .backward ++ index.calls .backward := by
      rw [Term.calls_node, hkind]
      simp [Kind.lowered]
    have hstore : Arm64.called (code [.str x0 (.word x1 x2)]) = [] := rfl
    simp [hbase, hindex, hvalue, htarget, hstore, Job.calls]

/-- Code of statements without limitations calls what the statements call. -/
theorem Executes.called {task : Task} (h : Executes flavor task st c steps st')
    (hstored : st.2.StoresFunctions "fn_") (hclean : st'.2.limitations = []) :
    called c = task.calls.map mangle := by
  have hexpr {t : Term} {c : Code} {reps : List Rep} {reads : List Read} {st st' : Stage}
      (h : Produces flavor (.expr t) st ⟨c, reps, reads⟩ st') (hstored : st.2.StoresFunctions "fn_")
      (hclean : st'.2.limitations = []) : Arm64.called c = (t.calls .backward).map mangle :=
    h.called hstored hclean
  induction h with
  | expression h => exact hexpr h hstored hclean
  | block _ _ ih => exact ih hstored.entering hclean
  | declare _ h hfn =>
    have hinit := hexpr h hstored ((Advances.declaring _ hfn _ _).clean hclean)
    simp [hinit, Task.calls, Stmt.calls]
  | declareZero => simp [Task.calls, Stmt.calls]
  | assign h => exact h.called hstored hclean
  | cond _ _ ih =>
    rw [called_append, ih hstored hclean]
    exact append_nil _
  | whileLoop _ _ hcondition _ hstmt h _ ih =>
    have hfirst := hexpr hcondition hstored (h.advances.clean hclean)
    have hbody := ih (hcondition.kept.advances.storesFunctions hstored) hclean
    rw [called_whileCode, hfirst, hbody, ← map_append, Task.calls, Task.calls,
      Stmt.calls_of_stmt? hstmt]
    rfl
  | forRange hfn hfirst hlast hsym hctx3 _ _ _ _ hstmt h _ _ ih =>
    have hstored1 := hfirst.kept.advances.storesFunctions hstored.entering
    have hcounting := Advances.counting hfn (hfirst.kept.trans hlast.kept) hsym hctx3
    have hclean2 : Context.limitations _ = [] := h.advances.clean hclean
    rw [hctx3] at hclean2
    have hclean2 := (limitations_declareHere _ _).symm.trans hclean2
    have ha := hexpr hfirst hstored.entering (hlast.kept.clean hclean2)
    have hb := hexpr hlast hstored1 hclean2
    have hbody := ih (hcounting.storesFunctions hstored.entering) hclean
    rw [called_forCode, ha, hb, hbody, ← map_append, ← map_append, Task.calls, Task.calls,
      Stmt.calls_of_stmt? hstmt]
    rfl
  | ret h =>
    have hvalue := hexpr h hstored hclean
    rw [called_append, hvalue]
    simp [Task.calls, Stmt.calls]
    rfl
  | retZero => simp [Task.calls, Stmt.calls]; rfl
  | jump | classDecl | nil | chainNil => rfl
  | jumpOutside | refused => cases reporting_clean hclean
  | cons hstmt h hrest ih1 ih2 =>
    have hfirst := ih1 hstored (hrest.advances.clean hclean)
    have hmore := ih2 (h.advances.storesFunctions hstored) hclean
    rw [Task.calls, Stmt.calls_of_stmt? hstmt] at hfirst
    rw [called_append, hfirst, hmore, ← map_append]
    rfl
  | chainLast hstmt _ ih =>
    have hbody := ih hstored hclean
    rw [Task.calls, Stmt.calls_of_stmt? hstmt] at hbody
    rw [hbody, Task.calls, flatMap_singleton]
  | @chainLink join condition body rest stmt s ctx next c rep reads st1 b steps st2 cs steps' st' _
      hcondition hstmt h hrest ih1 ih2 =>
    have hstored1 := hcondition.kept.advances.storesFunctions hstored
    have hclean2 := hrest.advances.clean hclean
    have htest := hexpr hcondition hstored (h.advances.clean hclean2)
    have hbody := ih1 hstored1 hclean2
    have hmore := ih2 (h.advances.storesFunctions hstored1) hclean
    have hjumps : Arm64.called (code [.cbz x0 next]) = [] ∧
      Arm64.called (code [.branch join]) = [] := ⟨rfl, rfl⟩
    rw [Task.calls, Stmt.calls_of_stmt? hstmt] at hbody
    simp [htest, hjumps, hbody, hmore, Task.calls]

/-- The statements at the top level call what they call in the entry. -/
theorem Enters.called {ts : List Tree} (h : Enters flavor ts st c steps st')
    (hstored : st.2.StoresFunctions "fn_") (hclean : st'.2.limitations = []) :
    called c = (Tree.entryCalls .backward ts).map mangle := by
  induction h with
  | nil => rfl
  | declared hkind _ ih =>
    rw [Tree.entryCalls_cons, Tree.entryCalls_declared _ hkind]
    exact ih hstored hclean
  | varInit hkind _ h hrest ih =>
    have hinit := h.called hstored (hrest.advances.clean hclean)
    have hmore := ih (h.kept.advances.storesFunctions hstored) hclean
    rw [Tree.entryCalls_cons, Tree.entryCalls_varDecl _ hkind, Term.ofTrees]
    simp [hinit, hmore, Job.calls]
  | varZero hkind _ _ ih =>
    have hmore := ih hstored hclean
    rw [Tree.entryCalls_cons, Tree.entryCalls_varDecl _ hkind, Term.ofTrees]
    simp [hmore]
  | stmt hkind hstmt h hrest ih =>
    have hfirst := h.called hstored (hrest.advances.clean hclean)
    have hmore := ih (h.advances.storesFunctions hstored) hclean
    rw [Task.calls, Stmt.calls_of_stmt? hstmt] at hfirst
    rw [Tree.entryCalls_cons,
      Tree.entryCalls_singleton (Tree.isEntered_of_not_declaration hkind _), called_append,
      hfirst, hmore, map_append]

theorem Functions.clean {ts : List Tree} {fs : List (Frame × Code)}
    (h : Functions flavor ts st fs st') (hclean : st'.2.limitations = []) :
    st.2.limitations = [] := by
  induction h with
  | nil => exact hclean
  | function _ hdefines _ ih =>
    cases hdefines with
    | mk _ _ hbinds _ _ hbody => exact (hbinds.advances.trans hbody.advances).clean (ih hclean)
  | other _ _ ih => exact ih hclean

theorem Entry.clean {root : Tree} {userMain : Option Symbol} {frame : Frame}
    (h : Entry flavor root userMain st frame c st') (hclean : st'.2.limitations = []) :
    st.2.limitations = [] := by
  cases h with
  | mk _ hbody => exact hbody.advances.clean hclean

/-- A function calls what its body calls. -/
theorem Defines.called {p : Payload} {body : Tree} {frame : Frame}
    (h : Defines flavor p body st frame c st') (hstored : st.2.StoresFunctions "fn_")
    (hclean : st'.2.limitations = []) :
    called c = ((Term.ofTree body).calls .backward).map mangle := by
  cases h with
  | mk _ _ hbinds hparams hstmt hbody _ _ _ hwhole =>
    have hlowered := hbody.called (hbinds.advances.storesFunctions hstored.entering) hclean
    rw [hwhole]
    simp [called_prologue, hparams, hlowered, called_epilogue, Task.calls, Stmt.calls_of_stmt? hstmt]

theorem Functions.called {ts : List Tree} {fs : List (Frame × Code)} {base : List Symbol}
    (h : Functions flavor ts st fs st') (hst : Complete base st)
    (hstored : st.2.StoresFunctions "fn_") (hclean : st'.2.limitations = []) :
    fs.map (fun f => called f.2) =
      (ts.filterMap Tree.functionBody?).map fun body => (body.calls .backward).map mangle := by
  induction h with
  | nil => rfl
  | @function p body more rest _ _ _ _ _ _ hkind hdefines hrest ih =>
    have hst1 := hdefines.complete hst
    have hfirst := hdefines.called hstored (hrest.clean hclean)
    have hmore := ih hst1 (hstored.outside ⟨hst1.scopes, hst1.globals.trans hst.globals.symm⟩) hclean
    have hbody : Tree.functionBody? (.node p (body :: more)) = some (.ofTree body) := if_pos hkind
    rw [filterMap_cons_some hbody, map_cons, map_cons, hfirst, hmore]
  | other hkind _ ih =>
    rw [filterMap_cons_none (Tree.functionBody?_of_ne hkind _)]
    exact ih hst hstored hclean

end Calls

section Programs

variable {flavor : Flavor} {st st' : Stage} {ts : List Tree} {userMain : Option Symbol}

/-- The program's own entry is found among its statements. -/
theorem Introduces.userMain_eq (h : Introduces ts st userMain st') :
    userMain = (Tree.ownMain? ts).map functionSymbol := by
  induction h with
  | nil => rfl
  | @function p us rest s ctx later st' hkind _ ih =>
    rw [ih, Tree.ownMain?_cons_function hkind, ownMain?]
    cases Tree.ownMain? rest with
    | some found => rfl
    | none => by_cases hmain : (p.name = "main" && p.params.isEmpty) = true <;> simp [hmain]
  | classDecl hkind _ ih | varDecl hkind _ _ ih =>
    rw [Tree.ownMain?_cons_other (by rw [hkind]; decide)]
    exact ih
  | @other p us _ _ _ _ hkind _ ih =>
    have hfunction : p.kind ≠ .funcDecl := fun heq => by simp [heq, Kind.isDeclaration] at hkind
    rw [Tree.ownMain?_cons_other hfunction]
    exact ih

theorem Introduces.called_main (h : Introduces ts st userMain st') :
    called (callMain userMain) = (Tree.mainCalls ts).map mangle := by
  rw [h.userMain_eq, Tree.mainCalls]
  cases Tree.ownMain? ts with
  | none => rfl
  | some p => exact called_bl p.name

/-- The entry calls what the statements at the top level call, and last the program's own
    entry. -/
theorem Entry.called {root : Tree} {frame : Frame} {c : Code}
    (h : Entry flavor root userMain st frame c st') (hstored : st.2.StoresFunctions "fn_")
    (hclean : st'.2.limitations = []) :
    called c =
      (Tree.entryCalls .backward root.statements).map mangle ++ called (callMain userMain) := by
  cases h with
  | mk _ hbody _ _ _ hwhole =>
    have hlowered := hbody.called hstored.entering hclean
    rw [hwhole]
    simp [called_prologue, hlowered, called_epilogue]

/-- Without limitations, each function and the entry call what the program says. -/
theorem Generates.called {root : Tree} {fs : List (Frame × Code)} (h : Generates flavor root fs st)
    (hclean : st.2.limitations = []) :
    fs.map (fun f => called f.2) = (root.callSequences .backward).map (List.map mangle) := by
  cases h with
  | mk hintroduced hfunctions hentry =>
    rcases hintroduced.introduced rfl with ⟨syms, hsyms⟩
    have hst1 := introduced_complete hsyms
    have hst2 := hfunctions.complete hst1
    have hstored {st : Stage} (hst : Complete syms.reverse st) : st.2.StoresFunctions "fn_" :=
      storesFunctions_of_roster hsyms.roster hst.globals hst.scopes
    have hbodies := hfunctions.called hst1 (hstored hst1) (hentry.clean hclean)
    have hlast := hentry.called (hstored hst2) hclean
    rw [map_append, map_singleton, hbodies, hlast, hintroduced.called_main,
      Tree.callSequences, map_append, map_map, map_singleton, map_append]
    rfl

end Programs

end Codegen.Arm64
