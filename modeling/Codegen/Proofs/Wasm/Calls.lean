import Codegen.Proofs.CallOrder
import Codegen.Proofs.Wasm.Symbols

/-!
# Calls in WebAssembly Code

Without limitations every part of an expression is lowered, and once. The arguments of a call are
left on the operand stack one after the other, so the calls in them are in the order in which
they are written.
-/

namespace Codegen.Wasm

open Context List

/-- The mangled name of the function of the program that is used. -/
def Use.called? : Use → Option Bytes
  | .function name => behind? "$fn_" name
  | .global _ => none

/-- The functions of the program that code calls, one after the other. -/
def called (c : Code) : List Bytes := (uses c).filterMap Use.called?

section Fragments

variable {c : Code}

@[simp]
theorem called_nil : called [] = [] := by rw [called, uses_nil, filterMap_nil]

@[simp]
theorem called_append (a b : Code) : called (a ++ b) = called a ++ called b := by
  rw [called, uses_append, filterMap_append, called, called]

/-- What refers to nothing calls nothing. -/
theorem called_plain (h : c.all Instr.isPlain = true) : called c = [] := by
  rw [called, uses_of_all h, filterMap_nil]

theorem Bare.called (h : Bare c) : called c = [] := by rw [Wasm.called, h.uses, filterMap_nil]

@[simp]
theorem called_zero (rep : Rep) : called (zero rep) = [] := (bare_zero rep).called

@[simp]
theorem called_discard (cells : Nat) : called (discard cells) = [] := (bare_discard cells).called

@[simp]
theorem called_truth : called truth = [] := called_plain rfl

@[simp]
theorem called_load (sym : Symbol) : called (load sym) = [] := by
  rw [called, uses_load]
  unfold symbolUses
  cases sym.global <;> cases sym.type.rep <;> rfl

@[simp]
theorem called_store (sym : Symbol) : called (store sym) = [] := by
  rw [called, uses_store]
  unfold symbolUses
  cases sym.global <;> cases sym.type.rep <;> rfl

@[simp]
theorem called_settle (c : Code) (cells : Nat) : called (settle (c, cells)).1 = called c := by
  have hzero : called [.const 0] = [] := called_plain rfl
  rcases cells with _ | _ | _ | n
  · exact (called_append _ _).trans (by rw [hzero, append_nil])
  all_goals rfl

@[simp]
theorem called_coercion (t : Term) (type : Ty) (v : Code × Rep) :
    called (coercion t type v).1 = called v.1 := by
  unfold coercion
  split_ifs
  · rfl
  · simp

@[simp]
theorem called_elementAddress (b : Code × Rep) (i : Code) :
    called (elementAddress b i) = called b.1 ++ called i := by
  have hwrap : called [.num .wrap] = [] := called_plain rfl
  have hscale : called [.num .wrap, .const32 8, .num .mul32, .num .add32] = [] := called_plain rfl
  have hdrop : called [.drop] = [] := called_plain rfl
  rcases b with ⟨c, rep⟩
  unfold elementAddress
  cases rep <;> simp only [called_append, hdrop, hwrap, hscale, append_nil]

theorem called_whileCode (done top : Label) (a b : Code) :
    called (whileCode done top a b) = called a ++ called b := by
  rw [← called_append]
  simp [called, whileCode, uses, Instr.uses]

theorem called_forCode (counter limit : Nat) (done top step : Label) (a b c : Code) :
    called (forCode counter limit done top step a b c) = called a ++ called b ++ called c := by
  rw [← called_append, ← called_append]
  simp [called, forCode, uses, Instr.uses]

theorem called_cond (b : Code) : called [.cond b none] = called b := by
  simp [called, uses, Instr.uses]

theorem called_condElse (b d : Code) : called [.cond b (some d)] = called b ++ called d := by
  simp [called, uses, Instr.uses]

theorem called_returning (scratch : Nat) (rep : Rep) : called (returning scratch rep) = [] := by
  have hret : called [.ret] = [] := called_plain rfl
  cases rep with
  | fat => exact (called_append _ _).trans (by rw [called_plain rfl, hret]; rfl)
  | scalar => exact hret

theorem called_afterCall (scratch : Nat) (result : Ty) :
    called (afterCall scratch result).1 = [] := by
  unfold afterCall
  split_ifs
  · exact called_nil
  · exact called_plain rfl
  · exact called_nil

/-- A call of a function of the program. -/
theorem called_call (name : Bytes) : called [.call (functionName name)] = [mangle name] := by
  have hcalled : (Use.function (functionName name)).called? = some (mangle name) :=
    behind?_append _ _
  simp [called, uses, Instr.uses, hcalled]

/-- Imports and helpers are not functions of the program. -/
theorem called_other {name : Bytes} (h : name ∈ [printIntegerName, printTextName, printBoolName]) :
    called [.call name] = [] := by
  have hnames : ∀ name ∈ [printIntegerName, printTextName, printBoolName],
      (Use.function name).called? = none := by decide
  simp [called, uses, Instr.uses, hnames name h]

end Fragments

/-- The functions that are called where something is lowered. -/
def Job.calls : Job → List Bytes
  | .expr t => t.calls .forward
  | .passes params args => (args.take params.length).flatMap (Term.calls .forward)
  | .print arg => arg.calls .forward
  | .prints args => args.flatMap (Term.calls .forward)
  | .elements _ ts => ts.flatMap (Term.calls .forward)
  | .assign _ parts => (parts.take 2).flatMap (Term.calls .forward)

/-- The functions that are called where statements are lowered. -/
def Task.calls : Task → List Bytes
  | .stmt s => s.calls .forward
  | .stmts ts => ts.flatMap (Term.calls .forward)
  | .chain ts => ts.flatMap (Term.calls .forward)

theorem lowered_of_literal? {p : Payload} {n : Int} (h : literal? p = some n) (count : Nat) :
    p.kind.lowered count = 0 := by
  unfold literal? at h
  cases hkind : p.kind with
  | integer | decimal | boolean => rfl
  | _ =>
    simp only [hkind] at h
    cases h

/-- A string literal calls nothing. -/
theorem calls_of_stringText? {t : Term} {raw : Bytes} (h : stringText? t = some raw)
    (order : Order) : t.calls order = [] := by
  rcases t with ⟨p, parts⟩ | _ | _
  · have hkind : p.kind = .string := (Option.ite_none_right_eq_some.mp h).1
    exact Term.calls_leaf (by rw [hkind]; rfl)
  · cases h
  · cases h

section Calls

variable {scratch : Nat} {st st' : Stage} {c : Code} {steps : List Step}

/-- Code of an expression without limitations calls what the expression calls. -/
theorem Produces.called {job : Job} {r : Lowered} (h : Produces scratch job st r st')
    (hstored : st.2.StoresFunctions "$fn_") (hclean : st'.2.limitations = []) :
    called r.code = job.calls.map mangle := by
  have hlater {job : Job} {r : Lowered} {st st' : Stage} (h : Produces scratch job st r st')
      (hstored : st.2.StoresFunctions "$fn_") : st'.2.StoresFunctions "$fn_" :=
    h.kept.advances.storesFunctions hstored
  have hload : Wasm.called [.load] = [] ∧ Wasm.called [.store] = [] :=
    ⟨called_plain rfl, called_plain rfl⟩
  induction h with
  | printCall _ ih =>
    rw [Job.calls, Term.calls_builtin rfl]
    exact ih hstored hclean
  | length _ _ _ ih =>
    have harg := ih hstored hclean
    rw [Job.calls, Term.calls_builtin rfl, flatMap_singleton, called_append, called_settle, harg,
      called_plain rfl, append_nil]
    rfl
  -- By these rules something is reported, and nothing was.
  | lengthRefused | lengthArity | unresolved | callArity | unknown | binaryRefused | unaryRefused
  | other | assignUnresolved | assignRefused => cases reporting_clean hclean
  | @call p args s ctx sym c after cells reads st' name hprint hlength hsym hcount _ hafter ih =>
    have hargs := ih hstored hclean
    have hbuiltin : isBuiltin name = false := by simp [isBuiltin, hprint, hlength]
    have hnone : Wasm.called after = [] := by
      have hfirst := called_afterCall scratch sym.result
      rwa [hafter] at hfirst
    have hcall : Wasm.called [.call sym.storage] = [mangle name] := by
      rw [hstored.storage hsym]
      exact called_call name
    rw [Job.calls, take_of_length_le (Nat.le_of_eq hcount)] at hargs
    rw [Job.calls, Term.calls_call hbuiltin, called_append, called_append, hargs, hcall, hnone,
      append_nil, map_append]
    rfl
  | literal h =>
    rw [Job.calls, Term.calls_leaf (lowered_of_literal? h _)]
    exact called_plain rfl
  | string hkind =>
    rw [Job.calls, Term.calls_leaf (by rw [hkind]; rfl)]
    exact called_plain rfl
  | ident hkind =>
    rw [Job.calls, Term.calls_leaf (by rw [hkind]; rfl)]
    exact called_load _
  | binary hkind _ _ hop hl hr ihl ihr =>
    have hleft := ihl hstored (hr.kept.clean hclean)
    have hright := ihr (hlater hl hstored) hclean
    rcases combination_shape hop with ⟨a, b, ha, hb, hf⟩
    rw [Job.calls, Term.calls_node, hkind, hf]
    simp [hleft, hright, ha.called, hb.called, Job.calls, Kind.lowered]
  | unary hkind _ hop _ ih =>
    have hoperand := ih hstored hclean
    rcases application_shape hop with ⟨a, b, ha, hb, hf⟩
    rw [Job.calls, Term.calls_node, hkind, hf]
    simp [hoperand, ha.called, hb.called, Job.calls, Kind.lowered]
  | array hkind _ _ ih =>
    have helements := ih hstored hclean
    rw [Job.calls, Term.calls_node, hkind, Kind.lowered, take_length, called_append, helements,
      called_plain rfl, append_nil]
    rfl
  | index hkind hb hi ihb ihi =>
    have hbase := ihb hstored (hi.kept.clean hclean)
    have hindex := ihi (hlater hb hstored) hclean
    rw [Job.calls, Term.calls_node, hkind]
    simp [hbase, hindex, hload, Job.calls, Kind.lowered]
  | assign hkind _ ih =>
    have hassign := ih hstored hclean
    rw [Job.calls, Term.calls_node, hkind, hassign]
    rfl
  | passNone h => rcases h with rfl | rfl <;> simp [Job.calls]
  | pass harg hv hargs iha ih =>
    have hfirst := iha hstored (Kept.reporting.clean (hargs.kept.clean hclean))
    have hrest := ih ((harg.kept.trans .reporting).advances.storesFunctions hstored) hclean
    subst hv
    simp [hfirst, hrest, Job.calls]
  | printLiteral _ hraw =>
    have hnone := calls_of_stringText? hraw .forward
    have hliteral (lit : Literal) : Wasm.called (literal32 lit) = [] := called_plain rfl
    simp [Job.calls, hnone, hliteral, called_other]
  | @printText arg s ctx c cells length reads st' _ _ _ hlength ih =>
    have harg := ih hstored hclean
    have hnone : Wasm.called length = [] := by
      rw [hlength]
      split_ifs
      · exact called_nil
      · exact called_plain rfl
    have hmoves : Wasm.called ([.localSet scratch, .num .wrap, .localGet scratch, .num .wrap]
        ++ [.call printTextName]) = [] := by
      rw [called_append, called_other (by decide), called_plain rfl, append_nil]
    simp only [cons_append, nil_append] at hmoves
    simp [harg, hnone, hmoves, Job.calls]
  | printBoolean _ _ hhelper ih =>
    have harg := ih hstored (hhelper.later.1.kept.clean hclean)
    simp [harg, called_other, Job.calls]
  | printDecimal _ h | printRefused _ _ h => cases reporting_clean (h.kept.clean hclean)
  | printInteger _ _ _ ih =>
    have harg := ih hstored hclean
    simp [harg, called_other, Job.calls]
  | printsNone | elementsNone => exact called_nil
  | prints harg hargs iha ih =>
    have hfirst := iha hstored (hargs.kept.clean hclean)
    have hrest := ih (hlater harg hstored) hclean
    simp [hfirst, hrest, Job.calls]
  | elementFat _ _ _ hrest => cases reporting_clean (hrest.kept.clean hclean)
  | @elementScalar address element rest st e cells ereads st1 c reads st' helement _ hrest ih1 ih2 =>
    have hfirst := ih1 hstored (hrest.kept.clean hclean)
    have hmore := ih2 (hlater helement hstored) hclean
    have haddress : Wasm.called [.const32 address] = [] := called_plain rfl
    simp only [called_append, haddress, called_settle, hfirst, hload, hmore, Job.calls, nil_append,
      append_nil, flatMap_cons, map_append]
  | @assignVariable kind p parts value rest s ctx sym a cells reads s' ctx' v hkind _ _ hv ih =>
    have hvalue := ih hstored (Kept.reporting.clean hclean)
    have htarget : (Term.node p parts).calls .forward = [] :=
      Term.calls_leaf (by rw [hkind]; rfl)
    subst hv
    simp [hvalue, htarget, Job.calls]
  | @assignElement kind p base index more value rest st b bcells breads st1 i icells ireads st2 a
      cells reads s' ctx' v hkind hb hi hvalue hv ihb ihi ihv =>
    have hclean3 := Kept.reporting.clean hclean
    have hclean2 := hvalue.kept.clean hclean3
    have hstored1 := hlater hb hstored
    have hbase := ihb hstored (hi.kept.clean hclean2)
    have hindex := ihi hstored1 hclean2
    have hlast := ihv (hlater hi hstored1) hclean3
    have htarget : (Term.node p (base :: index :: more)).calls .forward =
        base.calls .forward ++ index.calls .forward := by
      rw [Term.calls_node, hkind]
      simp [Kind.lowered]
    subst hv
    simp [hbase, hindex, hlast, htarget, hload, Job.calls]

/-- Code of statements without limitations calls what the statements call. -/
theorem Executes.called {task : Task} (h : Executes scratch task st c steps st')
    (hstored : st.2.StoresFunctions "$fn_") (hclean : st'.2.limitations = []) :
    called c = task.calls.map mangle := by
  have hexpr {t : Term} {c : Code} {cells : Nat} {reads : List Read} {st st' : Stage}
      (h : Produces scratch (.expr t) st ⟨c, cells, reads⟩ st')
      (hstored : st.2.StoresFunctions "$fn_") (hclean : st'.2.limitations = []) :
      Wasm.called c = (t.calls .forward).map mangle := h.called hstored hclean
  have hret : Wasm.called [.ret] = [] := called_plain rfl
  induction h with
  | expression h =>
    rw [called_append, hexpr h hstored hclean, called_discard, append_nil]
    rfl
  | block _ _ ih => exact ih hstored.entering hclean
  | declare _ h hv hfn =>
    have hafter := (Advances.declaring (reporting _ _) hfn _ _).clean hclean
    have hinit := hexpr h hstored (Kept.reporting.clean hafter)
    subst hv
    simp [hinit, Task.calls, Stmt.calls]
  | declareZero => simp [Task.calls, Stmt.calls]
  | assign h => exact h.called hstored hclean
  | cond _ ih => exact ih hstored hclean
  | whileLoop _ _ hcondition _ hstmt h _ ih =>
    have hfirst := hexpr hcondition hstored (h.advances.clean hclean)
    have hbody := ih (hcondition.kept.advances.storesFunctions hstored) hclean
    rw [Task.calls, Stmt.calls_of_stmt? hstmt] at hbody
    rw [called_whileCode, called_append, called_settle, hfirst, hbody, called_truth, append_nil,
      ← map_append]
    rfl
  | forRange hfn hfirst hva hlast hvb hsym hctx3 _ _ _ _ hstmt h _ _ ih =>
    have hkept := (hfirst.kept.trans .reporting).trans hlast.kept
    have hstored1 := hfirst.kept.advances.storesFunctions hstored.entering
    have hcounting := Advances.counting hfn (hkept.trans .reporting) hsym hctx3
    have hclean3 : Context.limitations _ = [] := h.advances.clean hclean
    rw [hctx3] at hclean3
    have hclean2 := Kept.reporting.clean ((limitations_declareHere _ _).symm.trans hclean3)
    have ha := hexpr hfirst hstored.entering (Kept.reporting.clean (hlast.kept.clean hclean2))
    have hb := hexpr hlast hstored1 hclean2
    have hbody := ih (hcounting.storesFunctions hstored.entering) hclean
    subst hva hvb
    rw [Task.calls, Stmt.calls_of_stmt? hstmt] at hbody
    rw [called_forCode, called_coercion, called_coercion, called_settle, called_settle, ha, hb,
      hbody, ← map_append, ← map_append]
    rfl
  | ret _ h =>
    have hvalue := hexpr h hstored hclean
    simp [hvalue, called_returning, Task.calls, Stmt.calls]
  | retEffect _ h =>
    have hvalue := hexpr h hstored hclean
    simp [hvalue, hret, Task.calls, Stmt.calls]
  | retZero hcode =>
    rw [hcode]
    split_ifs
    · exact called_plain rfl
    · exact hret
  | jump => simp [Wasm.called, uses, Instr.uses, Task.calls, Stmt.calls]
  | classDecl => exact called_plain rfl
  | nil | chainNil => exact called_nil
  | jumpOutside | refused => cases reporting_clean hclean
  | cons hstmt h hrest ih1 ih2 =>
    have hfirst := ih1 hstored (hrest.advances.clean hclean)
    have hmore := ih2 (h.advances.storesFunctions hstored) hclean
    rw [Task.calls, Stmt.calls_of_stmt? hstmt] at hfirst
    rw [called_append, hfirst, hmore, ← map_append]
    rfl
  | chainLast hstmt _ ih =>
    have hbody := ih hstored hclean
    rw [Task.calls, Stmt.calls_of_stmt? hstmt] at hbody
    rw [hbody, Task.calls, flatMap_singleton]
  | chainEnd hcondition hstmt h ih =>
    have htest := hexpr hcondition hstored (h.advances.clean hclean)
    have hbody := ih (hcondition.kept.advances.storesFunctions hstored) hclean
    rw [Task.calls, Stmt.calls_of_stmt? hstmt] at hbody
    simp [htest, hbody, called_cond, Task.calls]
  | chainLink hcondition hstmt h hrest ih1 ih2 =>
    have hstored1 := hcondition.kept.advances.storesFunctions hstored
    have hclean2 := hrest.advances.clean hclean
    have htest := hexpr hcondition hstored (h.advances.clean hclean2)
    have hbody := ih1 hstored1 hclean2
    have hmore := ih2 (h.advances.storesFunctions hstored1) hclean
    rw [Task.calls, Stmt.calls_of_stmt? hstmt] at hbody
    simp [htest, hbody, hmore, called_condElse, Task.calls]

/-- The statements at the top level call what they call in the entry. -/
theorem Enters.called {ts : List Tree} (h : Enters scratch ts st c steps st')
    (hstored : st.2.StoresFunctions "$fn_") (hclean : st'.2.limitations = []) :
    called c = (Tree.entryCalls .forward ts).map mangle := by
  induction h with
  | nil => exact called_nil
  | declared hkind _ ih =>
    rw [Tree.entryCalls_cons, Tree.entryCalls_declared _ hkind]
    exact ih hstored hclean
  | varInit hkind _ h hv hrest ih =>
    have hinit := h.called hstored (Kept.reporting.clean (hrest.advances.clean hclean))
    have hmore := ih (h.kept.advances.storesFunctions hstored) hclean
    subst hv
    rw [Tree.entryCalls_cons, Tree.entryCalls_varDecl _ hkind, Term.ofTrees]
    simp [hinit, hmore, Job.calls]
  | varZero hkind _ _ ih =>
    have hmore := ih hstored hclean
    rw [Tree.entryCalls_cons, Tree.entryCalls_varDecl _ hkind, Term.ofTrees]
    simp [hmore]
  | stmt hkind hstmt h hrest ih =>
    have hfirst := h.called hstored (hrest.advances.clean hclean)
    have hmore := ih (h.advances.storesFunctions hstored) hclean
    rw [Task.calls, Stmt.calls_of_stmt? hstmt] at hfirst
    rw [Tree.entryCalls_cons,
      Tree.entryCalls_singleton (Tree.isEntered_of_not_declaration hkind _), called_append,
      hfirst, hmore, map_append]

variable {userMain : Option Symbol} {frame : Frame} {f : Func} {ts : List Tree}

theorem Functions.clean {fs : List (Frame × Func)} (h : Functions userMain ts st fs st')
    (hclean : st'.2.limitations = []) : st.2.limitations = [] := by
  induction h with
  | nil => exact hclean
  | function _ hdefines _ ih =>
    cases hdefines with
    | mk _ hbinds hfn1 _ hbody =>
      exact ((hbinds.advances.trans (.taking _ hfn1 1)).trans hbody.advances).clean (ih hclean)
  | other _ _ ih => exact ih hclean

theorem Entry.clean (h : Entry ts userMain st frame f st') (hclean : st'.2.limitations = []) :
    st.2.limitations = [] := by
  cases h with
  | mk _ hbody => exact hbody.advances.clean hclean

/-- A function calls what its body calls. -/
theorem Defines.called {p : Payload} {body : Tree} (h : Defines userMain p body st frame f st')
    (hstored : st.2.StoresFunctions "$fn_") (hclean : st'.2.limitations = []) :
    called f.body = ((Term.ofTree body).calls .forward).map mangle := by
  cases h with
  | mk _ hbinds hfn1 hstmt hbody _ _ hf =>
    have htaken := hbinds.advances.trans (.taking _ hfn1 1)
    have hlowered := hbody.called (htaken.storesFunctions hstored.entering) hclean
    have hresult : Wasm.called (if p.result.hasResult then [.const 0] else []) = [] := by
      split_ifs
      · exact called_plain rfl
      · exact called_nil
    rw [Task.calls, Stmt.calls_of_stmt? hstmt] at hlowered
    rw [hf, called_append, hlowered, hresult, append_nil]

theorem Functions.called {fs : List (Frame × Func)} (h : Functions userMain ts st fs st')
    (hscopes : st.2.scopes = []) (hstored : st.2.StoresFunctions "$fn_")
    (hclean : st'.2.limitations = []) :
    fs.map (fun f => called f.2.body) =
      (ts.filterMap Tree.functionBody?).map fun body => (body.calls .forward).map mangle := by
  induction h with
  | nil => rfl
  | @function p body more rest _ _ _ _ _ _ hkind hdefines hrest ih =>
    have hafter := hdefines.outside hscopes
    have hfirst := hdefines.called hstored (hrest.clean hclean)
    have hmore := ih hafter.1 (hstored.outside hafter) hclean
    have hbody : Tree.functionBody? (.node p (body :: more)) = some (.ofTree body) := if_pos hkind
    rw [filterMap_cons_some hbody, map_cons, map_cons, hfirst, hmore]
  | other hkind _ ih =>
    rw [filterMap_cons_none (Tree.functionBody?_of_ne hkind _)]
    exact ih hscopes hstored hclean

end Calls

section Modules

variable {st st' : Stage} {ts : List Tree} {userMain : Option Symbol}

/-- The program's own entry is found among its statements. -/
theorem Introduces.userMain_eq (h : Introduces ts st userMain st') :
    userMain = (Tree.ownMain? ts).map functionSymbol := by
  induction h with
  | nil => rfl
  | @function p us rest s ctx later st' hkind _ ih =>
    rw [ih, Tree.ownMain?_cons_function hkind, ownMain?]
    cases Tree.ownMain? rest with
    | some found => rfl
    | none => by_cases hmain : (p.name = "main" && p.params.isEmpty) = true <;> simp [hmain]
  | classDecl hkind _ ih | varDecl hkind _ _ ih =>
    rw [Tree.ownMain?_cons_other (by rw [hkind]; decide)]
    exact ih
  | @other p us _ _ _ _ hkind _ ih =>
    have hfunction : p.kind ≠ .funcDecl := fun heq => by simp [heq, Kind.isDeclaration] at hkind
    rw [Tree.ownMain?_cons_other hfunction]
    exact ih

theorem Introduces.called_main (h : Introduces ts st userMain st') :
    called (callMain userMain) = (Tree.mainCalls ts).map mangle := by
  rw [h.userMain_eq, Tree.mainCalls]
  cases Tree.ownMain? ts with
  | none => exact called_nil
  | some p =>
    have hdrop : called (if p.result.hasResult then [.drop] else []) = [] := by
      split_ifs
      · exact called_plain rfl
      · exact called_nil
    exact (called_append _ _).trans (congrArg₂ (· ++ ·) (called_call p.name) hdrop)

/-- The entry calls what the statements at the top level call, and last the program's own
    entry. -/
theorem Entry.called {frame : Frame} {f : Func} (h : Entry ts userMain st frame f st')
    (hstored : st.2.StoresFunctions "$fn_") (hclean : st'.2.limitations = []) :
    called f.body = (Tree.entryCalls .forward ts).map mangle ++ called (callMain userMain) := by
  cases h with
  | mk _ hbody _ _ hf =>
    have hlowered := hbody.called hstored.entering hclean
    rw [hf, called_append, hlowered]

/-- Without limitations, each function and the entry call what the program says. -/
theorem Generates.called {root : Tree} {fs : List (Frame × Func)} (h : Generates root fs st)
    (hclean : st.2.limitations = []) :
    fs.map (fun f => called f.2.body) = (root.callSequences .forward).map (List.map mangle) := by
  cases h with
  | mk hintroduced hfunctions hentry =>
    rcases hintroduced.introduced rfl with ⟨syms, hsyms⟩
    have hst1 := introduced_complete hsyms
    have hst2 := hfunctions.complete hst1
    have hstored {st : Stage} (hst : Complete syms.reverse st) : st.2.StoresFunctions "$fn_" :=
      storesFunctions_of_roster hsyms.roster hst.globals hst.scopes
    have hbodies := hfunctions.called hst1.scopes (hstored hst1) (hentry.clean hclean)
    have hlast := hentry.called (hstored hst2) hclean
    rw [map_append, map_singleton, hbodies, hlast, hintroduced.called_main,
      Tree.callSequences, map_append, map_map, map_singleton, map_append]
    rfl

end Modules

end Codegen.Wasm
