import Codegen.Proofs.Wasm.Fragments
import Codegen.Proofs.Wasm.Tidy

/-!
# The Cells of an Expression

An expression that is tidy is lowered to code that leaves as many cells as it says, and
touches no others. Where the cells of a value are looked at, nothing has to be known about
them; where they are not, being tidy is what makes them fit.

How many cells there are follows from the last rule alone, so the survey is compared with it
before anything is said about the code.
-/

namespace Codegen.Wasm

variable {g : Setting} {labels : List Label} {scratch : Nat} {env : Context} {st st' : Stage}
  {p : Payload} {t : Term}

/-- The names of a context are those of an environment, and what they stand for is there. -/
structure Setting.Suits (g : Setting) (env k : Context) : Prop where
  hosts : g.Hosts k
  agrees : k.Agrees Eq env

theorem Setting.Suits.kept {k k' : Context} (h : g.Suits env k) (hkept : k.Kept k') :
    g.Suits env k' :=
  ⟨h.hosts.congr hkept.scopes hkept.globals, h.agrees.kept hkept⟩

theorem length_ne_print : ("length" : Bytes) ≠ "print" := by decide

theorem fat_of_not_single (h : single env t = false) : (rules.survey env t).rep = .fat := by
  cases hrep : (rules.survey env t).rep with
  | fat => rfl
  | scalar => exact absurd h (by rw [single, hrep]; decide)

section Values

variable {c : Code} {cells : Nat} {reads : List Read}

theorem Produces.cells_le_two (h : Produces scratch (.expr t) st ⟨c, cells, reads⟩ st') :
    cells ≤ 2 := by
  have hwords (rep : Rep) : rep.words ≤ 2 := by cases rep <;> decide
  have hafter (type : Ty) : (afterCall scratch type).2 ≤ 2 := by
    unfold afterCall
    cases type.hasResult with
    | false => exact Nat.zero_le 2
    | true => cases type.rep <;> simp
  cases h with
  | call _ _ _ _ _ h => exact Nat.le_trans (Nat.le_of_eq (congrArg Prod.snd h).symm) (hafter _)
  | ident | unknown => exact hwords _
  | _ => decide

/-- The cells of an expression are those of the representation that was found, as it is
    lowered in one way only. -/
theorem Produces.rep (h : Produces scratch (.expr t) st ⟨c, cells, reads⟩ st')
    (hk : st.2.Agrees Eq env) (hf : Term.Formed [t]) :
    (settle (c, cells)).2 = (rules.survey env t).rep := by
  rcases (lowers_of_formed scratch env hf t (by simp)).1 st.1 st.2 hk with
    ⟨c', cells', _, _, _, h', hrep, -⟩
  have heq : (c, cells) = (c', cells') := (h.runs.unique h'.runs).1
  rw [heq, hrep]

theorem Produces.types_value (h : Produces scratch (.expr t) st ⟨c, cells, reads⟩ st')
    (hc : Types g labels c [] (words cells)) :
    Types g labels (settle (c, cells)).1 [] (words (settle (c, cells)).2.words) :=
  types_settle hc h.cells_le_two

theorem Produces.types_single (h : Produces scratch (.expr t) st ⟨c, cells, reads⟩ st')
    (hk : st.2.Agrees Eq env) (hf : Term.Formed [t]) (hc : Types g labels c [] (words cells))
    (hsingle : single env t = true) : Types g labels (settle (c, cells)).1 [] [.i64] := by
  have hvalue := h.types_value hc
  rw [h.rep hk hf, of_decide_eq_true hsingle] at hvalue
  exact hvalue

theorem Produces.types_elementAddress {index : Term} {d : Code} {count : Nat} {reads' : List Read}
    {st1 : Stage} {more : List Term} (hb : Produces scratch (.expr t) st ⟨c, cells, reads⟩ st1)
    (hi : Produces scratch (.expr index) st1 ⟨d, count, reads'⟩ st') (hnames : g.Suits env st.2)
    (hf : Term.Formed (t :: index :: more))
    (hbase : Term.Formed [t] → tidy env t = true → Types g labels c [] (words cells))
    (hindex : Term.Formed [index] → tidy env index = true → Types g labels d [] (words count))
    (htidy : tidy env t = true ∧ single env index = true ∧ tidy env index = true) :
    Types g labels (elementAddress (settle (c, cells)) (settle (d, count)).1) [] [.i32] :=
  Wasm.types_elementAddress (hb.types_value (hbase hf.uncons.1 htidy.1))
    (hi.types_single (hnames.kept hb.kept).agrees hf.uncons.2.uncons.1
      (hindex hf.uncons.2.uncons.1 htidy.2.2) htidy.2.1)

end Values

namespace Job

/-- The terms of a job. -/
def terms : Job → List Term
  | .expr t | .print t => [t]
  | .passes _ ts | .prints ts | .elements _ ts | .assign _ ts => ts

/-- Whether every place in the terms of a job gets the cells it takes. -/
def tidy (env : Context) : Job → Bool
  | .expr t => Wasm.tidy env t
  | .passes params args => args.length == params.length && tidyAll env args
  | .print arg => printFits env arg && Wasm.tidy env arg
  | .prints args => tidyPrints env args
  | .elements _ ts => tidyAll env ts
  | .assign _ parts => tidyAssign env parts

/-- The cells that the code of a job leaves. Arguments leave the cells of the parameters. -/
def leaves (cells : Nat) : Job → Nat
  | .expr _ => cells
  | .passes params _ => paramCells params
  | _ => 0

end Job

theorem refusesOperands_of_combination {left right : Term} {f : Code → Code → Code}
    (h : combination p (env.typed left) (env.typed right) = .ok f) :
    refusesOperands env p left right = false := by
  have hnone := refusals_combination p (env.typed left) (env.typed right)
  rw [h] at hnone
  unfold refusesOperands
  split_ifs at hnone with hfat
  · cases hnone
  · rw [eq_false_of_ne_true hfat, ← hnone]
    rfl

theorem refusesOperand_of_application {operand : Term} {f : Code → Code}
    (h : application p (env.typed operand) = .ok f) : refusesOperand env p operand = false := by
  rw [refusesOperand, ← refusals_application, h]
  rfl

theorem tidy_call (env : Context) (p : Payload) (name : Bytes) (args : List Term) :
    tidy env (.call p (some name) args) =
      if name = "print" then tidyPrints env args
      else if name = "length" then
        match args with
        | [arg] => !hasLength env arg || (!single env arg && tidy env arg)
        | _ => true
      else
        match env.funcNamed? name with
        | none => true
        | some sym => args.length != sym.params.length || tidyAll env args := by
  rw [tidy.eq_def]
  rfl

theorem single_of_printFits (h : printFits env t = true) (htext : env.typed t ≠ .text)
    (hother : ¬ (env.typed t = .array ∨ env.typed t = .void)) : single env t = true := by
  obtain ⟨harray, hvoid⟩ := not_or.mp hother
  simpa [printFits, htext, harray, hvoid] using h

/-- A value that is printed as a number or a truth value leaves one cell. -/
theorem Produces.types_printed {c : Code} {cells : Nat} {reads : List Read}
    (h : Produces scratch (.expr t) st ⟨c, cells, reads⟩ st') (hk : st.2.Agrees Eq env)
    (hf : Term.Formed [t]) (htidy : (Job.print t).tidy env = true)
    (hother : env.typed t ≠ .text ∧ ¬ (env.typed t = .array ∨ env.typed t = .void))
    (hc : tidy env t = true → Types g labels c [] (words cells)) :
    Types g labels (settle (c, cells)).1 [] [.i64] := by
  obtain ⟨hfits, harg⟩ := Bool.and_eq_true_iff.mp htidy
  exact h.types_single hk hf (hc harg) (single_of_printFits hfits hother.1 hother.2)

theorem types_lengthOf {c : Code} (hc : Types g labels c [] [.i64, .i64])
    (hscratch : scratch < g.locals) :
    Types g labels (c ++ [.localSet scratch, .drop, .localGet scratch]) [] [.i64] := by
  have hdrop : Types g labels [.drop] [.i64] [] := fun _ _ => rfl
  exact hc.append (((types_localSet hscratch).frame [.i64]).append
    (hdrop.append (types_localGet hscratch)))

/-- The first argument is the lowest, so its cells come last. -/
theorem types_passed {c d : Code} {param : Param} {params : List Param}
    (hc : Types g labels c [] (words param.type.rep.words))
    (hd : Types g labels d [] (words (paramCells params))) :
    Types g labels (c ++ d) [] (words (paramCells (param :: params))) := by
  have hcells : words (paramCells params) ++ words param.type.rep.words =
      words (paramCells (param :: params)) := by
    rw [List.replicate_append_replicate, Nat.add_comm]
    rfl
  have hframed := hd.frame (words param.type.rep.words)
  rw [hcells] at hframed
  exact hc.append hframed

/-- The code of a tidy expression leaves its cells. -/
theorem Produces.types {job : Job} {r : Lowered} (h : Produces scratch job st r st')
    (hnames : g.Suits env st.2) (hg : g.Serves scratch st'.2.helpers)
    (hf : Term.Formed job.terms) (htidy : job.tidy env = true) :
    Types g labels r.code [] (words (job.leaves r.cells)) := by
  induction h with
  | printCall _ ih =>
    exact ih hnames hg hf.args (by simpa [Job.tidy, tidy_call] using htidy)
  | @length _ arg _ _ _ _ _ _ _ htype hfat h ih =>
    obtain rfl := hnames.agrees.type_eq hf.args htype
    have hlength : hasLength env arg = true := by simpa [hasLength] using hfat
    -- The type says that there are two cells, and being tidy that this is so.
    simp only [Job.tidy, tidy_call, if_neg length_ne_print, if_true, hlength, Bool.not_true,
      Bool.false_or, Bool.and_eq_true, Bool.not_eq_true'] at htidy
    have hvalue := h.types_value (ih hnames hg hf.args htidy.2)
    rw [h.rep hnames.agrees hf.args, fat_of_not_single htidy.1] at hvalue
    exact types_lengthOf hvalue hg.scratch
  | lengthRefused | lengthArity | unresolved | callArity | literal | string | binaryRefused
  | unaryRefused | other | printsNone | elementsNone | assignUnresolved | assignRefused =>
    exact fun _ _ => rfl
  | @call _ args _ _ _ _ _ _ _ _ _ hprint hlength hsym hcount _ hafter ih =>
    rcases hnames.agrees.funcNamed? _ with ⟨hnone, -⟩ | ⟨_, sym', hsome, henv, halike⟩
    · cases hsym.symm.trans hnone
    cases hsym.symm.trans hsome
    have hall : tidyAll env args = true := by
      simpa [Job.tidy, tidy_call, hprint, hlength, henv, ← halike.params, hcount] using htidy
    exact types_called (ih hnames hg hf.args (by simp [Job.tidy, hcount, hall]))
      (hnames.hosts.funcNamed? hsym) hg.scratch hafter
  | ident _ hsym =>
    obtain ⟨hvar, hholds⟩ := hnames.hosts.varNamed? hsym
    exact types_load hvar hholds
  | unknown => exact types_zero _
  | binary hkind hlt hrt hop hl hr ihl ihr =>
    have hleft := hf.parts.uncons.1
    have hright := hf.parts.uncons.2.uncons.1
    obtain rfl := hnames.agrees.type_eq hleft hlt
    obtain rfl := hnames.agrees.type_eq hright hrt
    simp only [Job.tidy, Wasm.tidy, hkind, refusesOperands_of_combination hop, Bool.false_or,
      Bool.and_eq_true] at htidy
    obtain ⟨⟨hsingle, htidyLeft⟩, hsingle', htidyRight⟩ := htidy
    have hnames1 := hnames.kept hl.kept
    exact types_combination hop
      (hl.types_single hnames.agrees hleft
        (ihl hnames (hg.earlier hr.grows.helpers) hleft htidyLeft) hsingle)
      (hr.types_single hnames1.agrees hright (ihr hnames1 hg hright htidyRight) hsingle')
  | unary hkind htype hop h ih =>
    have hoperand := hf.parts.uncons.1
    obtain rfl := hnames.agrees.type_eq hoperand htype
    simp only [Job.tidy, Wasm.tidy, hkind, refusesOperand_of_application hop, Bool.false_or,
      Bool.and_eq_true] at htidy
    exact types_application hop
      (h.types_single hnames.agrees hoperand (ih hnames hg hoperand htidy.2) htidy.1)
  | array hkind _ h ih =>
    simp only [Job.tidy, Wasm.tidy, hkind] at htidy
    -- The offset and the length follow the code that fills the elements.
    exact (ih (hnames.kept .data) hg hf.parts htidy).append fun _ _ => rfl
  | index hkind hb hi ihb ihi =>
    simp only [Job.tidy, Wasm.tidy, hkind, Bool.and_eq_true] at htidy
    exact (hb.types_elementAddress hi hnames hf.parts
      (ihb hnames (hg.earlier hi.grows.helpers)) (ihi (hnames.kept hb.kept) hg) htidy).append
      fun _ _ => rfl
  | assign hkind h ih =>
    simp only [Job.tidy, Wasm.tidy, hkind] at htidy
    exact ih hnames hg hf.parts htidy
  | passNone h =>
    rcases h with rfl | rfl
    · exact types_nil []
    · simp only [Job.tidy, Bool.and_eq_true, beq_iff_eq] at htidy
      rw [List.length_eq_zero_iff.mp htidy.1.symm]
      exact types_nil []
  | @pass param _ arg _ _ _ _ _ _ _ _ _ _ _ harg hv hargs ih ihs =>
    subst hv
    simp only [Job.tidy, tidyAll, Bool.and_eq_true, beq_iff_eq, List.length_cons,
      Nat.add_right_cancel_iff] at htidy
    have hfirst := types_coercion (harg.types_value
      (ih hnames (hg.earlier hargs.grows.helpers) hf.uncons.1 htidy.2.1)) arg param.type
    exact types_passed hfirst (ihs (hnames.kept (harg.kept.trans .reporting)) hg hf.uncons.2
      (by simp [Job.tidy, htidy]))
  | @printLiteral _ _ _ _ lit =>
    have hliteral : Types g labels (literal32 lit) [] [.i32, .i32] := fun _ _ => rfl
    exact hliteral.append (types_call hg.texts)
  | printText _ _ h hlength ih =>
    subst hlength
    obtain ⟨-, harg⟩ := Bool.and_eq_true_iff.mp htidy
    exact types_printText (h.types_value (ih hnames hg hf harg)) hg.scratch
      hg.texts
  | printBoolean htype h hhelper ih =>
    have hother := hnames.agrees.type_eq hf htype
    exact (h.types_printed hnames.agrees hf htidy (by rw [← hother]; decide)
      (ih hnames (hg.earlier hhelper.later.1.grows.helpers) hf)).append
      (types_call (hg.truths hhelper.later.2))
  | printDecimal htype h ih =>
    have hother := hnames.agrees.type_eq hf htype
    have hnumber : Types g labels [.num .ofBits, .num .toInteger] [.i64] [.i64] := fun _ _ => rfl
    exact (h.types_printed (hnames.agrees.reporting _) hf htidy (by rw [← hother]; decide)
      (ih (hnames.kept .reporting) hg hf)).append (hnumber.append (types_call hg.integers))
  | printRefused _ _ h ih =>
    obtain ⟨-, harg⟩ := Bool.and_eq_true_iff.mp htidy
    -- There may be no cell at all, so as many are dropped as there are.
    exact ((ih (hnames.kept .reporting) hg hf harg).append (types_discard _)).append
      fun _ _ => rfl
  | printInteger htype hother h ih =>
    obtain rfl := hnames.agrees.type_eq hf htype
    exact (h.types_printed hnames.agrees hf htidy ⟨hother.1, hother.2.2.2⟩
      (ih hnames hg hf)).append (types_call hg.integers)
  | prints harg hargs ih ihs =>
    simp only [Job.tidy, tidyPrints, Bool.and_eq_true] at htidy
    exact (ih hnames (hg.earlier hargs.grows.helpers) hf.uncons.1
      (by simp [Job.tidy, htidy])).append (ihs (hnames.kept harg.kept) hg hf.uncons.2 htidy.2)
  | elementFat helement hrep _ hrest ih ihs =>
    simp only [Job.tidy, tidyAll, Bool.and_eq_true] at htidy
    have hvalue := helement.types_value
      (ih hnames (hg.earlier hrest.grows.helpers) hf.uncons.1 htidy.1)
    rw [hrep] at hvalue
    have hstore : Types g labels [.drop, .drop, .const 0, .store] [.i64, .i64, .i32] [] :=
      fun _ _ => rfl
    exact (types_stored hvalue hstore).append
      (ihs (hnames.kept (helement.kept.trans .reporting)) hg hf.uncons.2 htidy.2)
  | elementScalar helement hrep hrest ih ihs =>
    simp only [Job.tidy, tidyAll, Bool.and_eq_true] at htidy
    have hvalue := helement.types_value
      (ih hnames (hg.earlier hrest.grows.helpers) hf.uncons.1 htidy.1)
    rw [hrep] at hvalue
    have hstore : Types g labels [.store] [.i64, .i32] [] := fun _ _ => rfl
    exact (types_stored hvalue hstore).append
      (ihs (hnames.kept helement.kept) hg hf.uncons.2 htidy.2)
  | @assignVariable _ p _ value _ _ _ sym _ _ _ _ _ _ hkind hsym hvalue hv ih =>
    subst hv
    rcases hnames.agrees.varNamed? p.name with ⟨hnone, -⟩ | ⟨_, _, -, henv, -⟩
    · cases hsym.symm.trans hnone
    rw [Job.tidy, tidyAssign.eq_def] at htidy
    simp only [hkind, henv, Option.isNone_some, Bool.false_or] at htidy
    obtain ⟨hvar, hholds⟩ := hnames.hosts.varNamed? hsym
    exact (types_coercion (hvalue.types_value
      (ih hnames hg hf.uncons.2.uncons.1 htidy)) value sym.type).append (types_store hvar hholds)
  | @assignElement _ _ _ _ _ value _ _ _ _ _ _ _ _ _ _ _ _ _ _ _ _ hkind hb hi hvalue hv ihb ihi
      ih =>
    subst hv
    rw [Job.tidy, tidyAssign.eq_def] at htidy
    simp only [hkind, Bool.and_eq_true] at htidy
    have hnames1 := hnames.kept hb.kept
    have haddress := hb.types_elementAddress hi hnames hf.parts
      (ihb hnames (hg.earlier (List.Subset.trans hi.grows.helpers hvalue.grows.helpers)))
      (ihi hnames1 (hg.earlier hvalue.grows.helpers)) htidy.1
    have hvalue' := types_coercion (hvalue.types_value
      (ih (hnames1.kept hi.kept) hg hf.uncons.2.uncons.1 htidy.2)) value .integer
    have hstore : Types g labels [.store] [.i64, .i32] [] := fun _ _ => rfl
    exact (haddress.append (hvalue'.frame [.i32])).append hstore

theorem Produces.types_tidy {c : Code} {cells : Nat} {reads : List Read}
    (h : Produces scratch (.expr t) st ⟨c, cells, reads⟩ st') (hnames : g.Suits env st.2)
    (hg : g.Serves scratch st'.2.helpers) (hf : Term.Formed [t]) (htidy : tidy env t = true) :
    Types g labels (settle (c, cells)).1 [] (words (settle (c, cells)).2.words) :=
  h.types_value (h.types hnames hg hf htidy)

end Codegen.Wasm
