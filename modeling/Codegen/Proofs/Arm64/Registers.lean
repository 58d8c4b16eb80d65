import Codegen.Proofs.Arm64.Program

/-!
# Argument Registers

Eight registers hold the words of arguments. A call and the function that is called divide them
up by themselves, each by going through the arguments or the parameters in order. As long as
there is room, both do the same. They differ in what they do with a value that does not fit: the
call stops there, while the function leaves the parameter out and goes on with the next.

That matters in one case. If seven words are taken and then a text or an array comes, there is no
room for it, but there still is for one word, and the next parameter of one word is stored from
`x7` although no argument was put there.

## Theorems

* `argument_registers`: Which arguments reach their parameters.
-/

namespace Codegen.Arm64

open Context List

/-- The first register of each parameter, from a register on; one that does not fit has none. -/
def received (n : Nat) : List Rep → List (Option Nat)
  | [] => []
  | rep :: rest =>
    if 8 < n + rep.words then none :: received n rest
    else some n :: received (n + rep.words) rest

/-- The first register of each argument, from a register on. From the first that does not fit on,
    they have none. -/
def passed (n : Nat) : List Rep → List (Option Nat)
  | [] => []
  | rep :: rest =>
    if 8 < n + rep.words then none :: rest.map fun _ => none
    else some n :: passed (n + rep.words) rest

/-- A parameter that is stored from a register that nothing was passed in. -/
def Stray (n : Nat) (reps : List Rep) (i : Nat) : Prop :=
  (received n reps)[i]? = some (some 7) ∧ ∃ j < i, (received n reps)[j]? = some none

section Division

variable {n : Nat} {reps : List Rep}

theorem words_pos (rep : Rep) : 1 ≤ rep.words := by cases rep <;> decide

theorem words_le (rep : Rep) : rep.words ≤ 2 := by cases rep <;> decide

theorem received_last (hn : 7 ≤ n) : ∀ r ∈ received n reps, r = none ∨ r = some 7 := by
  induction reps generalizing n with
  | nil => exact forall_mem_nil _
  | cons rep _ ih =>
    rw [received]
    split
    · exact forall_mem_cons.mpr ⟨.inl rfl, ih hn⟩
    · -- Only one word has room, and after it nothing has.
      have hwords := words_pos rep
      obtain rfl : n = 7 := by omega
      exact forall_mem_cons.mpr ⟨.inr rfl, ih (by omega)⟩

theorem length_received (n : Nat) (reps : List Rep) : (received n reps).length = reps.length := by
  induction reps generalizing n with
  | nil => rfl
  | cons _ _ ih =>
    rw [received]
    split <;> rw [length_cons, length_cons, ih]

/-- A parameter is stored from the register that its argument was put in, or it is stray and its
    argument was put in none. -/
theorem received_or_stray (n : Nat) (reps : List Rep) (i : Nat) :
    (received n reps)[i]? = (passed n reps)[i]? ∧ ¬ Stray n reps i ∨
      Stray n reps i ∧ (passed n reps)[i]? = some none := by
  unfold Stray
  induction reps generalizing n i with
  | nil => exact .inl ⟨rfl, by rintro ⟨⟨⟩, -⟩⟩
  | cons rep rest ih =>
    rw [received, passed]
    -- Up to the first value that does not fit both do the same. From there on the call has nothing,
    -- and the function has at most the last register.
    split_ifs
    · cases i with
      | zero => exact .inl ⟨rfl, by rintro ⟨⟨⟩, -⟩⟩
      | succ i =>
        have hwords := words_le rep
        have hnone : (rest.map fun _ => (none : Option Nat)) =
            (received n rest).map fun _ => none := by
          rw [map_const', map_const', length_received]
        rw [hnone, getElem?_cons_succ, getElem?_cons_succ, getElem?_map]
        cases hi : (received n rest)[i]? with
        | none => exact .inl ⟨rfl, by rintro ⟨⟨⟩, -⟩⟩
        | some r =>
          rcases received_last (by omega) r (mem_of_getElem? hi) with rfl | rfl
          · exact .inl ⟨rfl, by rintro ⟨⟨⟩, -⟩⟩
          · exact .inr ⟨⟨rfl, 0, Nat.succ_pos i, rfl⟩, rfl⟩
    · cases i with
      | zero => exact .inl ⟨rfl, by rintro ⟨-, j, hj, -⟩; exact Nat.not_lt_zero j hj⟩
      | succ i =>
        -- The first value has registers, so none before the next one is left out at it.
        have hshift : (∃ j < i + 1, (some n :: received (n + rep.words) rest)[j]? = some none) ↔
            ∃ j < i, (received (n + rep.words) rest)[j]? = some none := by
          constructor
          · rintro ⟨_ | j, hj, h⟩
            · cases h
            · exact ⟨j, Nat.lt_of_succ_lt_succ hj, h⟩
          · rintro ⟨j, hj, h⟩
            exact ⟨j + 1, Nat.succ_lt_succ hj, h⟩
        simp only [hshift]
        exact ih (n + rep.words) i

/-- The two agree on all parameters that are not stray. -/
theorem received_eq_iff (i : Nat) :
    (received n reps)[i]? = (passed n reps)[i]? ↔ ¬ Stray n reps i := by
  rcases received_or_stray n reps i with ⟨hsame, hnot⟩ | ⟨hstray, hnone⟩
  · exact iff_of_true hsame hnot
  · refine iff_of_false ?_ (not_not_intro hstray)
    rw [hstray.1, hnone]
    rintro ⟨⟩

theorem received_add_words {i r : Nat} {rep : Rep} (h : (received n reps)[i]? = some (some r))
    (hrep : reps[i]? = some rep) : r + rep.words ≤ 8 := by
  induction reps generalizing n i with
  | nil => cases h
  | cons first rest ih =>
    rw [received] at h
    split at h <;> cases i
    case isTrue.zero => cases h
    case isTrue.succ | isFalse.succ => exact ih h hrep
    case isFalse.zero hroom =>
      cases h
      cases hrep
      exact Nat.le_of_not_lt hroom

end Division

def paramReps (params : List Param) : List Rep := params.map fun param => param.type.rep

/-- Stores parameters in their slots, those that have registers. -/
def storeParams (syms : List Symbol) (regs : List (Option Nat)) : Code :=
  (zipWith (fun sym r => r.elim [] (storeParam · sym)) syms regs).flatten

/-- Takes arguments from the stack, those that have registers. -/
def popParams (reps : List Rep) (regs : List (Option Nat)) : Code :=
  (zipWith (fun rep r => r.elim [] (pop rep)) reps regs).flatten

/-- Evaluates values onto the stack, the last of them first. -/
def pushParts : List (Code × Rep) → Code
  | [] => []
  | (c, rep) :: rest => pushParts rest ++ c ++ push rep

section Functions

variable {p : Payload} {body : Tree} {ctx : Context}

theorem ends_bindParams (name : Bytes) {params : List Param} {syms : List Symbol} {ctx' : Context}
    (h : Binds params ctx syms ctx') (n : Nat) (s : Output) {env : Context}
    (henv : env.function = ctx.function) : ∃ env', Ends (bindParams name n params) s env
      (storeParams syms (received n (paramReps params))) s env' := by
  induction h generalizing n env with
  | nil => exact ⟨_, ends_pure⟩
  | @cons param _ ctx fn issues _ _ hfn _ ih =>
    have hfn' := henv.trans hfn
    -- Limitations come in on the way, and slots do not depend on them.
    have hdeclared (is : List Issue) :
        ((env.declaring fn param.name param.type).reporting is).function =
          ((ctx.declaring fn param.name param.type).reporting issues).function :=
      (function_declaring env fn _ _).trans (function_declaring ctx fn _ _).symm
    rw [paramReps, map_cons, received]
    by_cases hover : 8 < n + param.type.rep.words
    · rcases ih n (hdeclared [⟨.funcDecl, .parameterOverflow param.name name⟩]) with ⟨env', hends⟩
      refine ⟨env', ends_bind (ends_declareLocal hfn') ?_⟩
      rw [if_pos hover, if_pos hover]
      exact ends_bind ends_limit hends
    · have hsame := hdeclared []
      rw [reporting_nil] at hsame
      rcases ih (n + param.type.rep.words) hsame with ⟨env', hends⟩
      refine ⟨env', ends_bind (ends_declareLocal hfn') ?_⟩
      rw [if_neg hover, if_neg hover]
      exact ends_bind hends ends_pure

/-- A function stores its parameters from these registers. -/
def Receives (flavor : Flavor) (p : Payload) (body : Tree) (st : Stage)
    (regs : List (Option Nat)) : Prop :=
  ∃ frame st' symbol words rest, Defines flavor p body st frame
    (prologue symbol words ++ storeParams frame.params regs ++ rest) st'

/-- The registers of the parameters of a function. -/
theorem receives_of_formed (flavor : Flavor) (hkind : p.kind = .funcDecl)
    (hbody : Tree.Formed [body]) (hscopes : ctx.scopes = []) (hknown : ctx.Knows p.name)
    (s : Output) : Receives flavor p body (s, ctx) (received 0 (paramReps p.params)) := by
  rcases @exists_defines flavor ctx p body hkind hbody hknown s ctx hscopes
    (.refl (fun _ => rfl) ctx) with ⟨frame, whole, s', ctx', h, -⟩
  cases id h with
  | mk _ _ hbinds _ _ _ _ _ _ hwhole hbound =>
    -- The rules leave the code for parameters open, but a run has one end.
    rcases ends_bindParams p.name hbinds 0 s rfl with ⟨env', hends⟩
    obtain ⟨rfl, -⟩ := hbound.unique hends
    rw [append_assoc] at hwhole
    exact ⟨_, _, _, _, _, hwhole ▸ h⟩

end Functions

/-- Code and representation of a value, for a term whose names stand for what they do in a
    context. -/
def Evaluates (flavor : Flavor) (env : Context) (t : Term) (value : Code × Rep) : Prop :=
  ∃ s ctx s' ctx', env.Kept ctx ∧ Ends (expr flavor t) s ctx value s' ctx'

/-- A call takes its arguments to these registers. -/
def Passes (flavor : Flavor) (sym : Symbol) (call : Term) (st : Stage) (args : List Term)
    (reps : List Rep) (regs : List (Option Nat)) : Prop :=
  ∃ parts reads st', Produces flavor (.expr call) st
      ⟨pushParts parts ++ popParams reps regs ++ code [.bl sym.storage], [sym.result.rep], reads⟩
      st' ∧
    Forall₂ (Evaluates flavor st.2) (args.take parts.length) parts

/-- An argument whose type and whose value have the representation of a parameter. -/
structure Suits (flavor : Flavor) (env : Context) (arg : Term) (param : Param) : Prop where
  type : ∀ {type}, env.typeOf arg = .ok type → type.rep = param.type.rep
  value : ∀ {value}, Evaluates flavor env arg value → value.2 = param.type.rep

section Calls

variable {flavor : Flavor} {env : Context} {args : List Term} {params : List Param}

theorem exists_parts {count : Nat} {st st' : Stage} {c : Code} {reps : List Rep}
    {reads : List Read} (h : Produces flavor (.pushes count args) st ⟨c, reps, reads⟩ st')
    (hkept : env.Kept st.2) : ∃ parts, c = pushParts parts ∧ reps = parts.map Prod.snd ∧
      Forall₂ (Evaluates flavor env) (args.take count) parts := by
  induction args generalizing count c reps reads st' with
  | nil =>
    cases h
    exact ⟨[], rfl, rfl, by rw [take_nil]; exact .nil⟩
  | cons _ _ ih =>
    cases h with
    | pushNone hnone =>
      rcases hnone with rfl | hnone
      · exact ⟨[], rfl, rfl, .nil⟩
      · cases hnone
    | @push _ _ _ _ _ _ _ _ a rep _ _ hargs harg =>
      -- The arguments behind are pushed before this one.
      rcases ih hargs with ⟨parts, rfl, rfl, hparts⟩
      refine ⟨(a, rep) :: parts, rfl, rfl, ?_⟩
      exact .cons ⟨_, _, _, _, hkept.trans hargs.kept, harg.runs⟩ hparts

theorem popParams_none (reps rest : List Rep) : popParams reps (rest.map fun _ => none) = [] := by
  induction reps generalizing rest with
  | nil => rfl
  | cons _ _ ih =>
    cases rest with
    | nil => rfl
    | cons _ rest => exact ih rest

theorem popArgs_fitting (n : Nat) (found : List Finding) :
    popArgs n ((found.map fun f => f.type.rep).take (fittingArgs n found)) =
      popParams (found.map fun f => f.type.rep) (passed n (found.map fun f => f.type.rep)) := by
  induction found generalizing n with
  | nil => rfl
  | cons f _ ih =>
    rw [map_cons, fittingArgs, passed]
    split_ifs
    · exact (popParams_none _ _).symm
    · rw [take_succ_cons, popArgs, ih]
      rfl

theorem map_typed_of_suits (hf : Term.Formed args)
    (h : Forall₂ (Suits flavor env) args params) :
    (rules.surveys env args).map (fun f => f.type.rep) = paramReps params := by
  have hself : env.Agrees Eq env := .refl (fun _ => rfl) env
  induction h with
  | nil => rfl
  | cons hsuits _ ih =>
    rw [Rules.surveys, map_cons, ih hf.uncons.2, rules.survey_type,
      hsuits.type (hself.typeOf hf.uncons.1 _ (by simp))]
    rfl

theorem map_rep_of_suits {parts : List (Code × Rep)}
    (h : Forall₂ (Suits flavor env) args params)
    (hparts : Forall₂ (Evaluates flavor env) args parts) :
    parts.map Prod.snd = paramReps params := by
  induction h generalizing parts with
  | nil =>
    cases hparts
    rfl
  | cons hsuits _ ih =>
    cases hparts with
    | cons hpart hrest =>
      rw [map_cons, hsuits.value hpart, ih hrest]
      rfl

/-- The registers of the arguments of a call. -/
theorem passes_of_formed (q : Payload) {name : Bytes} {sym : Symbol} (hf : Term.Formed args)
    (hprint : name ≠ "print") (hlength : name ≠ "length") (hsym : env.funcNamed? name = some sym)
    (hargs : Forall₂ (Suits flavor env) args params) (s : Output) :
    Passes flavor sym (.call q (some name) args) (s, env) args (paramReps params)
      (passed 0 (paramReps params)) := by
  have hself : env.Agrees Eq env := .refl (fun _ => rfl) env
  have hlowers : ∀ t ∈ args, Lowers flavor env t := fun t ht =>
    (lowers_of_formed flavor env hf t ht).1
  generalize hcount : fittingArgs 0 (rules.surveys env args) = count
  rcases exists_pushes hlowers count s _ (hself.reporting _) with ⟨c, reps, reads, s', ctx', h, -⟩
  rcases exists_parts h .reporting with ⟨parts, rfl, rfl, hparts⟩
  -- How many fit is decided by the types of arguments, what is popped by the values. Where
  -- arguments suit parameters, these are the same.
  have hreps : parts.map Prod.snd = (paramReps params).take count := by
    rw [map_rep_of_suits (forall₂_take count hargs) hparts, paramReps, map_take]
    rfl
  have hfound := map_typed_of_suits hf hargs
  have hpops := popArgs_fitting 0 (rules.surveys env args)
  rw [hfound, hcount, ← hreps] at hpops
  unfold Passes
  rw [← hpops]
  refine ⟨parts, _, _, .call hprint hlength hsym (hcount ▸ run_fitting hf 0 hself) rfl h, ?_⟩
  rw [← hparts.length_eq, length_take, ← take_eq_take_min]
  exact hparts

theorem suits_of_survey {arg : Term} {param : Param} (hf : Term.Formed [arg])
    (htype : (rules.survey env arg).type.rep = param.type.rep)
    (hrep : (rules.survey env arg).rep = param.type.rep) : Suits flavor env arg param where
  type h := by
    have hself : env.Agrees Eq env := .refl (fun _ => rfl) env
    rw [hself.typeOf hf arg (by simp)] at h
    rw [← Except.ok.inj h, ← htype, rules.survey_type]
  value h := by
    rcases h with ⟨s, ctx, s', ctx', hkept, hends⟩
    have hagrees : ctx.Agrees Eq env := (Agrees.refl (fun _ => rfl) env).kept hkept
    rcases (lowers_of_formed flavor env hf arg (by simp)).1 s ctx hagrees with ⟨c, _, _, _, h, -⟩
    -- A run has one end.
    rw [(hends.unique h.runs).1]
    exact hrep

end Calls

/-- A function is generated wherever no other is under way, and a call of it is lowered wherever
    its name stands for it. If there is one argument for each parameter, of the same
    representation, then a parameter is stored from the registers that its argument was taken
    into, none if it was not passed, exactly if it is not stray. A stray one is stored from `x7`
    and was not passed. All registers are among `x0` to `x7`. -/
theorem argument_registers {flavor : Flavor} {p q : Payload} {body : Tree} {args : List Term}
    {ctx env : Context} (hkind : p.kind = .funcDecl) (hbody : Tree.Formed [body])
    (hscopes : ctx.scopes = []) (hknown : ctx.Knows p.name) (hprint : p.name ≠ "print")
    (hlength : p.name ≠ "length") (hsym : env.funcNamed? p.name = some (functionSymbol p))
    (hformed : Term.Formed args) (hargs : List.Forall₂ (Suits flavor env) args p.params)
    (s out : Output) :
    let reps := paramReps p.params
    Receives flavor p body (s, ctx) (received 0 reps) ∧
      Passes flavor (functionSymbol p) (.call q (some p.name) args) (out, env) args reps
        (passed 0 reps) ∧
      (∀ i, (received 0 reps)[i]? = (passed 0 reps)[i]? ↔ ¬ Stray 0 reps i) ∧
      (∀ i, Stray 0 reps i → (passed 0 reps)[i]? = some none) ∧
      ∀ (i r : Nat) (rep : Rep), reps[i]? = some rep →
        (received 0 reps)[i]? = some (some r) ∨ (passed 0 reps)[i]? = some (some r) →
        r + rep.words ≤ 8 := by
  intro reps
  refine ⟨receives_of_formed flavor hkind hbody hscopes hknown s,
    passes_of_formed q hformed hprint hlength hsym hargs out, received_eq_iff, fun i hi => ?_,
    fun i r rep hrep hr => ?_⟩
  · rcases received_or_stray 0 reps i with ⟨-, hnot⟩ | ⟨-, hnone⟩
    · exact absurd hi hnot
    · exact hnone
  · -- What is passed is received as well, so the bound for parameters is enough.
    refine received_add_words (hr.elim id fun hpassed => ?_) hrep
    rcases received_or_stray 0 reps i with ⟨hsame, -⟩ | ⟨-, hnone⟩
    · exact hsame.trans hpassed
    · rw [hnone] at hpassed
      cases hpassed

namespace Sample

def routine (types : List Ty) : Payload :=
  { kind := .funcDecl, name := "f", params := types.map fun type => ⟨"a", type⟩, result := .void }

/-- A body without statements. -/
def nothing : Tree := .node { kind := .block } []

def mixed : List Ty := [.integer, .text, .integer]

/-- Seven numbers, a text that is too much for the registers, and a number that is not. -/
def crowded : List Ty := replicate 7 .integer ++ [.text, .integer]

def literal (type : Ty) : Term :=
  .node { kind := if type.rep = .fat then .string else .integer } []

def calling (args : List Term) : Term := .call { kind := .call } (some "f") args

def declaring (types : List Ty) : Context :=
  { target := target, globals := [functionSymbol (routine types)] }

theorem formed_nothing : Tree.Formed [nothing] := .cons _ [] [] trivial .nil .nil

theorem suits_literals (env : Context) (types : List Ty) :
    Term.Formed (types.map literal) ∧
      Forall₂ (Suits .linux env) (types.map literal) (routine types).params := by
  have hformed (type : Ty) : Term.Formed [literal type] := by
    refine .node _ [] [] ?_ .nil .nil
    cases hrep : type.rep <;> simp [Payload.Fits]
  refine ⟨?_, ?_⟩
  · induction types with
    | nil => exact .nil
    | cons type _ ih => exact (hformed type).cons ih
  · simp only [routine, forall₂_map_left_iff, forall₂_map_right_iff, forall₂_same]
    intro type _
    refine suits_of_survey (hformed type) ?_ ?_
    all_goals cases hrep : type.rep <;> simp only [literal, hrep] <;> rfl

end Sample

theorem argument_registers_mixed :
    let p := Sample.routine Sample.mixed
    let st : Stage := ({}, Sample.declaring Sample.mixed)
    let args := Sample.mixed.map Sample.literal
    Receives .linux p Sample.nothing st [some 0, some 1, some 3] ∧
      Passes .linux (functionSymbol p) (Sample.calling args) st args [.scalar, .fat, .scalar]
        [some 0, some 1, some 3] := by
  intro p st args
  obtain ⟨hformed, hsuits⟩ := Sample.suits_literals st.2 Sample.mixed
  obtain ⟨hreceives, hpasses, -⟩ := @argument_registers .linux p { kind := .call } Sample.nothing _
    st.2 st.2 rfl Sample.formed_nothing rfl ⟨_, rfl⟩ (by decide) (by decide) rfl hformed hsuits
    {} {}
  exact ⟨hreceives, hpasses⟩

/-- The last parameter of the crowded function is stored from `x7`, and a call of it with an
    argument for each parameter takes nothing into a register for it. -/
theorem argument_registers_crowded :
    let p := Sample.routine Sample.crowded
    let st : Stage := ({}, Sample.declaring Sample.crowded)
    let args := Sample.crowded.map Sample.literal
    ∃ received passed : List (Option Nat), List.Forall₂ (Suits .linux st.2) args p.params ∧
      Receives .linux p Sample.nothing st received ∧
      Passes .linux (functionSymbol p) (Sample.calling args) st args (paramReps p.params) passed ∧
      received[8]? = some (some 7) ∧ passed[8]? = some none := by
  intro p st args
  obtain ⟨hformed, hsuits⟩ := Sample.suits_literals st.2 Sample.crowded
  have hsym : st.2.funcNamed? "f" = some (functionSymbol p) := rfl
  exact ⟨_, _, hsuits, receives_of_formed .linux rfl Sample.formed_nothing rfl ⟨_, rfl⟩ {},
    passes_of_formed _ hformed (by decide) (by decide) hsym hsuits {}, by decide, by decide⟩

end Codegen.Arm64
