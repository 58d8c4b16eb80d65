import Codegen.Proofs.Mangling
import Codegen.Proofs.Wasm.Statement

/-!
# The Places of a Program's Names

Before anything is lowered, the names of a program are declared. A variable gets a cell of
the module, or two, a function gets the name that it will be emitted under, and a class
gets nothing. Later declarations hide earlier ones, and the function of a hidden name is
emitted under whatever its name means, so that the names of the functions of a module have
to be read off the declarations and not the functions.

That a call finds a function of the type that it expects then has three parts: every
declared function is emitted, no other function has such a name, and functions of the same
name have the same type.
-/

namespace Codegen.Wasm

open Context List

/-- What a name of the top level stands for, in a program with certain functions and a module
    with certain cells. -/
inductive Placed (ps : List Payload) (globals : List Bytes) : Bytes → Symbol → Prop where
  | global (name : Bytes) (type : Ty) (cell : globalName name ∈ globals)
      (length : type.rep = .fat → lengthCell (globalName name) ∈ globals) :
      Placed ps globals name (.staticVar name type (globalName name))
  | function (p : Payload) (declared : p ∈ ps) :
      Placed ps globals p.name (.ofFunction p.name p.params p.result (functionName p.name))
  | classType (name : Bytes) (fields : List Param) : Placed ps globals name (.ofClass name fields)

/-- What all names stand for. -/
def Places (ps : List Payload) (k : Context) (globals : List Bytes) : Prop :=
  ∀ name sym, k.lookup? name = some sym → Placed ps globals name sym

section Declarations

variable {ps : List Payload} {globals globals' : List Bytes} {k : Context} {name : Bytes}

theorem Placed.later {sym : Symbol} (h : Placed ps globals name sym)
    (hsub : globals ⊆ globals') : Placed ps globals' name sym := by
  cases h with
  | global _ type cell length =>
    exact .global name type (hsub cell) fun hfat => hsub (length hfat)
  | function p declared => exact .function p declared
  | classType _ fields => exact .classType name fields

theorem Places.declareHere (h : Places ps k globals) {sym : Symbol} (hsub : globals ⊆ globals')
    (hsym : Placed ps globals' sym.name sym) : Places ps (k.declareHere sym) globals' := by
  intro name found hfound
  rw [lookup?_declareHere] at hfound
  cases heq : sym.name == name with rw [heq] at hfound
  | true =>
    cases hfound
    rwa [← eq_of_beq heq]
  | false => exact (h name found hfound).later hsub

def IsMain (ps : List Payload) (sym : Symbol) : Prop :=
  ∃ p ∈ ps, isMain p = true ∧ sym = .ofFunction p.name p.params p.result (functionName p.name)

/-- The names of a program are placed. -/
theorem Introduces.places {ts : List Tree} {main : Option Symbol} {st st' : Stage}
    (h : Introduces ts st main st') (hscopes : st.2.scopes = [])
    (hmem : ∀ p us, Tree.node p us ∈ ts → p.kind = .funcDecl → p ∈ ps)
    (hplaces : Places ps st.2 st.1.globals) :
    Places ps st'.2 st'.1.globals ∧ ∀ sym, main = some sym → IsMain ps sym := by
  have hnone (sym : Symbol) (h : none = some sym) : IsMain ps sym := by cases h
  induction h with
  | nil => exact ⟨hplaces, hnone⟩
  | @function p us _ _ ctx later _ hkind _ ih =>
    have hp := hmem p us (by simp) hkind
    rw [ctx.declareGlobally_eq _ hscopes] at ih
    obtain ⟨hafter, hmain⟩ := ih (scopes_declareHere hscopes _)
      (fun q vs hq => hmem q vs (by simp [hq]))
      (hplaces.declareHere (List.Subset.refl _) (.function p hp))
    refine ⟨hafter, fun sym hsym => ?_⟩
    -- The last entry counts.
    cases later with
    | some => exact hmain sym hsym
    | none =>
      have hown : ownMain? p = some sym := hsym
      unfold ownMain? at hown
      split at hown
      · next hself =>
        exact ⟨p, hp, hself, (Option.some.inj hown).symm⟩
      · cases hown
  | classDecl _ _ ih =>
    exact ih (scopes_declareHere hscopes _) (fun q vs hq => hmem q vs (by simp [hq]))
      (hplaces.declareHere (List.Subset.refl _) (.classType _ _))
  | @varDecl p _ _ _ ctx type _ _ _ _ _ ih =>
    rw [ctx.declareGlobally_eq _ hscopes] at ih
    -- Two cells for a value with a length, and one for any other; the old cells stay.
    refine ih (scopes_declareHere hscopes _) (fun q vs hq => hmem q vs (by simp [hq]))
      (hplaces.declareHere (subset_append_left _ _) (.global p.name type ?_ fun hfat => ?_))
    · exact mem_append_right _ mem_cons_self
    · exact mem_append_right _ (by simp [globalCells, hfat])
  | other _ _ ih => exact ih hscopes (fun q vs hq => hmem q vs (by simp [hq])) hplaces

end Declarations

section Names

theorem functionName_ne_globalName (x y : Bytes) : functionName x ≠ globalName y :=
  Apart.append_ne (by decide) _ _

def ownNames : List Bytes := [[], "$main", printIntegerName, printTextName, printBoolName]

theorem functionName_notMem (x : Bytes) : functionName x ∉ ownNames := by
  have hne (own : Bytes) (h : own.take 4 ≠ "$fn_") : functionName x ≠ own := by
    intro heq
    refine h ?_
    rw [← heq]
    exact take_left' (by decide)
  simp only [ownNames, mem_cons, not_mem_nil, or_false, not_or]
  exact ⟨hne _ (by decide), hne _ (by decide), hne _ (by decide), hne _ (by decide),
    hne _ (by decide)⟩

theorem globalName_ne_printBoolName (x : Bytes) : globalName x ≠ printBoolName := by
  intro heq
  have htake := congrArg (take 3) heq
  rw [take_left' (by decide)] at htake
  exact absurd htake (by decide)

end Names

/-- The function is the code of a declaration: it has its type, and the name of whatever the
    declared name means. -/
def Func.Compiles (k : Context) (p : Payload) (f : Func) : Prop :=
  ∃ sym, k.lookup? p.name = some sym ∧ f.name = sym.storage ∧
    f.signature = ⟨words (paramCells p.params), resultCells p.result.hasResult⟩

/-- The functions of a module are those of a program, its entry, and helpers for truth
    values. Functions of the same name have the same type. -/
structure Listing (k : Context) (ps : List Payload) (m : Module) : Prop where
  places : Places ps k m.globals
  funcs : ∃ fs entry, m.funcs = fs ++ [entry] ∧ Forall₂ (fun p f => f.Compiles k p) ps fs ∧
    entry.name = ("$main" : Bytes)
  helpers : ∀ f ∈ m.helpers, ∃ yes no, f = printBool yes no
  compatible : ∀ p ∈ ps, ∀ q ∈ ps, compatible p q = true

section Listing

variable {ps : List Payload} {globals : List Bytes} {k : Context} {m : Module} {name : Bytes}
  {sym : Symbol}

theorem Placed.mangle_eq (h : Placed ps globals name sym) {x : Bytes}
    (hstorage : sym.storage = functionName x) : mangle name = mangle x := by
  cases h with
  | global => exact absurd hstorage.symm (functionName_ne_globalName x name)
  | function => exact append_cancel_left hstorage
  | classType =>
    have hmem : functionName x ∈ ownNames := hstorage ▸ mem_cons_self
    exact absurd hmem (functionName_notMem x)

theorem Placed.storage_ne (h : Placed ps globals name sym) : sym.storage ≠ printBoolName := by
  cases h with
  | global => exact globalName_ne_printBoolName name
  | function p =>
    intro heq
    have heq : functionName p.name = printBoolName := heq
    refine functionName_notMem p.name ?_
    rw [heq]
    simp [ownNames]
  | classType => exact nofun

/-- A name that functions of one type have, and only those, means a function of that type. -/
theorem Module.signature?_eq {type : Signature} (himport : import? name = none)
    (hsome : ∃ f ∈ m.funcs ++ m.helpers, f.name = name)
    (hall : ∀ f ∈ m.funcs ++ m.helpers, f.name = name → f.signature = type) :
    m.signature? name = some type := by
  unfold Module.signature?
  rw [himport]
  cases hfind : (m.funcs ++ m.helpers).find? fun f => f.name == name with
  | none =>
    rcases hsome with ⟨f, hf, hname⟩
    exact absurd (beq_iff_eq.mpr hname) (find?_eq_none.mp hfind f hf)
  | some f =>
    have hname := find?_some hfind
    exact congrArg some (hall f (mem_of_find?_eq_some hfind) (eq_of_beq hname))

theorem compiles_of_mem {fs : List Func}
    (h : Forall₂ (fun p f => Func.Compiles k p f) ps fs) :
    (∀ p ∈ ps, ∃ f ∈ fs, f.Compiles k p) ∧ ∀ f ∈ fs, ∃ p ∈ ps, f.Compiles k p := by
  induction h with
  | nil => exact ⟨nofun, nofun⟩
  | cons hpf _ ih =>
    refine ⟨forall_mem_cons.mpr ⟨⟨_, by simp, hpf⟩, fun q hq => ?_⟩,
      forall_mem_cons.mpr ⟨⟨_, by simp, hpf⟩, fun f hf => ?_⟩⟩
    · rcases ih.1 q hq with ⟨f, hf, hqf⟩
      exact ⟨f, by simp [hf], hqf⟩
    · rcases ih.2 f hf with ⟨q, hq, hqf⟩
      exact ⟨q, by simp [hq], hqf⟩

/-- A function has the type that it was declared with. -/
theorem Listing.signature?_function (h : Listing k ps m) {q : Payload} (hq : q ∈ ps)
    (hsym : k.lookup? q.name =
      some (.ofFunction q.name q.params q.result (functionName q.name))) :
    m.signature? (functionName q.name) =
      some ⟨words (paramCells q.params), resultCells q.result.hasResult⟩ := by
  have hown := functionName_notMem q.name
  simp only [ownNames, mem_cons, not_mem_nil, or_false, not_or] at hown
  rcases h.funcs with ⟨fs, entry, hfuncs, hcompiles, hentry⟩
  obtain ⟨hemitted, hdeclared⟩ := compiles_of_mem hcompiles
  refine Module.signature?_eq ?_ ?_ fun f hf hname => ?_
  · rw [import?, if_neg hown.2.2.1, if_neg hown.2.2.2.1]
  · rcases hemitted q hq with ⟨f, hf, sym, hfound, hname, -⟩
    cases hsym.symm.trans hfound
    exact ⟨f, by simp [hfuncs, hf], hname⟩
  · rw [hfuncs, mem_append, mem_append, mem_singleton] at hf
    rcases hf with (hf | rfl) | hf
    · -- Its declaration has the same name in the module, and so the same type.
      rcases hdeclared f hf with ⟨p, hp, sym, hfound, hstorage, htype⟩
      have hmangle := (h.places p.name sym hfound).mangle_eq (hstorage.symm.trans hname)
      have hcompatible := h.compatible p hp q hq
      simp only [Wasm.compatible, hmangle, bne_self_eq_false, Bool.false_or, Bool.and_eq_true,
        beq_iff_eq] at hcompatible
      rw [htype, hcompatible.1, hcompatible.2]
    · exact absurd (hname.symm.trans hentry) hown.2.1
    · rcases h.helpers f hf with ⟨yes, no, rfl⟩
      exact absurd hname.symm hown.2.2.2.2

/-- The name of the helper means the helper. -/
theorem Listing.signature?_printBool (h : Listing k ps m)
    (hhelps : ∃ f ∈ m.helpers, f.name = printBoolName) :
    m.signature? printBoolName = some ⟨[.i64], []⟩ := by
  rcases h.funcs with ⟨fs, entry, hfuncs, hcompiles, hentry⟩
  have hdeclared := (compiles_of_mem hcompiles).2
  refine Module.signature?_eq (by decide) ?_ fun f hf hname => ?_
  · rcases hhelps with ⟨f, hf, hname⟩
    exact ⟨f, by simp [hf], hname⟩
  · rw [hfuncs, mem_append, mem_append, mem_singleton] at hf
    rcases hf with (hf | rfl) | hf
    · rcases hdeclared f hf with ⟨p, hp, sym, hfound, hstorage, -⟩
      exact absurd (hstorage.symm.trans hname) (h.places p.name sym hfound).storage_ne
    · exact absurd (hentry.symm.trans hname) (by decide)
    · rcases h.helpers f hf with ⟨yes, no, rfl⟩
      rfl

theorem Listing.signature?_main (h : Listing k ps m) (hsym : IsMain ps sym)
    (hmain : (k.funcNamed? "main").isSome = true) :
    m.signature? sym.storage = some ⟨[], resultCells sym.result.hasResult⟩ := by
  rcases hsym with ⟨p, hp, hself, rfl⟩
  rw [isMain, Bool.and_eq_true, decide_eq_true_eq, List.isEmpty_iff] at hself
  rcases Option.isSome_iff_exists.mp hmain with ⟨found, hfound⟩
  obtain ⟨hlookup, hkind⟩ := Option.filter_eq_some_iff.mp hfound
  have hplaced := h.places _ _ hlookup
  rw [← hself.1] at hplaced hlookup
  -- The name may have been declared more than once, and it means the last of them. That is
  -- some function, perhaps another one, of the same type.
  generalize hname : p.name = name at hplaced hlookup
  cases hplaced with
  | global => cases hkind
  | classType => cases hkind
  | function q hq =>
    have hcompatible := h.compatible p hp q hq
    simp only [Wasm.compatible, hname, bne_self_eq_false, Bool.false_or, Bool.and_eq_true,
      beq_iff_eq] at hcompatible
    have htype := h.signature?_function hq hlookup
    rw [← hcompatible.1, ← hcompatible.2, hself.2] at htype
    exact htype

theorem Listing.hosts (h : Listing k ps m) {g : Setting} (hglobals : g.globals = m.globals)
    (hsignature : g.signature? = m.signature?) : g.Hosts k := by
  intro name sym hsym
  have hplaced := h.places name sym hsym
  cases hplaced with
  | global _ _ cell length =>
    refine ⟨?_, fun hfat => ?_⟩
    · rw [hglobals]
      exact cell
    · rw [hglobals]
      exact length hfat
  | function p hp =>
    change g.signature? (functionName p.name) = _
    rw [hsignature]
    exact h.signature?_function hp hsym
  | classType => trivial

end Listing

end Codegen.Wasm
