import Codegen.Proofs.Arm64.Branches
import Codegen.Proofs.Declarations
import Codegen.Proofs.Number.Digits

/-!
# Declarations of AArch64 Programs

Declaring what stands at the top level adds a symbol for each function, class and variable, and
storage for each variable. Functions are generated afterwards, and between two of them names stand
for what was declared.
-/

namespace Codegen.Arm64

open Codegen.Tree List

def symbolStorage (sym : Symbol) : List Storage :=
  if sym.kind = .variable then [⟨sym.storage, sym.type.rep.words * 8⟩] else []

def Output.withSymbol (s : Output) (sym : Symbol) : Output :=
  if sym.kind = .variable then s.withStorage sym.storage (sym.type.rep.words * 8) else s

theorem foldl_withSymbol (s : Output) (syms : List Symbol) :
    syms.foldl Output.withSymbol s =
      { s with storage := s.storage ++ syms.flatMap symbolStorage } := by
  induction syms generalizing s with
  | nil => rw [flatMap_nil, append_nil, foldl_nil]
  | cons _ _ ih =>
    rw [foldl_cons, ih, flatMap_cons, Output.withSymbol, symbolStorage]
    split_ifs <;> simp [Output.withStorage]

section Programs

variable {flavor : Flavor} {st st' : Stage} {ts : List Tree} {userMain : Option Symbol}
  {fs : List (Frame × Code)} {syms : List Symbol}

theorem eq_of_ownMain? {p : Payload} {sym : Symbol} (h : ownMain? p = some sym) :
    sym = functionSymbol p := by
  exact (Option.some.inj (Option.ite_none_right_eq_some.mp h).2).symm

theorem Introduces.introduced (h : Introduces ts st userMain st') (hscopes : st.2.scopes = []) :
    ∃ syms, Introduced "fn_" "g_" Output.withSymbol ts userMain syms st st' := by
  induction h with
  | nil => exact ⟨[], .nil⟩
  | @function p ts _ _ _ later _ hkind _ ih =>
    rcases ih hscopes with ⟨syms, hrest⟩
    refine ⟨functionSymbol p :: syms, .cons hrest (declaration?_function ts hkind) rfl
      fun found hfound => ?_⟩
    -- The last function that could be the entry is the entry.
    cases later with
    | some => exact Or.inl hfound
    | none => exact Or.inr ⟨eq_of_ownMain? hfound, rfl⟩
  | @classDecl p ts _ _ ctx _ _ hkind _ ih =>
    rw [← ctx.declareGlobally_eq _ hscopes] at ih
    rcases ih hscopes with ⟨syms, hrest⟩
    exact ⟨.ofClass p.name p.fields :: syms, .cons hrest (declaration?_class ts hkind) rfl
      fun found => Or.inl⟩
  | @varDecl p ts _ _ _ type _ _ hkind _ _ ih =>
    rcases ih hscopes with ⟨syms, hrest⟩
    exact ⟨.staticVar p.name type (globalStorage p) :: syms,
      .cons hrest (declaration?_variable ts hkind) rfl fun found => Or.inl⟩
  | other hkind _ ih =>
    rcases ih hscopes with ⟨syms, hrest⟩
    exact ⟨syms, hrest.skip (declaration?_other _ hkind)⟩

/-- A stage between two functions: names stand for what the top level declares. -/
structure Complete (base : List Symbol) (st : Stage) : Prop where
  globals : st.2.globals = base
  scopes : st.2.scopes = []

theorem Defines.complete {base : List Symbol} {p : Payload} {body : Tree} {frame : Frame} {c : Code}
    (h : Defines flavor p body st frame c st') (hst : Complete base st) : Complete base st' := by
  cases h with
  | mk _ _ hbinds _ _ hbody _ _ hscopes _ =>
    obtain ⟨houter, hglobals⟩ := (hbinds.advances.trans hbody.advances).ended hst.scopes hscopes
    exact ⟨hglobals.trans hst.globals, houter⟩

theorem Functions.complete {base : List Symbol} (h : Functions flavor ts st fs st')
    (hst : Complete base st) : Complete base st' := by
  induction h with
  | nil => exact hst
  | function _ hdefines _ ih => exact ih (hdefines.complete hst)
  | other _ _ ih => exact ih hst

section Introduced

variable (h : Introduced "fn_" "g_" Output.withSymbol ts userMain syms
  ({}, { target := target }) st')

include h

theorem introduced_output : st'.1 = { storage := syms.flatMap symbolStorage } :=
  h.output.trans (foldl_withSymbol _ _)

theorem introduced_complete : Complete syms.reverse st' where
  globals := by
    rw [h.context]
    exact append_nil _
  scopes := by rw [h.context]

end Introduced

end Programs

end Codegen.Arm64
