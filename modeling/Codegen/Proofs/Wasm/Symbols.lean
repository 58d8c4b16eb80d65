import Codegen.Proofs.Declarations
import Codegen.Proofs.Wasm.Generation

/-!
# Declarations of WebAssembly Modules

The globals of a module are the cells of the variables at the top level. A variable that holds a
text or an array has a second cell for the length, whose identifier is that of the first with
`_len` behind it. Functions are generated afterwards, and between two of them names stand for what
was declared.
-/

namespace Codegen.Wasm

open Codegen.Tree List

def symbolCells (sym : Symbol) : List Bytes :=
  if sym.kind = .variable then
    sym.storage :: (if sym.type.rep = .fat then [lengthCell sym.storage] else [])
  else []

def Output.withSymbol (s : Output) (sym : Symbol) : Output :=
  if sym.kind = .variable then s.withGlobals (symbolCells sym) else s

theorem foldl_withSymbol (s : Output) (syms : List Symbol) :
    syms.foldl Output.withSymbol s = s.withGlobals (syms.flatMap symbolCells) := by
  induction syms generalizing s with
  | nil => rw [flatMap_nil, foldl_nil, Output.withGlobals, append_nil]
  | cons _ _ ih =>
    rw [foldl_cons, ih, flatMap_cons, Output.withSymbol, symbolCells]
    split_ifs <;> simp [Output.withGlobals]

section Modules

variable {st st' : Stage} {ts : List Tree} {userMain : Option Symbol} {fs : List (Frame × Func)}
  {syms : List Symbol} {sym : Symbol}

theorem eq_of_ownMain? {p : Payload} (h : ownMain? p = some sym) : sym = functionSymbol p := by
  exact (Option.some.inj (Option.ite_none_right_eq_some.mp h).2).symm

theorem Introduces.introduced (h : Introduces ts st userMain st') (hscopes : st.2.scopes = []) :
    ∃ syms, Introduced "$fn_" "$g_" Output.withSymbol ts userMain syms st st' := by
  induction h with
  | nil => exact ⟨[], .nil⟩
  | @function p ts _ _ _ later _ hkind _ ih =>
    rcases ih hscopes with ⟨syms, hrest⟩
    refine ⟨functionSymbol p :: syms, .cons hrest (declaration?_function ts hkind) rfl
      fun found hfound => ?_⟩
    -- The last function that could be the entry is the entry.
    cases later with
    | some => exact Or.inl hfound
    | none => exact Or.inr ⟨eq_of_ownMain? hfound, rfl⟩
  | @classDecl p ts _ _ ctx _ _ hkind _ ih =>
    rw [← ctx.declareGlobally_eq _ hscopes] at ih
    rcases ih hscopes with ⟨syms, hrest⟩
    exact ⟨.ofClass p.name p.fields :: syms, .cons hrest (declaration?_class ts hkind) rfl
      fun found => Or.inl⟩
  | @varDecl p ts _ _ _ type _ _ hkind _ _ ih =>
    rcases ih hscopes with ⟨syms, hrest⟩
    exact ⟨globalSymbol p type :: syms, .cons hrest (declaration?_variable ts hkind) rfl
      fun found => Or.inl⟩
  | other hkind _ ih =>
    rcases ih hscopes with ⟨syms, hrest⟩
    exact ⟨syms, hrest.skip (declaration?_other _ hkind)⟩

/-- A stage between two functions: names stand for what the top level declares. -/
structure Complete (base : List Symbol) (st : Stage) : Prop where
  globals : st.2.globals = base
  scopes : st.2.scopes = []

theorem Functions.complete {base : List Symbol} (h : Functions userMain ts st fs st')
    (hst : Complete base st) : Complete base st' := by
  induction h with
  | nil => exact hst
  | function _ hdefines _ ih =>
    obtain ⟨houter, hglobals⟩ := hdefines.outside hst.scopes
    exact ih ⟨hglobals.trans hst.globals, houter⟩
  | other _ _ ih => exact ih hst

section Introduced

variable (h : Introduced "$fn_" "$g_" Output.withSymbol ts userMain syms
  ({}, { target := target }) st')

include h

theorem introduced_output : st'.1 = { globals := syms.flatMap symbolCells } :=
  h.output.trans (foldl_withSymbol _ _)

theorem introduced_complete : Complete syms.reverse st' where
  globals := by
    rw [h.context]
    exact append_nil _
  scopes := by rw [h.context]

end Introduced

end Modules

end Codegen.Wasm
