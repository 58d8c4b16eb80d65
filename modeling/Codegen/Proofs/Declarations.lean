import Codegen.Proofs.Mangling
import Codegen.Proofs.Steps
import Mathlib.Data.List.Nodup

/-!
# What the Top Level Declares

Both generators begin by declaring what stands at the top level, each name with the kind of
thing it stands for. A `Roster` has these symbols in the order of their statements. Functions and
variables have storage whose name is the mangled name behind a tag of the generator, which
differs for the two kinds, so with names that are UTF-8 and all different every symbol is found
under its name and has storage of its own.
-/

namespace Codegen

open List

namespace Tree

/-- The name that a statement at the top level declares, and the kind of thing that it is. -/
def declaration? : Tree → Option (Bytes × SymbolKind)
  | .missing => none
  | .node p _ =>
    match p.kind with
    | .funcDecl => some (p.name, .function)
    | .varDecl => some (p.name, .variable)
    | .classDecl => some (p.name, .classType)
    | _ => none

/-- Names and kinds, statement by statement. -/
def declarations (ts : List Tree) : List (Bytes × SymbolKind) := ts.filterMap declaration?

/-- The names of one kind. -/
def namesOf (kind : SymbolKind) (ts : List Tree) : List Bytes :=
  ((declarations ts).filter fun d => d.2 = kind).map Prod.fst

/-- The names of the functions, variables and classes of a program. -/
def declaredNames (root : Tree) : List Bytes := (declarations root.statements).map Prod.fst

section Statements

variable {p : Payload} (ts : List Tree)

theorem declaration?_function (h : p.kind = .funcDecl) :
    declaration? (.node p ts) = some (p.name, .function) := by
  simp [declaration?, h]

theorem declaration?_variable (h : p.kind = .varDecl) :
    declaration? (.node p ts) = some (p.name, .variable) := by
  simp [declaration?, h]

theorem declaration?_class (h : p.kind = .classDecl) :
    declaration? (.node p ts) = some (p.name, .classType) := by
  simp [declaration?, h]

theorem declaration?_other (h : p.kind.isDeclaration = false) :
    declaration? (.node p ts) = none := by
  cases hkind : p.kind with
  | funcDecl | varDecl | classDecl =>
    rw [hkind] at h
    cases h
  | _ => simp [declaration?, hkind]

end Statements

section Names

variable {kind : SymbolKind} {t : Tree} {ts : List Tree} {name : Bytes}

theorem namesOf_cons (kind : SymbolKind) (t : Tree) (ts : List Tree) :
    namesOf kind (t :: ts) = namesOf kind [t] ++ namesOf kind ts := by
  unfold namesOf declarations
  rw [← map_append, ← filter_append, ← filterMap_append]
  rfl

theorem namesOf_singleton (h : t.declaration? = some (name, kind)) :
    namesOf kind [t] = [name] := by
  simp [namesOf, declarations, h]

theorem namesOf_singleton_ne {other : SymbolKind} (h : t.declaration? = some (name, other))
    (hne : other ≠ kind) : namesOf kind [t] = [] := by
  simp [namesOf, declarations, h, hne]

theorem namesOf_singleton_none (h : t.declaration? = none) : namesOf kind [t] = [] := by
  simp [namesOf, declarations, h]

theorem namesOf_function_ne {p : Payload} (h : p.kind ≠ .funcDecl) (ts : List Tree) :
    namesOf .function [.node p ts] = [] := by
  cases hkind : p.kind with
  | funcDecl => exact absurd hkind h
  | varDecl => exact namesOf_singleton_ne (declaration?_variable ts hkind) (by decide)
  | classDecl => exact namesOf_singleton_ne (declaration?_class ts hkind) (by decide)
  | _ => exact namesOf_singleton_none (declaration?_other ts (by rw [hkind]; rfl))

theorem mem_namesOf : name ∈ namesOf kind ts ↔ (name, kind) ∈ declarations ts := by
  simp [namesOf]

end Names

end Tree

/-- Storage named after the symbol. -/
def Symbol.StoredUnder (fns vars : Bytes) (sym : Symbol) : Prop :=
  match sym.kind with
  | .function => sym.storage = fns ++ mangle sym.name
  | .variable => sym = .staticVar sym.name sym.type (vars ++ mangle sym.name)
  | .classType => sym.isStatic = false

namespace Symbol.StoredUnder

variable {fns vars : Bytes} {sym : Symbol} (h : sym.StoredUnder fns vars)

include h

theorem eq_staticVar (hkind : sym.kind = .variable) :
    sym = .staticVar sym.name sym.type (vars ++ mangle sym.name) := by
  rw [StoredUnder, hkind] at h
  exact h

end Symbol.StoredUnder

/-- The symbols of the top level, in the order of the statements that declare them. -/
structure Roster (fns vars : Bytes) (ts : List Tree) (syms : List Symbol) : Prop where
  declared : syms.map (fun sym => (sym.name, sym.kind)) = Tree.declarations ts
  stored : ∀ sym ∈ syms, sym.StoredUnder fns vars

namespace Roster

variable {fns vars : Bytes} {t : Tree} {ts : List Tree} {syms : List Symbol} {sym sym' : Symbol}

theorem nil : Roster fns vars [] [] := ⟨rfl, forall_mem_nil _⟩

theorem cons (h : Roster fns vars ts syms) (hdecl : t.declaration? = some (sym.name, sym.kind))
    (hsym : sym.StoredUnder fns vars) : Roster fns vars (t :: ts) (sym :: syms) where
  declared := by
    rw [Tree.declarations, filterMap_cons_some hdecl, map_cons, h.declared]
    rfl
  stored := forall_mem_cons.mpr ⟨hsym, h.stored⟩

theorem skip (h : Roster fns vars ts syms) (hdecl : t.declaration? = none) :
    Roster fns vars (t :: ts) syms where
  declared := by
    rw [Tree.declarations, filterMap_cons_none hdecl]
    exact h.declared
  stored := h.stored

theorem exists_of_mem_namesOf (h : Roster fns vars ts syms) {kind : SymbolKind} {name : Bytes}
    (hname : name ∈ Tree.namesOf kind ts) : ∃ sym ∈ syms, sym.name = name ∧ sym.kind = kind := by
  rw [Tree.mem_namesOf, ← h.declared] at hname
  rcases mem_map.mp hname with ⟨sym, hsym, heq⟩
  obtain ⟨hname, hkind⟩ := Prod.mk.inj heq
  exact ⟨sym, hsym, hname, hkind⟩

theorem exists_variable (h : Roster fns vars ts syms) {p : Payload} {us : List Tree}
    (ht : .node p us ∈ ts) (hkind : p.kind = .varDecl) :
    ∃ type, .staticVar p.name type (vars ++ mangle p.name) ∈ syms := by
  have hdecl := mem_filterMap.mpr ⟨_, ht, Tree.declaration?_variable us hkind⟩
  rcases h.exists_of_mem_namesOf (Tree.mem_namesOf.mpr hdecl) with ⟨sym, hsym, hname, hkind⟩
  rw [(h.stored sym hsym).eq_staticVar hkind, hname] at hsym
  exact ⟨sym.type, hsym⟩

section Distinct

variable (hnodup : ((Tree.declarations ts).map Prod.fst).Nodup)

include hnodup

/-- Symbols are told apart by their names. -/
theorem eq_of_name (h : Roster fns vars ts syms) (hsym : sym ∈ syms) (hsym' : sym' ∈ syms)
    (hname : sym.name = sym'.name) : sym = sym' := by
  rw [← h.declared, map_map] at hnodup
  exact inj_on_of_nodup_map hnodup hsym hsym' hname

end Distinct

end Roster

/-- What declarations do to an output and a context: the output is extended for each symbol, the
    symbols are added to the global scope, and the program's own entry, if it has one, is one of
    its functions. -/
structure Introduced {Output : Type} (fns vars : Bytes) (extend : Output → Symbol → Output)
    (ts : List Tree) (userMain : Option Symbol) (syms : List Symbol)
    (st st' : Output × Context) : Prop where
  roster : Roster fns vars ts syms
  output : st'.1 = syms.foldl extend st.1
  context : st'.2 = { st.2 with globals := syms.reverse ++ st.2.globals }
  main : ∀ sym, userMain = some sym → sym ∈ syms ∧ sym.kind = .function

namespace Introduced

variable {Output : Type} {fns vars : Bytes} {extend : Output → Symbol → Output} {t : Tree}
  {ts : List Tree} {userMain later : Option Symbol} {syms : List Symbol} {sym : Symbol}
  {st st' : Output × Context} {s : Output} {ctx : Context}

theorem nil : Introduced fns vars extend [] none [] st st :=
  ⟨.nil, rfl, rfl, fun _ h => by cases h⟩

theorem cons (h : Introduced fns vars extend ts later syms
      (extend s sym, { ctx with globals := sym :: ctx.globals }) st')
    (hdecl : t.declaration? = some (sym.name, sym.kind)) (hstored : sym.StoredUnder fns vars)
    (hmain : ∀ found, userMain = some found →
      later = some found ∨ found = sym ∧ sym.kind = .function) :
    Introduced fns vars extend (t :: ts) userMain (sym :: syms) (s, ctx) st' where
  roster := h.roster.cons hdecl hstored
  output := h.output
  context := by
    rw [h.context, reverse_cons, append_assoc]
    rfl
  main found hfound := by
    rcases hmain found hfound with hlater | ⟨rfl, hkind⟩
    · obtain ⟨hmem, hkind⟩ := h.main found hlater
      exact ⟨mem_cons_of_mem _ hmem, hkind⟩
    · exact ⟨mem_cons_self, hkind⟩

theorem skip (h : Introduced fns vars extend ts userMain syms st st')
    (hdecl : t.declaration? = none) :
    Introduced fns vars extend (t :: ts) userMain syms st st' :=
  ⟨h.roster.skip hdecl, h.output, h.context, h.main⟩

theorem slotless {target : Bytes}
    (h : Introduced fns vars extend ts userMain syms (s, { target := target }) st') :
    st'.2.scopes = [] ∧ st'.2.Scoped (Symbol.Below 0) := by
  rw [h.context]
  refine ⟨rfl, forall_mem_singleton.mpr fun sym hsym hkind hglobal => ?_⟩
  rw [append_nil, List.mem_reverse] at hsym
  rw [(h.roster.stored sym hsym).eq_staticVar hkind] at hglobal
  cases hglobal

end Introduced

end Codegen
