import Codegen.Proofs.Declarations

/-!
# Names That Outlive Their Statement

Blocks and counting loops have a scope of their own, which ends with them. Conditions and other
loops have none: where their body is a declaration and not a block, what it declares goes to the
scope around them and stays there. `Advances` says that a statement changes no scope but the
innermost; this says what it adds there.

In the entry this decides what a name of the top level stands for. The scope of the entry is
empty at first, so it hides the global scope exactly as far as the statements before have left
names in it.
-/

namespace Codegen

open List

mutual

/-- The names that a statement leaves in the scope around it. -/
def Term.leftover : Term → List Bytes
  | .node p parts =>
    match p.kind, parts with
    | .varDecl, _ | .classDecl, _ => [p.name]
    | .cond, parts => Term.leftoverChain parts
    | .whileLoop, _ :: body :: _ => body.leftover
    | _, _ => []
  | _ => []

def Term.leftoverChain : List Term → List Bytes
  | _ :: body :: rest => body.leftover ++ Term.leftoverChain rest
  | [body] => body.leftover
  | [] => []

end

/-- The names that a statement leaves in the scope around it. -/
def Stmt.leftover : Stmt → List Bytes
  | .declare name _ _ | .classDecl name _ => [name]
  | .cond parts => Term.leftoverChain parts
  | .whileLoop _ body => body.leftover
  | _ => []

/-- Statements leave what their terms leave. -/
theorem Stmt.leftover_of_stmt? {t : Term} {stmt : Stmt} (h : t.stmt? = some stmt) :
    t.leftover = stmt.leftover := by
  rcases t with ⟨p, parts⟩ | ⟨p, callee, args⟩ | _
  · unfold Term.stmt? at h
    unfold Term.leftover
    cases hkind : p.kind with
    | whileLoop =>
      rcases parts with _ | ⟨condition, _ | ⟨body, rest⟩⟩ <;>
        simp only [hkind, Option.some.injEq, reduceCtorEq] at h
      subst h
      rfl
    | forRange =>
      rcases parts with _ | ⟨first, _ | ⟨last, _ | ⟨body, rest⟩⟩⟩ <;>
        simp only [hkind, Option.some.injEq, reduceCtorEq] at h
      subst h
      rfl
    | _ =>
      simp only [hkind, Option.some.injEq] at h
      subst h
      rfl
  · cases h
    rfl
  · cases h

/-- The names that a statement at the top level leaves in the scope of the entry. Declarations
    there have been made before, in the global scope. -/
def Tree.leftover : Tree → List Bytes
  | .missing => []
  | .node p ts => if p.kind.isDeclaration then [] else (Term.ofTree (.node p ts)).leftover

section Statements

variable {p : Payload} (ts : List Tree)

theorem Tree.leftover_declaration (h : p.kind.isDeclaration = true) :
    Tree.leftover (.node p ts) = [] := if_pos h

theorem Tree.leftover_statement (h : p.kind.isDeclaration = false) {stmt : Stmt}
    (hstmt : (Term.ofTree (.node p ts)).stmt? = some stmt) :
    Tree.leftover (.node p ts) = stmt.leftover := by
  rw [Tree.leftover, if_neg (by rw [h]; exact Bool.false_ne_true), Stmt.leftover_of_stmt? hstmt]

end Statements

/-- The innermost scope has new symbols of these names, none of them global, and all is as it
    was in the scopes around it. -/
structure Gains (names : List Bytes) (scopes scopes' : List Scope) : Prop where
  inner : ∀ {scope outer}, scopes = scope :: outer → ∃ new : List Symbol,
    scopes' = (new ++ scope) :: outer ∧
      (∀ name, name ∈ new.map Symbol.name ↔ name ∈ names) ∧ ∀ sym ∈ new, sym.global = false

namespace Gains

variable {names names' : List Bytes} {scopes scopes1 scopes2 : List Scope}

theorem of_eq (h : scopes1 = scopes) : Gains [] scopes scopes1 where
  inner hscopes := ⟨[], h.trans hscopes, fun _ => Iff.rfl, forall_mem_nil _⟩

theorem refl (scopes : List Scope) : Gains [] scopes scopes := of_eq rfl

theorem trans (h : Gains names scopes scopes1) (h' : Gains names' scopes1 scopes2) :
    Gains (names ++ names') scopes scopes2 where
  inner hscopes := by
    rcases h.inner hscopes with ⟨new, hscopes1, hnames, hlocal⟩
    rcases h'.inner hscopes1 with ⟨new', hscopes2, hnames', hlocal'⟩
    refine ⟨new' ++ new, by rw [hscopes2, append_assoc], fun name => ?_, ?_⟩
    · rw [map_append, mem_append, mem_append, hnames, hnames', or_comm]
    · exact forall_mem_append.mpr ⟨hlocal', hlocal⟩

theorem after (h : Gains names scopes1 scopes2) (heq : scopes1 = scopes) :
    Gains names scopes scopes2 := (of_eq heq).trans h

theorem declareHere {ctx ctx' : Context} {sym : Symbol} (h : ctx' = ctx.declareHere sym)
    (hsym : sym.global = false) : Gains [sym.name] ctx.scopes ctx'.scopes where
  inner hscopes := by
    refine ⟨[sym], ?_, fun name => Iff.rfl, forall_mem_singleton.mpr hsym⟩
    rw [h, Context.declareHere, hscopes]
    rfl

theorem declaring (ctx : Context) (fn : FunctionState) (name : Bytes) (type : Ty) :
    Gains [name] ctx.scopes (ctx.declaring fn name type).scopes := by
  have hdeclared : ctx.declaring fn name type =
      (ctx.taking fn type.rep.words).declareHere (.localVar name type fn.nextSlot) := rfl
  exact declareHere hdeclared rfl

theorem ofClass (ctx : Context) (name : Bytes) (fields : List Param) :
    Gains [name] ctx.scopes (ctx.declareHere (.ofClass name fields)).scopes := by
  have hlocal : (Symbol.ofClass name fields).global = false := rfl
  exact declareHere rfl hlocal

theorem enclosed (h : Gains names ([] :: scopes) scopes1) {scope : Scope} {outer : List Scope}
    (hscopes : scopes1 = scope :: outer) : Gains [] scopes outer := by
  rcases h.inner rfl with ⟨new, hscopes1, -⟩
  exact of_eq (cons.inj (hscopes.symm.trans hscopes1)).2

section Lookup

variable {ctx : Context} {name : Bytes} {sym : Symbol} (h : Gains names [[]] ctx.scopes)

include h

theorem hidden (hname : name ∈ names) (hsym : ctx.lookup? name = some sym) :
    sym.global = false := by
  rcases h.inner rfl with ⟨new, hscopes, hnames, hlocal⟩
  rcases mem_map.mp ((hnames name).mpr hname) with ⟨left, hleft, hleftName⟩
  unfold Context.lookup? Scope.resolve? at hsym
  rw [hscopes, append_nil, cons_append, findSome?_cons] at hsym
  cases hfind : Scope.find? new name with
  | none =>
    have hnone := find?_eq_none.mp hfind left hleft
    exact absurd (beq_iff_eq.mpr hleftName) hnone
  | some found =>
    rw [hfind] at hsym
    obtain rfl := Option.some.inj hsym
    exact hlocal found (mem_of_find?_eq_some hfind)

theorem found (hname : name ∉ names) (hsym : ctx.lookup? name = some sym) :
    sym.name = name ∧ sym ∈ ctx.globals := by
  rcases h.inner rfl with ⟨new, hscopes, hnames, -⟩
  rcases Context.mem_of_lookup? hsym with ⟨hsymName, scope, hscope, hmem⟩
  refine ⟨hsymName, ?_⟩
  rw [hscopes, append_nil] at hscope
  rcases mem_cons.mp hscope with rfl | hscope
  · exact hmem
  · obtain rfl := mem_singleton.mp hscope
    exact absurd ((hnames name).mp (hsymName ▸ mem_map_of_mem hmem)) hname

/-- Code that stores under a name of the top level stores to what was declared under it, unless
    the name was left behind. -/
theorem stores {Instr : Type} {store : Symbol → List Instr} {init : List Instr}
    (hstore : ∀ {own sym : Symbol}, own.global = true → sym.global = false →
      ∀ a b, a ++ store own ≠ b ++ store sym)
    {fns vars : Bytes} {ts : List Tree} {syms : List Symbol} {own : Symbol}
    (hroster : Roster fns vars ts syms) (hnodup : ((Tree.declarations ts).map Prod.fst).Nodup)
    (hglobals : ctx.globals = syms.reverse) (hown : own ∈ syms) (hglobal : own.global = true)
    (hsym : ctx.lookup? own.name = some sym) :
    ((∃ other, init ++ store sym = other ++ store own) ↔ own.name ∉ names) ∧
      (own.name ∈ names →
        ∃ other found, found.global = false ∧ init ++ store sym = other ++ store found) := by
  by_cases hname : own.name ∈ names
  · have hlocal := h.hidden hname hsym
    refine ⟨iff_of_false ?_ (not_not_intro hname), fun _ => ⟨init, sym, hlocal, rfl⟩⟩
    rintro ⟨other, heq⟩
    exact hstore hglobal hlocal _ _ heq.symm
  · obtain ⟨hsymName, hmem⟩ := h.found hname hsym
    rw [hglobals, mem_reverse] at hmem
    rw [hroster.eq_of_name hnodup hmem hown hsymName]
    exact ⟨iff_of_true ⟨init, rfl⟩ hname, fun hmem => absurd hmem hname⟩

end Lookup

end Gains

end Codegen
