import Codegen.Proofs.Scoping
import Codegen.Proofs.Wasm.Symbols

/-!
# Initializers in WebAssembly Entries

The same as for AArch64 code: the code of a variable at the top level ends by setting what its
name stands for in the entry. These are the globals of the variable, unless a statement before
has left the name in the scope of the entry, and then they are locals of the entry.
-/

namespace Codegen.Wasm

open Context List

variable {scratch : Nat} {st st' : Stage} {c : Code} {ts us : List Tree} {steps : List Step}
  {p : Payload}

def Task.leftover : Task → List Bytes
  | .stmt s => s.leftover
  | .stmts ts => ts.flatMap Term.leftover
  | .chain parts => Term.leftoverChain parts

/-- What statements leave in the innermost scope. -/
theorem Executes.gains {task : Task} (h : Executes scratch task st c steps st') :
    Gains task.leftover st.2.scopes st'.2.scopes := by
  induction h with
  | expression h | assign h | ret _ h | retEffect _ h => exact .of_eq h.kept.scopes
  | block _ hscopes ih => exact ih.enclosed hscopes
  | declare _ h => exact .after (.declaring (Context.reporting _ _) _ _ _) h.kept.scopes
  | declareZero => exact .declaring _ _ _ _
  | cond _ ih => exact ih
  | whileLoop _ _ htest _ hstmt _ _ ih =>
    rw [Task.leftover, Stmt.leftover, Stmt.leftover_of_stmt? hstmt]
    exact ih.after htest.kept.scopes
  | forRange _ hfirst _ hlast _ hsym hctx3 _ _ _ _ _ _ _ hscopes ih =>
    -- The counter and what the body leaves are in the scope of the loop.
    have hcounter := Gains.declareHere hctx3 (congrArg Symbol.global hsym)
    have hkept := (hfirst.kept.trans .reporting).trans hlast.kept
    exact ((hcounter.after hkept.scopes).trans ih).enclosed hscopes
  | retZero | jump | jumpOutside | refused => exact .of_eq rfl
  | classDecl => exact .ofClass _ _ _
  | nil | chainNil => exact .refl _
  | cons hstmt _ _ ih1 ih2 =>
    rw [Task.leftover, flatMap_cons, Stmt.leftover_of_stmt? hstmt]
    exact ih1.trans ih2
  | chainLast hstmt _ ih =>
    rw [Task.leftover, Term.leftoverChain, Stmt.leftover_of_stmt? hstmt]
    exact ih
  | chainEnd htest hstmt _ ih =>
    rw [Task.leftover, Term.leftoverChain, Stmt.leftover_of_stmt? hstmt, Term.leftoverChain,
      append_nil]
    exact ih.after htest.kept.scopes
  | chainLink htest hstmt _ _ ih1 ih2 =>
    rw [Task.leftover, Term.leftoverChain, Stmt.leftover_of_stmt? hstmt]
    exact (ih1.after htest.kept.scopes).trans ih2

/-- The same for the statements of the entry. -/
theorem Enters.gains (h : Enters scratch ts st c steps st') :
    Gains (ts.flatMap Tree.leftover) st.2.scopes st'.2.scopes := by
  induction h with
  | nil => exact .refl _
  | declared hkind _ ih =>
    rw [flatMap_cons, Tree.leftover_declaration]
    · exact ih
    · rcases hkind with h | h <;> rw [h] <;> rfl
  | varInit hkind _ h _ _ ih =>
    rw [flatMap_cons, Tree.leftover_declaration _ (by rw [hkind]; rfl)]
    exact ih.after h.kept.scopes
  | varZero hkind _ _ ih =>
    rw [flatMap_cons, Tree.leftover_declaration _ (by rw [hkind]; rfl)]
    exact ih
  | stmt hkind hstmt h _ ih =>
    rw [flatMap_cons, Tree.leftover_statement _ hkind hstmt]
    exact h.gains.trans ih

theorem Enters.append (h : Enters scratch (ts ++ us) st c steps st') :
    ∃ a steps1 st1 b steps2, c = a ++ b ∧ Enters scratch ts st a steps1 st1 ∧
      Enters scratch us st1 b steps2 st' := by
  induction ts generalizing st c steps with
  | nil => exact ⟨[], [], st, c, steps, rfl, .nil, h⟩
  | cons _ _ ih =>
    cases h with obtain ⟨a, _, _, b, _, rfl, hfirst, hlast⟩ := ih ‹_›
    | declared hkind hrest =>
      exact ⟨a, _, _, b, _, rfl, .declared hkind hfirst, hlast⟩
    | varInit hkind hsym hinit hv hrest =>
      exact ⟨_, _, _, b, _, (append_assoc ..).symm, .varInit hkind hsym hinit hv hfirst, hlast⟩
    | varZero hkind hsym hrest =>
      exact ⟨_, _, _, b, _, (append_assoc ..).symm, .varZero hkind hsym hfirst, hlast⟩
    | stmt hkind hstmt hexec hrest =>
      exact ⟨_, _, _, b, _, (append_assoc ..).symm, .stmt hkind hstmt hexec hfirst, hlast⟩

theorem Enters.variable {p : Payload} {us : List Tree} {steps : List Step}
    (h : Enters scratch [.node p us] st c steps st') (hkind : p.kind = .varDecl) :
    ∃ init sym, c = init ++ store sym ∧ st.2.lookup? p.name = some sym := by
  cases h with
  | declared hother =>
    rw [hkind] at hother
    rcases hother with h | h <;> cases h
  | varInit _ hsym _ _ hrest =>
    cases hrest with
    | nil => exact ⟨_, _, append_nil _, hsym⟩
  | varZero _ hsym hrest =>
    cases hrest with
    | nil => exact ⟨_, _, append_nil _, hsym⟩
  | stmt hother =>
    rw [hkind] at hother
    cases hother

/-- How a module comes about, with the code of one statement of its entry: the code of the
    statements before it is in front of it, and the code of those after it behind it. -/
inductive Isolates (root : Tree) (before : List Tree) (t : Tree) (after : List Tree) :
    List (Frame × Func) → Code → Stage → Prop where
  | mk {userMain st1 fs s ctx fn frame f a steps1 st2 c steps2 st3 b steps3 st4 st'}
      (hroot : root.statements = before ++ t :: after)
      (hintroduced : Introduces root.statements ({}, { target := target }) userMain st1)
      (hfunctions : Functions userMain root.statements st1 fs (s, ctx))
      (hfn : (ctx.beginning "main" .void).function = some fn)
      (hbefore : Enters fn.nextSlot before (s, (ctx.beginning "main" .void).taking fn 1) a steps1
        st2)
      (h : Enters fn.nextSlot [t] st2 c steps2 st3)
      (hafter : Enters fn.nextSlot after st3 b steps3 st4)
      (hbody : f.body = a ++ (c ++ b) ++ callMain userMain)
      (hentry : Entry root.statements userMain (s, ctx) frame f st') :
      Isolates root before t after (fs ++ [(frame, f)]) c st'

section Modules

variable {root t : Tree} {before after : List Tree} {fs : List (Frame × Func)}

theorem Generates.isolates (h : Generates root fs st)
    (hroot : root.statements = before ++ t :: after) :
    ∃ c, Isolates root before t after fs c st := by
  cases h with
  | mk hintroduced hfunctions hentry =>
    have hrun := hentry
    cases hentry with
    | mk hfn1 hbody _ _ hf =>
      rw [hroot] at hbody
      rcases hbody.append with ⟨a, _, _, _, _, rfl, hbefore, hrest⟩
      rw [← singleton_append] at hrest
      rcases hrest.append with ⟨c, _, _, b, _, rfl, ht, hafter⟩
      exact ⟨c, .mk hroot hintroduced hfunctions hfn1 hbefore ht hafter (by rw [hf]) hrun⟩

/-- Stores to globals and to locals end differently. -/
theorem append_store_ne {own sym : Symbol} (hown : own.global = true) (hsym : sym.global = false)
    (a b : Code) : a ++ store own ≠ b ++ store sym := by
  have hglobal : (a ++ store own).getLast? = some (.globalSet own.storage) := by
    unfold store
    rw [hown]
    cases own.type.rep <;> simp
  have hlocal : (b ++ store sym).getLast? = some (.localSet sym.slot.toNat) := by
    unfold store
    rw [hsym]
    cases sym.type.rep <;> simp
  intro h
  rw [h, hlocal] at hglobal
  cases hglobal

/-- Where the store of a variable goes: to its own globals if and only if no statement before
    has left its name in the scope of the entry, and otherwise to locals. -/
theorem Isolates.stores (h : Isolates root before (.node p us) after fs c st)
    (hkind : p.kind = .varDecl) (hnodup : root.declaredNames.Nodup) :
    ∃ type, globalCells p type ⊆ st.1.globals ∧
      ((∃ init, c = init ++ store (globalSymbol p type)) ↔
        p.name ∉ before.flatMap Tree.leftover) ∧
      (p.name ∈ before.flatMap Tree.leftover →
        ∃ init sym, sym.global = false ∧ c = init ++ store sym) := by
  cases h with
  | @mk _ _ _ _ _ _ _ _ _ _ st2 _ _ _ _ _ _ _ hroot hintroduced hfunctions _ hbefore h _ _ hentry =>
    have hmem : .node p us ∈ root.statements := by
      rw [hroot]
      exact mem_append_right _ mem_cons_self
    rcases hintroduced.introduced rfl with ⟨syms, hsyms⟩
    rcases hsyms.roster.exists_variable hmem hkind with ⟨type, hown⟩
    have hcells : globalCells p type ⊆ st.1.globals := by
      rw [(hfunctions.adds.append hentry.adds).globals, introduced_output hsyms]
      exact fun cell hcell => mem_flatMap.mpr ⟨_, hown, hcell⟩
    have hcomplete := hfunctions.complete (introduced_complete hsyms)
    have hgains : Gains (before.flatMap Tree.leftover) [[]] st2.2.scopes :=
      hbefore.gains.after (congrArg (cons []) hcomplete.scopes)
    have hglobals : st2.2.globals = syms.reverse :=
      (hbefore.advances.globals (cons_ne_nil _ _)).trans hcomplete.globals
    rcases h.variable hkind with ⟨init, sym, rfl, hsym⟩
    exact ⟨type, hcells, hgains.stores append_store_ne hsyms.roster hnodup hglobals hown rfl hsym⟩

end Modules

end Codegen.Wasm
