import Codegen.Proofs.Arm64.Branches
import Codegen.Proofs.Arm64.Symbols
import Codegen.Proofs.Scoping

/-!
# Initializers in AArch64 Entries

The code of a variable at the top level stands in the entry and ends by a store. What it stores
to is looked up by name like any other variable, in the scope of the entry first. That scope is
empty at first, so the store goes to the storage of the variable if and only if no statement
before has left the name there. Otherwise it goes to a slot of the frame, and the storage that
functions read keeps its zero.
-/

namespace Codegen.Arm64

open Context List

variable {flavor : Flavor} {st st' : Stage} {c : Code} {ts us : List Tree} {steps : List Step}
  {p : Payload}

def Task.leftover : Task → List Bytes
  | .stmt s => s.leftover
  | .stmts ts => ts.flatMap Term.leftover
  | .chain _ parts => Term.leftoverChain parts

/-- What statements leave in the innermost scope. -/
theorem Executes.gains {task : Task} (h : Executes flavor task st c steps st') :
    Gains task.leftover st.2.scopes st'.2.scopes := by
  induction h with
  | expression h | assign h | ret h => exact .of_eq h.kept.scopes
  | block _ hscopes ih => exact ih.enclosed hscopes
  | declare _ h => exact (Gains.declaring _ _ _ _).after h.kept.scopes
  | declareZero => exact .declaring _ _ _ _
  | cond _ _ ih => exact ih
  | whileLoop _ _ htest _ hstmt _ _ ih =>
    rw [Task.leftover, Stmt.leftover, Stmt.leftover_of_stmt? hstmt]
    exact ih.after htest.kept.scopes
  | forRange _ hfirst hlast hsym hctx3 _ _ _ _ _ _ _ hscopes ih =>
    -- The counter and what the body leaves are in the scope of the loop.
    have hcounter := Gains.declareHere hctx3 (congrArg Symbol.global hsym)
    exact ((hcounter.after (hfirst.kept.trans hlast.kept).scopes).trans ih).enclosed hscopes
  | retZero | jump | jumpOutside | refused => exact .of_eq rfl
  | classDecl => exact .ofClass _ _ _
  | nil | chainNil => exact .refl _
  | cons hstmt _ _ ih1 ih2 =>
    rw [Task.leftover, flatMap_cons, Stmt.leftover_of_stmt? hstmt]
    exact ih1.trans ih2
  | chainLast hstmt _ ih =>
    rw [Task.leftover, Term.leftoverChain, Stmt.leftover_of_stmt? hstmt]
    exact ih
  | chainLink _ htest hstmt _ _ ih1 ih2 =>
    rw [Task.leftover, Term.leftoverChain, Stmt.leftover_of_stmt? hstmt]
    exact (ih1.after htest.kept.scopes).trans ih2

/-- The same for the statements of the entry. -/
theorem Enters.gains (h : Enters flavor ts st c steps st') :
    Gains (ts.flatMap Tree.leftover) st.2.scopes st'.2.scopes := by
  induction h with
  | nil => exact .refl _
  | declared hkind _ ih =>
    rw [flatMap_cons, Tree.leftover_declaration]
    · exact ih
    · rcases hkind with h | h <;> rw [h] <;> rfl
  | varInit hkind _ h _ ih =>
    rw [flatMap_cons, Tree.leftover_declaration _ (by rw [hkind]; rfl)]
    exact ih.after h.kept.scopes
  | varZero hkind _ _ ih =>
    rw [flatMap_cons, Tree.leftover_declaration _ (by rw [hkind]; rfl)]
    exact ih
  | stmt hkind hstmt h _ ih =>
    rw [flatMap_cons, Tree.leftover_statement _ hkind hstmt]
    exact h.gains.trans ih

theorem Enters.append (h : Enters flavor (ts ++ us) st c steps st') :
    ∃ a steps1 st1 b steps2, c = a ++ b ∧ Enters flavor ts st a steps1 st1 ∧
      Enters flavor us st1 b steps2 st' := by
  induction ts generalizing st c steps with
  | nil => exact ⟨[], [], st, c, steps, rfl, .nil, h⟩
  | cons _ _ ih =>
    cases h with obtain ⟨a, _, _, b, _, rfl, hfirst, hlast⟩ := ih ‹_›
    | declared hkind hrest =>
      exact ⟨a, _, _, b, _, rfl, .declared hkind hfirst, hlast⟩
    | varInit hkind hsym hinit hrest =>
      exact ⟨_, _, _, b, _, (append_assoc ..).symm, .varInit hkind hsym hinit hfirst, hlast⟩
    | varZero hkind hsym hrest =>
      exact ⟨_, _, _, b, _, (append_assoc ..).symm, .varZero hkind hsym hfirst, hlast⟩
    | stmt hkind hstmt hexec hrest =>
      exact ⟨_, _, _, b, _, (append_assoc ..).symm, .stmt hkind hstmt hexec hfirst, hlast⟩

theorem Enters.variable {p : Payload} {us : List Tree} {steps : List Step}
    (h : Enters flavor [.node p us] st c steps st') (hkind : p.kind = .varDecl) :
    ∃ init sym, c = init ++ store sym ∧ st.2.lookup? p.name = some sym := by
  cases h with
  | declared hother =>
    rw [hkind] at hother
    rcases hother with h | h <;> cases h
  | varInit _ hsym _ hrest =>
    cases hrest with
    | nil => exact ⟨_, _, append_nil _, hsym⟩
  | varZero _ hsym hrest =>
    cases hrest with
    | nil => exact ⟨_, _, append_nil _, hsym⟩
  | stmt hother =>
    rw [hkind] at hother
    cases hother

theorem invariant_storage (flavor : Flavor) (a : Storage) :
    Invariant flavor fun st => a ∈ st.1.storage where
  touches h hst := h.grows.storage hst
  withCode _ hst := hst

/-- How a program comes about, with the code of one statement of its entry: the code of the
    statements before it is in front of it, and the code of those after it behind it. -/
inductive Isolates (flavor : Flavor) (root : Tree) (before : List Tree) (t : Tree)
    (after : List Tree) : List (Frame × Code) → Code → Stage → Prop where
  | mk {userMain st1 fs s ctx frame a steps1 st2 c steps2 st3 b steps3 st4 words ret st'}
      (hroot : root.statements = before ++ t :: after)
      (hintroduced : Introduces root.statements ({}, { target := target }) userMain st1)
      (hfunctions : Functions flavor root.statements st1 fs (s, ctx))
      (hbefore : Enters flavor before (s, ctx.beginning "main" .integer) a steps1 st2)
      (h : Enters flavor [t] st2 c steps2 st3) (hafter : Enters flavor after st3 b steps3 st4)
      (hentry : Entry flavor root userMain (s, ctx) frame
        (prologue "main" words ++ (a ++ (c ++ b)) ++ callMain userMain
          ++ (zero .scalar ++ epilogue ret)) st') :
      Isolates flavor root before t after
        (fs ++ [(frame, prologue "main" words ++ (a ++ (c ++ b)) ++ callMain userMain
          ++ (zero .scalar ++ epilogue ret))]) c st'

section Programs

variable {root t : Tree} {before after : List Tree} {fs : List (Frame × Code)}
  {userMain : Option Symbol} {sym : Symbol}

theorem Generates.isolates (h : Generates flavor root fs st)
    (hroot : root.statements = before ++ t :: after) :
    ∃ c, Isolates flavor root before t after fs c st := by
  cases h with
  | mk hintroduced hfunctions hentry =>
    have hrun := hentry
    cases hentry with
    | mk _ hbody _ _ _ hwhole =>
      subst hwhole
      rw [hroot] at hbody
      rcases hbody.append with ⟨a, _, _, _, _, rfl, hbefore, hrest⟩
      rw [← singleton_append] at hrest
      rcases hrest.append with ⟨c, _, _, b, _, rfl, ht, hafter⟩
      exact ⟨c, .mk hroot hintroduced hfunctions hbefore ht hafter hrun⟩

theorem store_global (h : sym.global = true) :
    ∃ i, (∀ r a, i ≠ .stur r a) ∧
      store sym = code [.adrp x9 sym.storage, .addPageOffset x9 x9 sym.storage, i] := by
  unfold store
  rw [h]
  cases sym.type.rep <;> exact ⟨_, fun _ _ => Instr.noConfusion, rfl⟩

theorem store_local (h : sym.global = false) : ∃ a r slot, store sym = a ++ storeSlot r slot := by
  unfold store
  rw [h]
  cases sym.type.rep with
  | scalar => exact ⟨[], _, _, rfl⟩
  | fat => exact ⟨_, _, _, rfl⟩

/-- Stores to storage and to slots end differently: only the address of a symbol is loaded by an
    offset in its page. -/
theorem append_store_ne {own : Symbol} (hown : own.global = true) (hsym : sym.global = false)
    (a b : Code) : a ++ store own ≠ b ++ store sym := by
  rcases store_global hown with ⟨i, hfar, hi⟩
  rcases store_local hsym with ⟨z, r, slot, hslot⟩
  intro h
  rw [hi, hslot] at h
  -- The last line is not enough, since a slot that is far away is stored to by its address too.
  have hlast := congrArg (fun c => c.reverse.take 2) h
  unfold storeSlot slotAddress at hlast
  dsimp only at hlast
  split_ifs at hlast <;> simp [code, hfar] at hlast

/-- Where the store of a variable goes: to its own storage if and only if no statement before
    has left its name in the scope of the entry, and otherwise to a slot. -/
theorem Isolates.stores (h : Isolates flavor root before (.node p us) after fs c st)
    (hkind : p.kind = .varDecl) (hnodup : root.declaredNames.Nodup) :
    ∃ type, ⟨globalStorage p, type.rep.words * 8⟩ ∈ st.1.storage ∧
      ((∃ init, c = init ++ store (.staticVar p.name type (globalStorage p))) ↔
        p.name ∉ before.flatMap Tree.leftover) ∧
      (p.name ∈ before.flatMap Tree.leftover →
        ∃ init sym, sym.global = false ∧ c = init ++ store sym) := by
  cases h with
  | @mk _ _ _ _ _ _ _ _ st2 _ _ _ _ _ _ _ _ _ hroot hintroduced hfunctions hbefore h _ hentry =>
    have hmem : .node p us ∈ root.statements := by
      rw [hroot]
      exact mem_append_right _ mem_cons_self
    rcases hintroduced.introduced rfl with ⟨syms, hsyms⟩
    rcases hsyms.roster.exists_variable hmem hkind with ⟨type, hown⟩
    have hcomplete := hfunctions.complete (introduced_complete hsyms)
    have hgains : Gains (before.flatMap Tree.leftover) [[]] st2.2.scopes :=
      hbefore.gains.after (congrArg (cons []) hcomplete.scopes)
    have hglobals : st2.2.globals = syms.reverse :=
      (hbefore.advances.globals (cons_ne_nil _ _)).trans hcomplete.globals
    have hkept := (invariant_storage flavor ⟨globalStorage p, type.rep.words * 8⟩).entry hentry
      ((invariant_storage flavor _).functions hfunctions ?_)
    · rcases h.variable hkind with ⟨init, sym, rfl, hsym⟩
      exact ⟨type, hkept,
        hgains.stores append_store_ne hsyms.roster hnodup hglobals hown rfl hsym⟩
    · rw [introduced_output hsyms]
      exact mem_flatMap.mpr ⟨_, hown, mem_singleton.mpr rfl⟩

end Programs

end Codegen.Arm64
