import Codegen.Proofs.Wasm.Evaluation

/-!
# What WebAssembly Code of Expressions Leaves Alone

An expression opens no scope, takes no slot and asks for no label. It adds nothing to the module
but the helper for truth values, which has then been asked for.
-/

namespace Codegen.Wasm

open Context

variable {scratch : Nat} {job : Job} {r : Lowered} {st st1 st' : Stage}

/-- The helper is there if and only if it was asked for. -/
def Equipped (st : Stage) : Prop :=
  printBoolName ∉ st.2.helpers ∧ st.1.helpers = [] ∨
    printBoolName ∈ st.2.helpers ∧ ∃ yes no, st.1.helpers = [printBool yes no]

/-- Evaluating adds no globals and no functions, and at most the helper. -/
structure Grows (st st' : Stage) : Prop where
  globals : st'.1.globals = st.1.globals
  funcs : st'.1.funcs = st.1.funcs
  helpers : st.2.helpers ⊆ st'.2.helpers
  equipped : Equipped st → Equipped st'

namespace Grows

variable {s : Output} {ctx ctx' : Context}

theorem of_helpers (h : ctx'.helpers = ctx.helpers) : Grows (s, ctx) (s, ctx') := by
  refine ⟨rfl, rfl, h ▸ List.Subset.refl _, fun hequipped => ?_⟩
  unfold Equipped at hequipped ⊢
  rw [h]
  exact hequipped

theorem refl (st : Stage) : Grows st st := of_helpers rfl

theorem trans (h : Grows st st1) (h' : Grows st1 st') : Grows st st' :=
  ⟨h'.globals.trans h.globals, h'.funcs.trans h.funcs, List.Subset.trans h.helpers h'.helpers,
    fun hequipped => h'.equipped (h.equipped hequipped)⟩

theorem after (h : Grows (s, ctx') st') (hhelpers : ctx'.helpers = ctx.helpers) :
    Grows (s, ctx) st' := (of_helpers hhelpers).trans h

theorem reporting {issues : List Issue} :
    Grows (s, ctx) (s, ctx.reporting issues) := of_helpers rfl

theorem data {data : DataSegment} :
    Grows (s, ctx) (s, { ctx with data }) := of_helpers rfl

end Grows

/-- Scopes, slots and labels are as they were, and a module has at most grown. -/
structure Later (st st' : Stage) : Prop where
  kept : st.2.Kept st'.2
  grows : Grows st st'

namespace Later

theorem refl (st : Stage) : Later st st := ⟨.refl _, .refl _⟩

theorem trans (h : Later st st1) (h' : Later st1 st') : Later st st' :=
  ⟨h.kept.trans h'.kept, h.grows.trans h'.grows⟩

theorem reporting {s : Output} {ctx : Context} {issues : List Issue} :
    Later (s, ctx) (s, ctx.reporting issues) := ⟨.reporting, .reporting⟩

theorem data {s : Output} {ctx : Context} {data : DataSegment} :
    Later (s, ctx) (s, { ctx with data }) := ⟨.data, .data⟩

end Later

theorem Requests.later (h : Requests st st') : Later st st' ∧ printBoolName ∈ st'.2.helpers := by
  cases h with
  | old h => exact ⟨.refl _, h⟩
  | @new _ _ yes no _ _ h =>
    refine ⟨⟨Kept.claiming.trans .data, rfl, rfl, List.subset_cons_self _ _,
      fun hequipped => Or.inr ?_⟩, List.mem_cons_self⟩
    refine ⟨List.mem_cons_self, yes, no, ?_⟩
    rcases hequipped with ⟨-, hnone⟩ | ⟨hclaimed, -⟩
    · exact congrArg (· ++ [printBool yes no]) hnone
    · exact absurd hclaimed h

/-- Evaluating an expression leaves scopes, slots and labels as they are, and adds the helper at
    most. -/
theorem Produces.later (h : Produces scratch job st r st') : Later st st' := by
  induction h with
  | printCall _ ih | length _ _ _ ih | call _ _ _ _ _ _ ih | unary _ _ _ _ ih | assign _ _ ih
  | printText _ _ _ _ ih | printInteger _ _ _ ih => exact ih
  | lengthRefused | lengthArity | unresolved | callArity | unknown | binaryRefused | unaryRefused
  | other | assignUnresolved | assignRefused => exact .reporting
  | literal | ident | passNone | printsNone | elementsNone => exact .refl _
  | string | printLiteral => exact .data
  | binary _ _ _ _ _ _ ih1 ih2 | index _ _ _ ih1 ih2 | prints _ _ ih1 ih2
  | elementScalar _ _ _ ih1 ih2 => exact ih1.trans ih2
  | array _ _ _ ih => exact Later.data.trans ih
  | pass _ _ _ ih1 ih2 | elementFat _ _ _ _ ih1 ih2 =>
    exact (ih1.trans .reporting).trans ih2
  | printBoolean _ _ hhelper ih => exact ih.trans hhelper.later.1
  | printDecimal _ _ ih | printRefused _ _ _ ih => exact Later.reporting.trans ih
  | assignVariable _ _ _ _ ih => exact ih.trans .reporting
  | assignElement _ _ _ _ _ ih1 ih2 ih3 =>
    exact ((ih1.trans ih2).trans ih3).trans .reporting

theorem Produces.kept (h : Produces scratch job st r st') : st.2.Kept st'.2 := h.later.kept

theorem Produces.grows (h : Produces scratch job st r st') : Grows st st' := h.later.grows

/-- Every name stands for what it stood for at the start. -/
theorem Produces.reads (h : Produces scratch job st r st') :
    ∀ read ∈ r.reads, read = st.2.reading read.name := by
  have hnil (ctx : Context) : ∀ read ∈ ([] : List Read), read = ctx.reading read.name :=
    List.forall_mem_nil _
  induction h with
  | printCall _ ih | length _ _ _ ih | unary _ _ _ _ ih | assign _ _ ih | array _ _ _ ih
  | printText _ _ _ _ ih | printBoolean _ _ _ ih | printDecimal _ _ ih | printRefused _ _ _ ih
  | printInteger _ _ _ ih => exact ih
  | lengthRefused | lengthArity | literal | string | binaryRefused | unaryRefused | other
  | passNone | printLiteral | printsNone | elementsNone | assignRefused => exact hnil _
  | unresolved | callArity | ident | unknown | assignUnresolved => exact forall_reads_singleton _ _
  | call _ _ _ _ _ _ ih | assignVariable _ _ _ _ ih =>
    exact forall_reads_append (.refl _) (forall_reads_singleton _ _) ih
  | binary _ _ _ _ hl _ ih1 ih2 => exact forall_reads_append hl.kept ih1 ih2
  | index _ hb _ ih1 ih2 => exact forall_reads_append hb.kept ih1 ih2
  | pass harg _ _ ih1 ih2 => exact forall_reads_append (harg.kept.trans .reporting) ih1 ih2
  | prints harg _ ih1 ih2 => exact forall_reads_append harg.kept ih1 ih2
  | elementFat helement _ _ _ ih1 ih2 =>
    exact forall_reads_append (helement.kept.trans .reporting) ih1 ih2
  | elementScalar helement _ _ ih1 ih2 => exact forall_reads_append helement.kept ih1 ih2
  | assignElement _ hb hi _ _ ih1 ih2 ih3 =>
    exact forall_reads_append (hb.kept.trans hi.kept) (forall_reads_append hb.kept ih1 ih2) ih3

/-- What sequences inherit from their parts, and what code has that works on the stack alone. -/
structure Compositional (Q : Code → Prop) : Prop where
  append : ∀ {a b}, Q a → Q b → Q (a ++ b)
  bare : ∀ {c}, Bare c → Q c

namespace Compositional

variable {Q : Code → Prop} {a b c : Code} {p : Payload} (hQ : Compositional Q)

include hQ

theorem settle (h : Q c) (cells : Nat) : Q (Wasm.settle (c, cells)).1 := by
  rcases cells with _ | _ | _ | cells
  · exact hQ.append h (hQ.bare rfl)
  · exact h
  · exact h
  · exact h

theorem coercion (h : Q c) (t : Term) (type : Ty) (rep : Rep) :
    Q (Wasm.coercion t type (c, rep)).1 := by
  unfold Wasm.coercion
  split_ifs
  · exact h
  · exact hQ.append (hQ.append h (hQ.bare (bare_discard _))) (hQ.bare (bare_zero _))

theorem elementAddress (ha : Q a) (hb : Q b) (rep : Rep) :
    Q (Wasm.elementAddress (a, rep) b) := by
  refine hQ.append (hQ.append (hQ.append (hQ.append ha (hQ.bare ?_)) (hQ.bare rfl)) hb) (hQ.bare rfl)
  cases rep <;> rfl

theorem combination {lt rt : Ty} {f : Code → Code → Code} (h : Wasm.combination p lt rt = .ok f)
    (ha : Q a) (hb : Q b) : Q (f a b) := by
  rcases combination_shape h with ⟨d, e, hd, he, hshape⟩
  rw [hshape]
  exact hQ.append (hQ.append (hQ.append ha (hQ.bare hd)) hb) (hQ.bare he)

theorem application {type : Ty} {f : Code → Code} (h : Wasm.application p type = .ok f)
    (hc : Q c) : Q (f c) := by
  rcases application_shape h with ⟨d, e, hd, he, hshape⟩
  rw [hshape]
  exact hQ.append (hQ.append (hQ.bare hd) hc) (hQ.bare he)

end Compositional

end Codegen.Wasm
