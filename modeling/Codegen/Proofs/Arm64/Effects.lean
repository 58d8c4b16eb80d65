import Mathlib.Logic.Relation
import Codegen.Proofs.Arm64.Evaluation

/-!
# What AArch64 Code of Expressions Leaves Alone

An expression has no way to open a scope, to take a slot or to ask for a label, so the context
after it differs from the one before in literals, helpers and limitations only. All its names
are therefore looked up in the same scopes. Its code may refer to symbols, but it does not jump,
and it defines nothing.
-/

namespace Codegen.Arm64

open Context List

variable {flavor : Flavor} {job : Job} {r : Lowered} {st st' : Stage}
  {strings : List (Bytes × Bytes)}

theorem Supplies.kept (h : Supplies strings st st') : st.2.Kept st'.2 := by
  induction h with
  | nil => exact .refl _
  | old _ _ ih => exact ih
  | new _ _ ih => exact Kept.claiming.trans ih

theorem Requests.kept {printer : Printer} (h : Requests flavor printer st st') :
    st.2.Kept st'.2 := by
  cases h with
  | old => exact .refl _
  | new _ hstrings => exact Kept.claiming.trans hstrings.kept

/-- One change that lowering makes: names, slots, labels and limitations, which have nothing to
    do with the data sections, or an entry there, or a helper. -/
inductive Touches (flavor : Flavor) : Stage → Stage → Prop where
  | context {s ctx ctx'} (hhelpers : ctx'.helpers = ctx.helpers) (hdata : ctx'.data = ctx.data) :
      Touches flavor (s, ctx) (s, ctx')
  | literal {s ctx text lit data} (hlit : ctx.data.addLiteral text = (lit, data)) :
      Touches flavor (s, ctx) (s.withConstant ⟨literalSymbol lit, lit.bytes, false⟩, { ctx with data })
  | array {s ctx count} : Touches flavor (s, ctx) (s.withArray count, ctx)
  | helper {printer st st'} (h : Requests flavor printer st st') : Touches flavor st st'

/-- What lowering does to a stage, step by step. -/
abbrev Changes (flavor : Flavor) : Stage → Stage → Prop := Relation.ReflTransGen (Touches flavor)

theorem Touches.reporting {s : Output} {ctx : Context} {issues : List Issue} :
    Touches flavor (s, ctx) (s, ctx.reporting issues) := .context rfl rfl

variable {s : Output} {ctx : Context}

theorem Changes.after {ctx1 : Context} (h : Changes flavor (s, ctx1) st')
    (hhelpers : ctx1.helpers = ctx.helpers) (hdata : ctx1.data = ctx.data) :
    Changes flavor (s, ctx) st' := .head (.context hhelpers hdata) h

/-- Nothing is added to the code before a routine is complete, and storage is only added. -/
structure Grows (st st' : Stage) : Prop where
  code : st'.1.code = st.1.code
  storage : st.1.storage ⊆ st'.1.storage

theorem Grows.refl (st : Stage) : Grows st st := ⟨rfl, List.Subset.refl _⟩

theorem Supplies.grows (h : Supplies strings st st') : Grows st st' := by
  induction h with
  | nil => exact .refl _
  | old _ _ ih => exact ih
  | new _ _ ih => exact ⟨ih.code, ih.storage⟩

theorem Touches.grows (h : Touches flavor st st') : Grows st st' := by
  cases h with
  | context | literal => exact ⟨rfl, List.Subset.refl _⟩
  | array => exact ⟨rfl, subset_append_left _ _⟩
  | helper h =>
    cases h with
    | old => exact .refl _
    | new _ hstrings => exact ⟨hstrings.grows.code, hstrings.grows.storage⟩

theorem Changes.grows (h : Changes flavor st st') : Grows st st' := by
  induction h with
  | refl => exact .refl _
  | tail _ hlast ih =>
    exact ⟨hlast.grows.code.trans ih.code, List.Subset.trans ih.storage hlast.grows.storage⟩

/-- Scopes, slots and labels are as they were, and what has changed are the data sections. -/
structure Later (flavor : Flavor) (st st' : Stage) : Prop where
  kept : st.2.Kept st'.2
  changes : Changes flavor st st'

namespace Later

variable {st1 : Stage}

theorem refl (st : Stage) : Later flavor st st := ⟨.refl _, .refl⟩

theorem trans (h : Later flavor st st1) (h' : Later flavor st1 st') : Later flavor st st' :=
  ⟨h.kept.trans h'.kept, h.changes.trans h'.changes⟩

theorem reporting {issues : List Issue} : Later flavor (s, ctx) (s, ctx.reporting issues) :=
  ⟨.reporting, .single .reporting⟩

theorem requests {printer : Printer} (h : Requests flavor printer st st') : Later flavor st st' :=
  ⟨h.kept, .single (.helper h)⟩

end Later

/-- Evaluating an expression leaves scopes, slots and labels as they are, and makes nothing but
    such changes. -/
theorem Produces.later (h : Produces flavor job st r st') : Later flavor st st' := by
  induction h with
  | print _ ih | lengthFat _ ih | assign _ _ ih | assignVariable _ _ _ ih => exact ih
  | array _ _ ih => exact ⟨ih.kept, .head .array ih.changes⟩
  | lengthScalar _ ih => exact ih.trans .reporting
  | lengthArity | unresolved | unknown | binaryRefused | other | assignUnresolved
  | assignRefused => exact .reporting
  | call _ _ _ _ _ _ ih | printRefused _ _ _ ih => exact Later.reporting.trans ih
  | string _ hlit => exact ⟨.data, .single (.literal hlit)⟩
  | literal | ident | pushNone | printNone | elementsNone => exact .refl _
  | binary _ _ _ _ _ _ hop ihl ihr =>
    rcases (plain_combine _ _ _ _ _).of_ends hop with ⟨rfl, -, rfl, -⟩
    exact (ihl.trans ihr).trans .reporting
  | unary _ _ _ hop ih =>
    rcases (plain_applyUnary _ _ _ _).of_ends hop with ⟨rfl, -, rfl, -⟩
    exact ih.trans .reporting
  | index _ _ _ ih1 ih2 | push _ _ ih1 ih2 | elementScalar _ _ ih1 ih2 => exact ih1.trans ih2
  | printValue _ _ _ hhelper _ _ ih1 ih2 => exact (ih1.trans (.requests hhelper)).trans ih2
  | elementFat _ _ _ ih1 ih2 => exact (ih1.trans .reporting).trans ih2
  | assignElement _ _ _ _ ih1 ih2 ih3 => exact (ih1.trans ih2).trans ih3

theorem Produces.kept (h : Produces flavor job st r st') : st.2.Kept st'.2 := h.later.kept

theorem Produces.changes (h : Produces flavor job st r st') : Changes flavor st st' :=
  h.later.changes

/-- Every name stands for what it stood for at the start. -/
theorem Produces.reads (h : Produces flavor job st r st') :
    ∀ read ∈ r.reads, read = st.2.reading read.name := by
  have hnil (ctx : Context) : ∀ read ∈ ([] : List Read), read = ctx.reading read.name :=
    forall_mem_nil _
  induction h with
  | print _ ih | lengthFat _ ih | lengthScalar _ ih | array _ _ ih | assign _ _ ih
  | printRefused _ _ _ ih => exact ih
  | lengthArity | literal | string | binaryRefused | other | pushNone | printNone | elementsNone
  | assignRefused => exact hnil _
  | unresolved | ident | unknown | assignUnresolved => exact forall_reads_singleton _ _
  | call _ _ _ _ _ _ ih => exact forall_reads_append .reporting (forall_reads_singleton _ _) ih
  | binary _ _ _ _ hl _ _ ihl ihr => exact forall_reads_append hl.kept ihl ihr
  | unary _ _ _ _ ih => exact ih
  | index _ hb _ ih1 ih2 => exact forall_reads_append hb.kept ih1 ih2
  | push hargs _ ih1 ih2 => exact forall_reads_append hargs.kept ih1 ih2
  | printValue _ _ harg hhelper _ _ ih1 ih2 =>
    exact forall_reads_append (harg.kept.trans hhelper.kept) ih1 ih2
  | elementFat helement _ _ ih1 ih2 =>
    exact forall_reads_append (helement.kept.trans .reporting) ih1 ih2
  | elementScalar helement _ ih1 ih2 => exact forall_reads_append helement.kept ih1 ih2
  | assignVariable _ _ _ ih => exact forall_reads_append (.refl _) (forall_reads_singleton _ _) ih
  | assignElement _ hb hi _ ih1 ih2 ih3 =>
    exact forall_reads_append (hb.kept.trans hi.kept) (forall_reads_append hb.kept ih1 ih2) ih3

/-- Code that neither branches nor writes labels. -/
def Unbranched (c : Code) : Prop := ∀ m ∈ marks c, ∃ symbol, m = .uses symbol

namespace Unbranched

variable {a b c : Code}

theorem of_marks (h : marks c = []) : Unbranched c := by
  intro m hm
  rw [h] at hm
  cases hm

theorem of_uses {symbols : List Bytes} (h : marks c = symbols.map .uses) : Unbranched c := by
  intro m hm
  rw [h] at hm
  rcases mem_map.mp hm with ⟨symbol, -, rfl⟩
  exact ⟨symbol, rfl⟩

theorem append (ha : Unbranched a) (hb : Unbranched b) : Unbranched (a ++ b) := by
  unfold Unbranched
  rw [marks_append]
  exact forall_mem_append.mpr ⟨ha, hb⟩

theorem filterMap_marks {α : Type} (h : Unbranched c) {f : Mark → Option α}
    (hf : ∀ symbol, f (.uses symbol) = none) : (marks c).filterMap f = [] := by
  refine filterMap_eq_nil_iff.mpr fun m hm => ?_
  rcases h m hm with ⟨symbol, rfl⟩
  exact hf symbol

theorem labels (h : Unbranched c) : labels c = [] := h.filterMap_marks fun _ => rfl

theorem targets (h : Unbranched c) : targets c = [] := h.filterMap_marks fun _ => rfl

theorem begun (h : Unbranched c) : begun c = [] := h.filterMap_marks fun _ => rfl

theorem load (sym : Symbol) : Unbranched (load sym) := by
  unfold Unbranched
  rw [marks_load, symbolMarks]
  simp

theorem store (sym : Symbol) : Unbranched (store sym) := by
  have hload := load sym
  unfold Unbranched at *
  rwa [marks_store, ← marks_load]

end Unbranched

theorem marks_missingLength (missing : Prop) [Decidable missing] :
    marks (if missing then code [.movImm x1 0] else []) = [] := by
  split_ifs
  · rfl
  · rfl

/-- Code of expressions refers to symbols at most. -/
theorem Produces.unbranched (h : Produces flavor job st r st') : Unbranched r.code := by
  have hcall (symbol : Bytes) : Unbranched (code [.bl symbol]) := @Unbranched.of_uses _ [symbol] rfl
  have haddress (reg : Reg) (symbol : Bytes) : Unbranched (loadAddress reg symbol) :=
    @Unbranched.of_uses _ [symbol, symbol] rfl
  have hstore (storage : Bytes) (index : Nat) : Unbranched (storeElement storage index) :=
    @Unbranched.of_uses _ [storage, storage] (marks_storeElement storage index)
  induction h with
  | print _ ih => exact ih
  | lengthFat _ ih => exact ih.append (.of_marks rfl)
  | lengthScalar _ ih | assign _ _ ih => exact ih.append (.of_marks (marks_zero _))
  | unknown => exact .of_marks (marks_zero _)
  | lengthArity | unresolved | binaryRefused | other | pushNone | printNone | elementsNone
  | assignUnresolved | assignRefused => exact .of_marks rfl
  | call _ _ _ _ _ _ ih => exact (ih.append (.of_marks (marks_popArgs _ _))).append (hcall _)
  | literal h => exact .of_marks (marks_literalCode? h)
  | string => exact (haddress _ _).append (.of_marks (marks_loadNat _ _))
  | ident => exact .load _
  | binary _ _ _ _ _ _ hop ihl ihr =>
    rcases (plain_combine _ _ _ _ _).of_ends hop with ⟨-, -, -, hcode⟩
    unfold Unbranched
    rw [hcode.marks]
    exact forall_mem_append.mpr ⟨ihl, ihr⟩
  | unary _ _ _ hop ih =>
    rcases (plain_applyUnary _ _ _ _).of_ends hop with ⟨-, -, -, hcode⟩
    unfold Unbranched
    rw [hcode.marks]
    exact ih
  | array _ _ ih => exact (ih.append (haddress _ _)).append (.of_marks (marks_loadNat _ _))
  | index _ _ _ ihb ihi =>
    exact (((ihb.append (.of_marks (marks_push _))).append ihi).append
      (.of_marks (marks_pop _ _))).append (.of_marks rfl)
  | push _ _ ihargs iharg => exact (ihargs.append iharg).append (.of_marks (marks_push _))
  | printRefused _ _ _ ih => exact (Unbranched.of_marks rfl).append ih
  | printValue _ _ _ _ hlength _ iharg ihargs =>
    subst hlength
    exact ((iharg.append (.of_marks (marks_missingLength _))).append (hcall _)).append ihargs
  | elementFat _ _ _ ihe ihr => exact ihe.append ihr
  | elementScalar _ _ ihe ihr => exact (ihe.append (hstore _ _)).append ihr
  | assignVariable _ _ _ ih => exact ih.append (.store _)
  | assignElement _ _ _ _ ihb ihi ihv =>
    refine .append (.append (.append (.append ?_ ihv) ?_) ?_) (.of_marks rfl)
    · exact ((ihb.append (.of_marks (marks_push _))).append ihi).append (.of_marks (marks_push _))
    · exact .of_marks (marks_pop _ _)
    · exact .of_marks (marks_pop _ _)

end Codegen.Arm64
