import Codegen.Arm64.Generate
import Codegen.Proofs.Survey

/-!
# Symbols and Labels in AArch64 Code

Most instructions work on registers and memory and say nothing about the program around them.
The others are marked here: those that refer to a symbol, those that jump to a label, and the
lines that define labels and begin routines. What the fragments of the generator are marked
with is computed once, so that nothing about symbols or labels has to look at instructions.
-/

namespace Codegen.Arm64

open List

/-- What a line of code refers to or defines. -/
inductive Mark where
  | uses (symbol : Bytes)
  | jumps (target : Label)
  | defines (label : Label)
  | begins (symbol : Bytes)
  deriving DecidableEq

def Line.mark? : Line → Option Mark
  | .instr (.adrp _ symbol) | .instr (.addPageOffset _ _ symbol) | .instr (.bl symbol) =>
    some (.uses symbol)
  | .instr (.branch target) | .instr (.branchIf _ target) | .instr (.cbz _ target) =>
    some (.jumps target)
  | .label l => some (.defines l)
  | .routine symbol _ => some (.begins symbol)
  | _ => none

/-- What lines of code refer to and define. -/
def marks (c : Code) : List Mark := c.filterMap Line.mark?

def Mark.used? : Mark → Option Bytes
  | .uses symbol => some symbol
  | _ => none

def Mark.target? : Mark → Option Label
  | .jumps target => some target
  | _ => none

def Mark.label? : Mark → Option Label
  | .defines l => some l
  | _ => none

def Mark.begun? : Mark → Option Bytes
  | .begins symbol => some symbol
  | _ => none

/-- The symbols that code refers to. -/
def uses (c : Code) : List Bytes := (marks c).filterMap Mark.used?

/-- The labels that code branches to. -/
def targets (c : Code) : List Label := (marks c).filterMap Mark.target?

/-- The labels that code has. -/
def labels (c : Code) : List Label := (marks c).filterMap Mark.label?

/-- The symbols of the routines that begin in code. -/
def begun (c : Code) : List Bytes := (marks c).filterMap Mark.begun?

@[simp]
theorem marks_nil : marks [] = [] := rfl

/-- Fragments in sequence. -/
@[simp]
theorem marks_append (a b : Code) : marks (a ++ b) = marks a ++ marks b := filterMap_append

@[simp]
theorem labels_append (a b : Code) : labels (a ++ b) = labels a ++ labels b := by
  simp [labels]

@[simp]
theorem targets_append (a b : Code) : targets (a ++ b) = targets a ++ targets b := by
  simp [targets]

@[simp]
theorem begun_append (a b : Code) : begun (a ++ b) = begun a ++ begun b := by
  simp [begun]

@[simp]
theorem uses_append (a b : Code) : uses (a ++ b) = uses a ++ uses b := by
  simp [uses]

@[simp]
theorem marks_comment (text : Bytes) : marks [.comment text] = [] := rfl

@[simp]
theorem marks_label (l : Label) : marks [.label l] = [.defines l] := rfl

@[simp]
theorem marks_branch (l : Label) : marks (code [.branch l]) = [.jumps l] := rfl

@[simp]
theorem marks_bl (symbol : Bytes) : marks (code [.bl symbol]) = [.uses symbol] := rfl

theorem marks_highChunks (r : Reg) (value : UInt64) : marks (highChunks r value) = [] := by
  unfold marks highChunks
  rw [filterMap_flatMap, flatMap_eq_nil_iff]
  intro shift _
  split <;> rfl

@[simp]
theorem marks_loadImm (r : Reg) (value : Int64) : marks (loadImm r value) = [] := by
  unfold loadImm
  split
  · rfl
  · exact marks_highChunks r value.toUInt64

@[simp]
theorem marks_loadNat (r : Reg) (n : Nat) : marks (loadNat r n) = [] := marks_loadImm r _

@[simp]
theorem marks_loadAddress (r : Reg) (symbol : Bytes) :
    marks (loadAddress r symbol) = [.uses symbol, .uses symbol] := rfl

@[simp]
theorem marks_slotAddress (offset : Nat) : marks (slotAddress offset) = [] := by
  unfold slotAddress
  split
  · rfl
  · rw [marks_append, marks_loadNat]
    rfl

@[simp]
theorem marks_storeSlot (r : Reg) (slot : Int) : marks (storeSlot r slot) = [] := by
  unfold storeSlot
  dsimp only
  split
  · rfl
  · rw [marks_append, marks_slotAddress]
    rfl

@[simp]
theorem marks_loadSlot (r : Reg) (slot : Int) : marks (loadSlot r slot) = [] := by
  unfold loadSlot
  dsimp only
  split
  · rfl
  · rw [marks_append, marks_slotAddress]
    rfl

@[simp]
theorem marks_push (rep : Rep) : marks (push rep) = [] := by cases rep <;> rfl

@[simp]
theorem marks_pop (rep : Rep) (n : Nat) : marks (pop rep n) = [] := by cases rep <;> rfl

@[simp]
theorem marks_zero (rep : Rep) : marks (zero rep) = [] := by cases rep <;> rfl

/-- The marks of an access to a variable: its storage, if it has one. -/
def symbolMarks (sym : Symbol) : List Mark :=
  if sym.global then [.uses sym.storage, .uses sym.storage] else []

/-- Reading a variable refers to its storage if it is global. -/
@[simp]
theorem marks_load (sym : Symbol) : marks (load sym) = symbolMarks sym := by
  unfold load symbolMarks
  cases sym.global <;> cases sym.type.rep <;> simp <;> rfl

/-- So does writing one. -/
@[simp]
theorem marks_store (sym : Symbol) : marks (store sym) = symbolMarks sym := by
  unfold store symbolMarks
  cases sym.global <;> cases sym.type.rep <;> simp <;> rfl

@[simp]
theorem marks_popArgs (n : Nat) (reps : List Rep) : marks (popArgs n reps) = [] := by
  induction reps generalizing n with
  | nil => rfl
  | cons _ _ ih => rw [popArgs, marks_append, marks_pop, ih, append_nil]

@[simp]
theorem marks_storeElement (storage : Bytes) (index : Nat) :
    marks (storeElement storage index) = [.uses storage, .uses storage] := by
  unfold storeElement
  dsimp only
  split
  · rfl
  · rw [marks_append, marks_append, marks_loadNat]
    rfl

@[simp]
theorem marks_storeParam (reg : Nat) (sym : Symbol) : marks (storeParam reg sym) = [] := by
  unfold storeParam
  cases sym.type.rep with
  | scalar => exact marks_storeSlot _ _
  | fat => rw [marks_append, marks_storeSlot, marks_storeSlot, append_nil]

theorem marks_whileCode (start done : Label) (c b : Code) :
    marks (whileCode start done c b) =
      [.defines start] ++ marks c ++ [.jumps done] ++ marks b
        ++ [.jumps start] ++ [.defines done] := by
  have hcbz : marks (code [.cbz x0 done]) = [.jumps done] := rfl
  unfold whileCode
  simp only [marks_append, marks_label, marks_branch, hcbz]

theorem marks_forCode (counter limit : Nat) (start step done : Label) (a b c : Code) :
    marks (forCode counter limit start step done a b c) =
      marks a ++ marks b ++ [.defines start] ++ [.jumps done] ++ marks c
        ++ [.defines step] ++ [.jumps start] ++ [.defines done] := by
  have htest : marks (code [.cmp x0 x1, .branchIf .gt done]) = [.jumps done] := rfl
  have hadd : marks (code [.addImm x0 x0 1]) = [] := rfl
  unfold forCode
  simp only [marks_append, marks_label, marks_branch, marks_storeSlot, marks_loadSlot, htest, hadd,
    append_nil]

theorem marks_reserveFrame (size : Nat) : marks (reserveFrame size) = [] := by
  unfold reserveFrame
  split_ifs
  · rfl
  · rfl
  · rw [marks_append, marks_loadNat]
    rfl

/-- The beginning of a function is that of a routine. -/
theorem marks_prologue (symbol : Bytes) (words : Nat) :
    marks (prologue symbol words) = [.begins symbol] := by
  unfold prologue
  rw [marks_append, marks_reserveFrame]
  rfl

section Operators

variable {Q : Code → Prop} {c : Code} {issues : List Issue}

def Addr.registers : Addr → List Reg
  | .base r | .offset r _ | .back r _ | .preDecrement r _ | .postIncrement r _ => [r]
  | .sum r index | .word r index => [r, index]

/-- The registers that an instruction takes words and addresses from. -/
def Instr.sources : Instr → List Reg
  | .mov _ r | .addPageOffset _ r _ | .addImm _ r _ | .subImm _ r _ | .neg _ r | .cmpImm r _
  | .fmovIn _ r | .scvtf _ r | .cbz r _ => [r]
  | .word _ _ r s | .cmp r s | .csel _ r s _ => [r, s]
  | .msub _ r s t => [r, s, t]
  | .ldur _ addr | .ldr _ addr | .ldp _ _ addr => addr.registers
  | .stur r addr | .str r addr => r :: addr.registers
  | .stp r s addr => r :: s :: addr.registers
  | _ => []

/-- Whether a line is a comment, or works on the registers of values alone. -/
def Line.calculates : Line → Bool
  | .instr i => i.sources.all [x0, x1, x2].contains &&
    match i with
    | .movImm rd _ | .word _ rd _ _ | .msub rd _ _ _ | .neg rd _ | .cset rd _ | .fmovOut rd _ =>
      [x0, x1, x2].contains rd
    | .cmp .. | .cmpImm .. | .fmovIn .. | .float .. | .fneg .. | .fcmp .. | .scvtf .. => true
    | _ => false
  | .comment _ => true
  | _ => false

/-- The code of an operation: the first operand is saved while the second is evaluated, and the
    rest are calculations. -/
def Combines (l r c : Code) : Prop :=
  ∃ a b d, (∀ line ∈ a ++ b ++ d, line.calculates = true) ∧
    c = l ++ a ++ push .scalar ++ r ++ b ++ pop .scalar 1 ++ d

def Applies (l c : Code) : Prop := ∃ d, (∀ line ∈ d, line.calculates = true) ∧ c = l ++ d

theorem marks_calculates (h : ∀ line ∈ c, line.calculates = true) : marks c = [] := by
  refine filterMap_eq_nil_iff.mpr fun line hline => ?_
  have hplain := h line hline
  cases line with
  | instr i =>
    have hplain := (Bool.and_eq_true_iff.mp hplain).2
    cases i
    case adrp | addPageOffset | bl | branch | branchIf | cbz => cases hplain
    all_goals rfl
  | comment => rfl
  | label => cases hplain
  | routine => cases hplain

theorem Combines.marks {l r : Code} (h : Combines l r c) :
    Arm64.marks c = Arm64.marks l ++ Arm64.marks r := by
  rcases h with ⟨a, b, d, hplain, rfl⟩
  have hnone := marks_calculates hplain
  simp only [marks_append, append_eq_nil_iff] at hnone
  simp [hnone]

theorem Applies.marks {l : Code} (h : Applies l c) : Arm64.marks c = Arm64.marks l := by
  rcases h with ⟨d, hplain, rfl⟩
  rw [marks_append, marks_calculates hplain, append_nil]

/-- An operation that gives one word, and code with a property, and does nothing but record
    these issues. -/
def Plain (x : Emit (Code × Rep)) (Q : Code → Prop) (issues : List Issue) : Prop :=
  ∃ c, Q c ∧ ∀ s ctx, Ends x s ctx (c, .scalar) s (ctx.reporting issues)

theorem Plain.of_ends {x : Emit (Code × Rep)} (h : Plain x Q issues) {s s' : Output}
    {ctx ctx' : Context} {rep : Rep} (hrun : Ends x s ctx (c, rep) s' ctx') :
    s = s' ∧ rep = .scalar ∧ ctx' = ctx.reporting issues ∧ Q c := by
  rcases h with ⟨c', hcode, hends⟩
  obtain ⟨hvalue, rfl, rfl⟩ := hrun.unique (hends s ctx)
  cases hvalue
  exact ⟨rfl, rfl, rfl, hcode⟩

theorem plain_pure (h : Q c) : Plain (pure (c, .scalar)) Q [] := by
  refine ⟨c, h, fun s ctx => ?_⟩
  rw [Context.reporting_nil]
  exact ends_pure

theorem plain_limited (kind : Kind) (cause : Unsupported) (h : Q c) :
    Plain (do
      Gen.limit kind cause
      return (c, .scalar)) Q [⟨kind, cause⟩] :=
  ⟨c, h, fun _ _ => ends_bind ends_limit ends_pure⟩

/-- A binary operator puts calculations around its operands. -/
theorem plain_combine (p : Payload) (lt rt : Ty) (l r : Code) :
    Plain (combine p lt rt l r) (Combines l r) (p.operatorIssues lt rt) := by
  have hbits (type : Ty) : ∀ line ∈ toDecimalBits type, line.calculates = true := by
    unfold toDecimalBits
    split <;> decide
  have hdecimals (c : Code) (hc : ∀ line ∈ c, line.calculates = true) : Combines l r
      (l ++ toDecimalBits lt ++ push .scalar ++ r ++ toDecimalBits rt ++ pop .scalar 1
        ++ code [.fmovIn 0 x1, .fmovIn 1 x0] ++ c) := by
    refine ⟨_, _, code [.fmovIn 0 x1, .fmovIn 1 x0] ++ c, ?_, (append_assoc _ _ _)⟩
    simp only [forall_mem_append]
    exact ⟨⟨hbits lt, hbits rt⟩, by decide, hc⟩
  have hintegers (c : Code) (hc : ∀ line ∈ c, line.calculates = true) :
      Combines l r (l ++ push .scalar ++ r ++ pop .scalar 1 ++ c) :=
    ⟨[], [], c, hc, by simp⟩
  have hrefused (text : Bytes) : ∀ line ∈ placeholder text, line.calculates = true :=
    forall_mem_cons.mpr ⟨rfl, by decide⟩
  unfold combine Payload.operatorIssues
  generalize BinaryOp.ofText? p.op = op?
  split_ifs
  · rcases op? with _ | op | op | op
    · exact plain_limited _ _ (hdecimals _ (hrefused _))
    · cases op with
      | rem => exact plain_limited _ _ (hdecimals _ (hrefused _))
      | _ => exact plain_pure (hdecimals _ (by decide))
    · exact plain_pure (hdecimals _ (by cases op <;> decide))
    · exact plain_pure (hintegers _ (by cases op <;> decide))
  · rcases op? with _ | op | op | op
    · exact plain_limited _ _ (hintegers _ (hrefused _))
    all_goals exact plain_pure (hintegers _ (by cases op <;> decide))

/-- So does a unary operator. -/
theorem plain_applyUnary (p : Payload) (type : Ty) (l : Code) (rep : Rep) :
    Plain (applyUnary p type l rep) (Applies l) (p.unaryIssues type rep) := by
  unfold applyUnary Payload.unaryIssues
  split_ifs
  on_goal 4 => exact plain_limited _ _ ⟨_, forall_mem_cons.mpr ⟨rfl, by decide⟩, rfl⟩
  all_goals exact plain_pure ⟨_, by decide, rfl⟩

end Operators

end Codegen.Arm64
