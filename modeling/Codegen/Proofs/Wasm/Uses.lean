import Codegen.Proofs.Survey
import Codegen.Wasm.Generate

/-!
# Names in WebAssembly Code

Code refers to functions and to globals by name. What operators add to the code of their operands
refers to nothing.
-/

namespace Codegen.Wasm

open List

variable {c : Code}

/-- What an instruction refers to by name. -/
inductive Use where
  | function (name : Bytes)
  | global (name : Bytes)
  deriving DecidableEq

mutual

/-- The functions and globals that an instruction refers to, at any depth. -/
def Instr.uses : Instr → List Use
  | .globalGet name | .globalSet name => [.global name]
  | .call name => [.function name]
  | .block _ body | .loop _ body | .cond body none => uses body
  | .cond yes (some no) => uses yes ++ uses no
  | _ => []
termination_by structural i => i

/-- The same for a fragment. -/
def uses : List Instr → List Use
  | [] => []
  | i :: rest => i.uses ++ uses rest
termination_by structural c => c

end

@[simp]
theorem uses_nil : uses [] = [] := by rw [uses]

theorem uses_cons (i : Instr) (c : Code) : uses (i :: c) = i.uses ++ uses c := by rw [uses]

@[simp]
theorem uses_append (a b : Code) : uses (a ++ b) = uses a ++ uses b := by
  induction a with
  | nil => rw [uses_nil, nil_append, nil_append]
  | cons i a ih => rw [cons_append, uses_cons, ih, uses_cons, append_assoc]

/-- Whether an instruction neither branches nor refers to anything. -/
def Instr.isPlain : Instr → Bool
  | .br _ | .brIf _ | .block _ _ | .loop _ _ | .cond _ _ | .globalGet _ | .globalSet _ | .call _ =>
    false
  | _ => true

theorem uses_of_all (h : c.all Instr.isPlain = true) : uses c = [] := by
  have hplain (i : Instr) (h : i.isPlain = true) : i.uses = [] := by
    cases i <;> first | rfl | cases h
  induction c with
  | nil => exact uses_nil
  | cons i c ih =>
    obtain ⟨hi, hc⟩ := Bool.and_eq_true_iff.mp h
    rw [uses_cons, hplain i hi, ih hc]
    rfl

/-- Whether an instruction works on the stack and the memory alone. -/
def Instr.isBare : Instr → Bool
  | .const _ | .const32 _ | .num _ | .load | .store | .drop | .nop => true
  | _ => false

/-- Code that works on the stack and the memory alone. -/
def Bare (c : Code) : Prop := c.all Instr.isBare = true

theorem Bare.append {a b : Code} (ha : Bare a) (hb : Bare b) : Bare (a ++ b) := by
  unfold Bare at ha hb ⊢
  rw [all_append, ha, hb]
  rfl

theorem Bare.uses (h : Bare c) : uses c = [] := by
  refine uses_of_all (all_eq_true.mpr fun i hi => ?_)
  have hbare := all_eq_true.mp h i hi
  cases i <;> first | rfl | cases hbare

section Fragments

variable (sym : Symbol) (rep : Rep) {op? : Option BinaryOp}

theorem bare_replicate (n : Nat) {i : Instr} (h : i.isBare = true) :
    Bare (replicate n i) :=
  all_eq_true.mpr fun _ hi => (mem_replicate.mp hi).2 ▸ h

theorem bare_zero : Bare (zero rep) := bare_replicate _ rfl

theorem bare_discard (cells : Nat) : Bare (discard cells) := bare_replicate _ rfl

theorem bare_integerOp? (h : op?.bind integerOp? = some c) : Bare c := by
  rcases Option.bind_eq_some_iff.mp h with ⟨op, -, hop⟩
  cases op with
  | arith op | compare op =>
    cases hop
    rfl
  | logic => cases hop

theorem bare_decimalOp? (h : op?.bind decimalOp? = some c) : Bare c := by
  rcases Option.bind_eq_some_iff.mp h with ⟨op, -, hop⟩
  cases op with
  | arith =>
    rcases Option.map_eq_some_iff.mp hop with ⟨float, -, rfl⟩
    rfl
  | compare =>
    cases hop
    rfl
  | logic => cases hop

def symbolUses : List Use :=
  match sym.global, sym.type.rep with
  | true, .fat => [.global sym.storage, .global (lengthCell sym.storage)]
  | true, .scalar => [.global sym.storage]
  | false, _ => []

/-- Reading a variable refers to its cells if it is global. -/
theorem uses_load : uses (load sym) = symbolUses sym := by
  unfold load symbolUses
  cases sym.global <;> cases sym.type.rep <;> simp [uses, Instr.uses]

/-- So does writing one. -/
theorem uses_store : uses (store sym) = (symbolUses sym).reverse := by
  unfold store symbolUses
  cases sym.global <;> cases sym.type.rep <;> simp [uses, Instr.uses]

end Fragments

section Operators

variable {p : Payload} {lt rt type : Ty} {f : Code → Code → Code}

/-- The code of an operator on numbers, from the code of its operands, or why it has none. -/
def numericCombination (p : Payload) (lt rt : Ty) (op? : Option BinaryOp) :
    Except Unsupported (Code → Code → Code) :=
  if lt = .decimal || rt = .decimal then
    match op?.bind decimalOp? with
    | none => .error (.decimalOperator p.op)
    | some c => .ok fun l r => l ++ toFloat lt ++ r ++ toFloat rt ++ c
  else
    match op?.bind integerOp? with
    | none => .error (.operator p.op)
    | some c => .ok fun l r => l ++ r ++ c

def logicOp : Logic → NumOp
  | .and => .and
  | .or => .or

/-- The code of a binary operator, or why there is none. -/
def combination (p : Payload) (lt rt : Ty) : Except Unsupported (Code → Code → Code) :=
  if lt.rep = .fat || rt.rep = .fat then .error (.operatorOn p.op lt rt)
  else
    match BinaryOp.ofText? p.op with
    | some (.logic op) => .ok fun l r => l ++ truth ++ [.num .extendU] ++ r ++ truth
        ++ [.num .extendU] ++ [.num (logicOp op)]
    | op? => numericCombination p lt rt op?

/-- The code of a unary operator, or why there is none. -/
def application (p : Payload) (type : Ty) : Except Unsupported (Code → Code) :=
  if p.op = "not" then .ok fun c => c ++ [.num .eqz, .num .extendU]
  else if p.op = "-" && type = .decimal then
    .ok fun c => c ++ [.num .ofBits, .num .fneg, .num .toBits]
  else if p.op = "-" && type.rep = .scalar then .ok fun c => [.const 0] ++ c ++ [.num .sub]
  else .error (.unaryOperator p.op type)

/-- A binary operator by its code. -/
theorem combine_eq (left right : Emit (Code × Rep)) :
    combine p lt rt left right =
      match combination p lt rt with
      | .error cause => unsupported p.kind cause
      | .ok f => do
        let (l, _) ← left
        let (r, _) ← right
        return (f l r, 1) := by
  unfold combine combination numericCombination
  generalize BinaryOp.ofText? p.op = op?
  split_ifs with hfat hdecimal
  · rfl
  · rcases op? with _ | op | op | op
    · rfl
    · simp only [Option.bind_some]
      cases decimalOp? (.arith op) <;> rfl
    · rfl
    · cases op <;> rfl
  · rcases op? with _ | op | op | op
    · rfl
    all_goals cases op <;> rfl

/-- A unary operator by its code. -/
theorem applyUnary_eq (operand : Emit (Code × Rep)) :
    applyUnary p type operand =
      match application p type with
      | .error cause => unsupported p.kind cause
      | .ok f => do
        let (c, _) ← operand
        return (f c, 1) := by
  unfold applyUnary application
  split_ifs <;> rfl

def refusals {α : Type} (p : Payload) : Except Unsupported α → List Issue
  | .ok _ => []
  | .error cause => [⟨p.kind, cause⟩]

theorem decimalOp?_isSome (op : BinaryOp) : (decimalOp? op).isSome = op.onDecimals := by
  rcases op with op | op | op
  · cases op <;> rfl
  · rfl
  · rfl

theorem refusals_combination (p : Payload) (lt rt : Ty) : refusals p (combination p lt rt) =
    if lt.rep = .fat || rt.rep = .fat then [⟨p.kind, .operatorOn p.op lt rt⟩]
    else p.operatorIssues lt rt := by
  unfold combination Payload.operatorIssues numericCombination
  generalize BinaryOp.ofText? p.op = op?
  split_ifs with hfat hdecimal
  · rfl
  · rcases op? with _ | op | op | op
    · rfl
    · simp only [Option.bind_some, Option.any_some, ← decimalOp?_isSome (.arith op)]
      cases decimalOp? (.arith op) <;> rfl
    · rfl
    · rfl
  · rcases op? with _ | op | op | op <;> rfl

theorem refusals_application (p : Payload) (type : Ty) :
    refusals p (application p type) = p.unaryIssues type type.rep := by
  unfold application Payload.unaryIssues
  split_ifs <;> rfl

theorem numericCombination_shape {o : Option BinaryOp} (h : numericCombination p lt rt o = .ok f) :
    ∃ a b, Bare a ∧ Bare b ∧ ∀ l r, f l r = l ++ a ++ r ++ b := by
  unfold numericCombination at h
  split_ifs at h <;> split at h <;> cases h
  · next c hcode =>
    refine ⟨toFloat lt, toFloat rt ++ c, rfl, .append rfl (bare_decimalOp? hcode), ?_⟩
    exact fun l r => by simp
  · next c hcode => exact ⟨[], c, rfl, bare_integerOp? hcode, fun l r => by rw [append_nil]⟩

/-- What a binary operator adds to its operands is bare. -/
theorem combination_shape (h : combination p lt rt = .ok f) :
    ∃ a b, Bare a ∧ Bare b ∧ ∀ l r, f l r = l ++ a ++ r ++ b := by
  unfold combination at h
  generalize BinaryOp.ofText? p.op = op? at h
  split_ifs at h
  rcases op? with _ | op | op | op
  · exact numericCombination_shape h
  · exact numericCombination_shape h
  · exact numericCombination_shape h
  · cases h
    refine ⟨[.const 0, .num .ne, .num .extendU],
      [.const 0, .num .ne, .num .extendU, .num (logicOp op)], rfl, rfl, fun l r => ?_⟩
    simp [truth]

/-- So is what a unary operator adds. -/
theorem application_shape {f : Code → Code} (h : application p type = .ok f) :
    ∃ a b, Bare a ∧ Bare b ∧ ∀ c, f c = a ++ c ++ b := by
  unfold application at h
  split_ifs at h <;> cases h
  · exact ⟨[], [.num .eqz, .num .extendU], rfl, rfl, fun c => rfl⟩
  · exact ⟨[], [.num .ofBits, .num .fneg, .num .toBits], rfl, rfl, fun c => rfl⟩
  · exact ⟨[.const 0], [.num .sub], rfl, rfl, fun c => rfl⟩

end Operators

end Codegen.Wasm
