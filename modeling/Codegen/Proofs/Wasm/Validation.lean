import Codegen.Wasm.Generate

/-!
# Validation of Structured Stack Code

Before a module runs, its functions are checked: every instruction must find the cells
it takes on the operand stack, with their types, and a body must end with the cells that
it declares. Bodies of blocks, loops and conditionals start with a stack of their own and
may not reach below it, and the code that this generator writes gives them no results.

Code after a jump is never reached. The rules let it take any cells from the bottom of
its stack, so a stack is a list of types and whether the point it describes is reachable.

`Instr.check` is the algorithm. Two relations make it usable on code whose parts are
only known by what they do to the stack. `Types` is the type of straight-line code: it
takes some cells, leaves others and does not look below them. `Closes` is what a
statement does: it ends with the stack it began with, or nowhere.
-/

namespace Codegen.Wasm

/-- The type of a cell. -/
inductive ValType where
  | i32
  | i64
  | f64
  deriving DecidableEq, Repr

/-- The operand stack at a point of a body, top first, and whether the point is reached. -/
structure Stack where
  cells : List ValType
  live : Bool
  deriving DecidableEq, Repr

namespace Stack

def fresh : Stack := ⟨[], true⟩

def left : Stack := ⟨[], false⟩

def isEmpty (s : Stack) : Bool := s.cells.isEmpty

def push (s : Stack) (types : List ValType) : Stack := { s with cells := types.reverse ++ s.cells }

/-- Takes a cell of a type. At the bottom of a stack that is not reached there are
    cells of every type. -/
def pop? (s : Stack) (type : ValType) : Option Stack :=
  match s.cells with
  | top :: rest => if top = type then some { s with cells := rest } else none
  -- The code after a jump never runs, so nothing is there to check.
  | [] => if s.live then none else some s

def popAny? (s : Stack) : Option Stack :=
  match s.cells with
  | _ :: rest => some { s with cells := rest }
  | [] => if s.live then none else some s

def popAll? (s : Stack) : List ValType → Option Stack
  | [] => some s
  | type :: types => (s.popAll? types).bind (·.pop? type)

theorem popAll?_push (s : Stack) (types : List ValType) :
    (s.push types).popAll? types = some s := by
  -- The first cell is the lowest one, so the cells below vary along the list.
  have hgeneral (cells : List ValType) :
      popAll? ⟨types.reverse ++ cells, s.live⟩ types = some ⟨cells, s.live⟩ := by
    induction types generalizing cells with
    | nil => rfl
    | cons _ _ ih =>
      rw [popAll?, List.reverse_cons, List.append_assoc, ih]
      exact if_pos rfl
  exact hgeneral s.cells

end Stack

/-- The type of a function. -/
structure Signature where
  params : List ValType
  results : List ValType
  deriving DecidableEq, Repr

/-- What code of a function may refer to: globals and functions of the module, locals and
    results of its own. -/
structure Setting where
  globals : List Bytes
  signature? : Bytes → Option Signature
  locals : Nat
  results : List ValType

namespace NumOp

def signature : NumOp → List ValType × ValType
  | .add | .sub | .mul | .divS | .remS | .and | .or | .shl | .shrU => ([.i64, .i64], .i64)
  | .eq | .ne | .ltS | .leS | .gtS | .geS => ([.i64, .i64], .i32)
  | .eqz => ([.i64], .i32)
  | .fadd | .fsub | .fmul | .fdiv => ([.f64, .f64], .f64)
  | .fneg => ([.f64], .f64)
  | .feq | .fne | .flt | .fle | .fgt | .fge => ([.f64, .f64], .i32)
  | .eqz32 => ([.i32], .i32)
  | .mul32 | .add32 => ([.i32, .i32], .i32)
  | .extendU => ([.i32], .i64)
  | .wrap => ([.i64], .i32)
  | .toBits => ([.f64], .i64)
  | .ofBits => ([.i64], .f64)
  | .ofInteger => ([.i64], .f64)
  | .toInteger => ([.f64], .i64)

end NumOp

mutual

/-- The stack after an instruction, inside constructs with the given labels; none if the
    instruction is not valid there. -/
def Instr.check (g : Setting) (labels : List Label) : Instr → Stack → Option Stack
  | .const _, s => some (s.push [.i64])
  | .const32 _, s => some (s.push [.i32])
  | .num op, s => (s.popAll? op.signature.1).map (·.push [op.signature.2])
  | .localGet index, s => if index < g.locals then some (s.push [.i64]) else none
  | .localSet index, s => if index < g.locals then s.pop? .i64 else none
  | .localTee index, s => if index < g.locals then (s.pop? .i64).map (·.push [.i64]) else none
  | .globalGet name, s => if name ∈ g.globals then some (s.push [.i64]) else none
  | .globalSet name, s => if name ∈ g.globals then s.pop? .i64 else none
  | .load, s => (s.pop? .i32).map (·.push [.i64])
  | .store, s => s.popAll? [.i32, .i64]
  | .call name, s =>
    match g.signature? name with
    | some f => (s.popAll? f.params).map (·.push f.results)
    | none => none
  | .drop, s => s.popAny?
  | .nop, s => some s
  | .comment _, s => some s
  -- Cells below the results may remain, and are dropped.
  | .ret, s => (s.popAll? g.results).map fun _ => .left
  | .br target, _ => if target ∈ labels then some .left else none
  | .brIf target, s => if target ∈ labels then s.pop? .i32 else none
  | .block label body, s =>
    if (checkAll g (label :: labels) body .fresh).any Stack.isEmpty then some s else none
  | .loop label body, s =>
    if (checkAll g (label :: labels) body .fresh).any Stack.isEmpty then some s else none
  | .cond yes none, s =>
    if (checkAll g labels yes .fresh).any Stack.isEmpty then s.pop? .i32 else none
  | .cond yes (some no), s =>
    if (checkAll g labels yes .fresh).any Stack.isEmpty
      && (checkAll g labels no .fresh).any Stack.isEmpty then s.pop? .i32 else none

/-- The stack after a fragment. -/
def checkAll (g : Setting) (labels : List Label) : List Instr → Stack → Option Stack
  | [], s => some s
  | i :: rest, s => (Instr.check g labels i s).bind (checkAll g labels rest)

end

def resultCells (hasResult : Bool) : List ValType := if hasResult then [.i64] else []

theorem reverse_resultCells (hasResult : Bool) :
    (resultCells hasResult).reverse = resultCells hasResult := by
  cases hasResult <;> rfl

def Func.signature (f : Func) : Signature :=
  ⟨List.replicate f.params .i64, resultCells f.hasResult⟩

def import? (name : Bytes) : Option Signature :=
  if name = printIntegerName then some ⟨[.i64], []⟩
  else if name = printTextName then some ⟨[.i32, .i32], []⟩
  else none

/-- The type of a function that a module imports or defines. -/
def Module.signature? (m : Module) (name : Bytes) : Option Signature :=
  (import? name).or (((m.funcs ++ m.helpers).find? fun f => f.name == name).map Func.signature)

/-- What the body of a function of a module may refer to. -/
def Func.setting (m : Module) (f : Func) : Setting :=
  { globals := m.globals
    signature? := m.signature?
    locals := f.params + f.locals
    results := f.signature.results }

/-- Whether the body of a function of a module is valid, and ends with its results and
    nothing else. -/
def Func.valid (m : Module) (f : Func) : Bool :=
  ((checkAll (f.setting m) [] f.body .fresh).bind (·.popAll? f.signature.results)).any Stack.isEmpty

section Fragments

variable {g : Setting} {labels : List Label} {c d : Code} {p q r : List ValType} {name : Bytes}
  {index : Nat} {target label : Label}

theorem checkAll_append (g : Setting) (labels : List Label) (c d : Code) (s : Stack) :
    checkAll g labels (c ++ d) s = (checkAll g labels c s).bind (checkAll g labels d) := by
  induction c generalizing s with
  | nil => rfl
  | cons i c ih =>
    rw [List.cons_append, checkAll, checkAll, Option.bind_assoc]
    exact congrArg _ (funext ih)

theorem checkAll_singleton (i : Instr) (s : Stack) :
    checkAll g labels [i] s = i.check g labels s := by
  rw [checkAll]
  cases Instr.check g labels i s <;> rfl

/-- A fragment takes cells of some types and leaves others. -/
def Types (g : Setting) (labels : List Label) (c : Code) (p q : List ValType) : Prop :=
  ∀ cells live, checkAll g labels c ⟨p ++ cells, live⟩ = some ⟨q ++ cells, live⟩

/-- Fragments in sequence. -/
theorem Types.append (hc : Types g labels c p q) (hd : Types g labels d q r) :
    Types g labels (c ++ d) p r := by
  intro cells live
  rw [checkAll_append, hc cells live]
  exact hd cells live

/-- Fragments above other cells. -/
theorem Types.frame (hc : Types g labels c p q) (r : List ValType) :
    Types g labels c (p ++ r) (q ++ r) := by
  intro cells live
  rw [List.append_assoc, List.append_assoc]
  exact hc (r ++ cells) live

theorem types_nil (p : List ValType) : Types g labels [] p p := fun _ _ => rfl

theorem types_singleton {i : Instr}
    (h : ∀ cells live, i.check g labels ⟨p ++ cells, live⟩ = some ⟨q ++ cells, live⟩) :
    Types g labels [i] p q := by
  intro cells live
  rw [checkAll_singleton, h]

theorem types_localGet (h : index < g.locals) : Types g labels [.localGet index] [] [.i64] :=
  types_singleton fun _ _ => if_pos h

theorem types_localSet (h : index < g.locals) : Types g labels [.localSet index] [.i64] [] :=
  types_singleton fun _ _ => if_pos h

theorem types_localTee (h : index < g.locals) : Types g labels [.localTee index] [.i64] [.i64] :=
  types_singleton fun _ _ => if_pos h

theorem types_globalGet (h : name ∈ g.globals) : Types g labels [.globalGet name] [] [.i64] :=
  types_singleton fun _ _ => if_pos h

theorem types_globalSet (h : name ∈ g.globals) : Types g labels [.globalSet name] [.i64] [] :=
  types_singleton fun _ _ => if_pos h

theorem types_call {f : Signature} (h : g.signature? name = some f) :
    Types g labels [.call name] f.params.reverse f.results.reverse := by
  refine types_singleton fun cells live => ?_
  have hcheck (s : Stack) : (Instr.call name).check g labels s =
      (s.popAll? f.params).map (·.push f.results) := by
    change (match g.signature? name with | some f => _ | none => none) = _
    rw [h]
  rw [hcheck]
  exact congrArg (Option.map _) (Stack.popAll?_push ⟨cells, live⟩ f.params)

theorem types_brIf (h : target ∈ labels) : Types g labels [.brIf target] [.i32] [] :=
  types_singleton fun _ _ => if_pos h

/-- A fragment leaves the stack as it was, unless it leaves the place altogether. -/
def Closes (g : Setting) (labels : List Label) (c : Code) : Prop :=
  ∀ s, ∃ s', checkAll g labels c s = some s' ∧ (s' = s ∨ s' = .left)

/-- Statements in sequence. -/
theorem Closes.append (hc : Closes g labels c) (hd : Closes g labels d) :
    Closes g labels (c ++ d) := by
  intro s
  rcases hc s with ⟨s1, hc, hs1⟩
  rcases hd s1 with ⟨s2, hd, hs2⟩
  refine ⟨s2, ?_, ?_⟩
  · rw [checkAll_append, hc]
    exact hd
  · -- A jump in the second part leaves nothing of the first.
    rcases hs2 with rfl | rfl
    · exact hs1
    · exact Or.inr rfl

theorem Types.closes (h : Types g labels c [] []) : Closes g labels c := by
  intro s
  exact ⟨s, h s.cells s.live, Or.inl rfl⟩

theorem Types.closes_append (hc : Types g labels c [] p)
    (hd : ∀ cells live, checkAll g labels d ⟨p ++ cells, live⟩ = some .left) :
    Closes g labels (c ++ d) := by
  intro s
  have hfirst : checkAll g labels c s = some ⟨p ++ s.cells, s.live⟩ := hc s.cells s.live
  refine ⟨.left, ?_, Or.inr rfl⟩
  rw [checkAll_append, hfirst]
  exact hd s.cells s.live

theorem checkAll_ret (cells : List ValType) (live : Bool) :
    checkAll g labels [.ret] ⟨g.results.reverse ++ cells, live⟩ = some .left := by
  rw [checkAll_singleton]
  exact congrArg (Option.map _) (Stack.popAll?_push ⟨cells, live⟩ g.results)

theorem checkAll_br (h : target ∈ labels) (s : Stack) :
    checkAll g labels [.br target] s = some .left := by
  rw [checkAll_singleton]
  exact if_pos h

theorem Closes.body (h : Closes g labels c) :
    (checkAll g labels c .fresh).any Stack.isEmpty = true := by
  rcases h .fresh with ⟨s', hc, rfl | rfl⟩ <;> rw [hc] <;> rfl

/-- A statement in a block. -/
theorem closes_block (h : Closes g (label :: labels) c) : Closes g labels [.block label c] := by
  intro s
  refine ⟨s, ?_, Or.inl rfl⟩
  rw [checkAll_singleton]
  exact if_pos h.body

theorem closes_loop (h : (checkAll g (label :: labels) c .fresh).any Stack.isEmpty = true) :
    Closes g labels [.loop label c] := by
  intro s
  refine ⟨s, ?_, Or.inl rfl⟩
  rw [checkAll_singleton]
  exact if_pos h

theorem types_cond (h : Closes g labels c) : Types g labels [.cond c none] [.i32] [] :=
  types_singleton fun _ _ => if_pos h.body

theorem types_condElse (hc : Closes g labels c) (hd : Closes g labels d) :
    Types g labels [.cond c (some d)] [.i32] [] := by
  have hbodies : ((checkAll g labels c .fresh).any Stack.isEmpty
      && (checkAll g labels d .fresh).any Stack.isEmpty) = true := by
    rw [hc.body, hd.body]
    rfl
  exact types_singleton fun _ _ => if_pos hbodies

end Fragments

theorem Func.valid_of_closes {m : Module} {f : Func} {c : Code} (h : Closes (f.setting m) [] c)
    (hbody : f.body = c ++ if f.hasResult then [.const 0] else []) : f.valid m = true := by
  unfold Func.valid
  rcases h .fresh with ⟨s, hc, hs⟩
  rw [hbody, checkAll_append, hc, Func.signature]
  -- The end of the body has no cells, or is not reached; either way the zero is the only one.
  cases f.hasResult <;> rcases hs with rfl | rfl <;> rfl

end Codegen.Wasm
