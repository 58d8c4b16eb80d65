import Codegen.Wasm.Instr
import Mathlib.Algebra.Group.Int.Defs

/-!
# A WebAssembly Machine

What straight-line code does: an operand stack of cells of 32 and 64 bits, and
locals and globals of 64 bits. Operations take their operands from the stack and
leave their result there, and each of them asks for cells of a certain width.

Code stops for two reasons, which are kept apart. It traps where the operation has
no result, which is a property of the values, and it is invalid where the cells
are not those that the operation asks for, which validation would have refused.
Branches, calls, memory and decimals are not part of straight-line integer code,
and count as invalid here.
-/

namespace Codegen.Wasm

/-- A cell of the operand stack. -/
inductive Cell where
  | i32 (v : BitVec 32)
  | i64 (v : Int64)
  deriving DecidableEq

/-- Why code stops. -/
inductive Stop where
  | trap
  | invalid
  deriving DecidableEq

/-- A machine; the top of the operand stack comes first. -/
structure Machine where
  stack : List Cell
  locals : Nat → Int64
  globals : Bytes → Int64

def Machine.push (m : Machine) (c : Cell) : Machine := { m with stack := c :: m.stack }

def Cell.truth (b : Bool) : Cell := .i32 (if b then 1 else 0)

/-- The signed quotient, rounded toward zero. There is none by zero, and none that
    is too large. -/
def quotient (a b : Int64) : Except Stop Int64 :=
  if b.toInt = 0 then .error .trap
  else if a.toInt.tdiv b.toInt = 2 ^ 63 then .error .trap
  else .ok (Int64.ofInt (a.toInt.tdiv b.toInt))

/-- The signed remainder, with the sign of the dividend. There is none by zero. -/
def remainder (a b : Int64) : Except Stop Int64 :=
  if b.toInt = 0 then .error .trap else .ok (Int64.ofInt (a.toInt.tmod b.toInt))

/-- An operation on the operand stack. -/
def NumOp.apply (op : NumOp) (stack : List Cell) : Except Stop (List Cell) :=
  match op, stack with
  | .add, .i64 b :: .i64 a :: s => .ok (.i64 (a + b) :: s)
  | .sub, .i64 b :: .i64 a :: s => .ok (.i64 (a - b) :: s)
  | .mul, .i64 b :: .i64 a :: s => .ok (.i64 (a * b) :: s)
  | .divS, .i64 b :: .i64 a :: s => (quotient a b).map (.i64 · :: s)
  | .remS, .i64 b :: .i64 a :: s => (remainder a b).map (.i64 · :: s)
  | .and, .i64 b :: .i64 a :: s => .ok (.i64 (a &&& b) :: s)
  | .or, .i64 b :: .i64 a :: s => .ok (.i64 (a ||| b) :: s)
  | .shl, .i64 b :: .i64 a :: s => .ok (.i64 (.ofBitVec (a.toBitVec <<< (b.toBitVec.toNat % 64))) :: s)
  | .shrU, .i64 b :: .i64 a :: s => .ok (.i64 (.ofBitVec (a.toBitVec >>> (b.toBitVec.toNat % 64))) :: s)
  | .eq, .i64 b :: .i64 a :: s => .ok (.truth (a.toInt = b.toInt) :: s)
  | .ne, .i64 b :: .i64 a :: s => .ok (.truth (a.toInt ≠ b.toInt) :: s)
  | .ltS, .i64 b :: .i64 a :: s => .ok (.truth (a.toInt < b.toInt) :: s)
  | .leS, .i64 b :: .i64 a :: s => .ok (.truth (a.toInt ≤ b.toInt) :: s)
  | .gtS, .i64 b :: .i64 a :: s => .ok (.truth (a.toInt > b.toInt) :: s)
  | .geS, .i64 b :: .i64 a :: s => .ok (.truth (a.toInt ≥ b.toInt) :: s)
  | .eqz, .i64 a :: s => .ok (.truth (a.toInt = 0) :: s)
  | .eqz32, .i32 a :: s => .ok (.truth (a = 0) :: s)
  | .mul32, .i32 b :: .i32 a :: s => .ok (.i32 (a * b) :: s)
  | .add32, .i32 b :: .i32 a :: s => .ok (.i32 (a + b) :: s)
  | .extendU, .i32 a :: s => .ok (.i64 (Int64.ofNat a.toNat) :: s)
  | .wrap, .i64 a :: s => .ok (.i32 (a.toBitVec.setWidth 32) :: s)
  | _, _ => .error .invalid

/-- One instruction. -/
def Instr.step (m : Machine) : Instr → Except Stop Machine
  | .const value => .ok (m.push (.i64 (Int64.ofInt value)))
  | .const32 value => .ok (m.push (.i32 (BitVec.ofInt 32 value)))
  | .num op => (op.apply m.stack).map fun s => { m with stack := s }
  | .localGet index => .ok (m.push (.i64 (m.locals index)))
  | .localSet index =>
    match m.stack with
    | .i64 v :: s =>
      .ok { m with stack := s, locals := fun k => if k = index then v else m.locals k }
    | _ => .error .invalid
  | .localTee index =>
    match m.stack with
    | .i64 v :: _ => .ok { m with locals := fun k => if k = index then v else m.locals k }
    | _ => .error .invalid
  | .globalGet name => .ok (m.push (.i64 (m.globals name)))
  | .globalSet name =>
    match m.stack with
    | .i64 v :: s =>
      .ok { m with stack := s, globals := fun k => if k = name then v else m.globals k }
    | _ => .error .invalid
  | .drop =>
    match m.stack with
    | _ :: s => .ok { m with stack := s }
    | [] => .error .invalid
  | .nop | .comment _ => .ok m
  | .load | .store | .call _ | .ret | .br _ | .brIf _ | .block .. | .loop .. | .cond .. =>
    .error .invalid

/-- A fragment. -/
def run (c : Code) (m : Machine) : Except Stop Machine := c.foldlM Instr.step m

/-- Fragments run one after the other. -/
theorem run_append (c d : Code) (m : Machine) : run (c ++ d) m = (run c m).bind (run d) :=
  List.foldlM_append

theorem run_cons (i : Instr) (c : Code) (m : Machine) : run (i :: c) m = (i.step m).bind (run c) :=
  List.foldlM_cons

end Codegen.Wasm
