import Codegen.Ast.Operator
import Codegen.Context.Basic
import Codegen.Wasm.Instr

/-!
# WebAssembly Code Fragments

The fragments that lowering is built from. Every value is one cell of 64 bits, or
two when it is fat: an offset and, on top of it, a length. Locals are numbered by
slots, so parameters come first, then a scratch cell, then everything else.

A function returns at most one cell. A fat result is packed into it, the offset in
the upper half and the length in the lower.
-/

namespace Codegen.Wasm

/-- Zeros in place of a value. -/
def zero (rep : Rep) : Code := List.replicate rep.words (.const 0)

/-- Takes cells off the stack. -/
def discard (cells : Nat) : Code := List.replicate cells .drop

def lengthCell (storage : Bytes) : Bytes := storage ++ "_len"

/-- The value of a variable. -/
def load (sym : Symbol) : Code :=
  match sym.global, sym.type.rep with
  | true, .fat => [.globalGet sym.storage, .globalGet (lengthCell sym.storage)]
  | true, .scalar => [.globalGet sym.storage]
  | false, .fat => [.localGet sym.slot.toNat, .localGet (sym.slot.toNat + 1)]
  | false, .scalar => [.localGet sym.slot.toNat]

/-- Puts a value into a variable. -/
def store (sym : Symbol) : Code :=
  match sym.global, sym.type.rep with
  | true, .fat => [.globalSet (lengthCell sym.storage), .globalSet sym.storage]
  | true, .scalar => [.globalSet sym.storage]
  | false, .fat => [.localSet (sym.slot.toNat + 1), .localSet sym.slot.toNat]
  | false, .scalar => [.localSet sym.slot.toNat]

/-- Makes one cell of an offset and a length. -/
def pack (scratch : Nat) : Code :=
  [.localSet scratch, .const 32, .num .shl, .localGet scratch, .const 4294967295, .num .and,
   .num .or]

/-- Makes an offset and a length of one cell. -/
def unpack (scratch : Nat) : Code :=
  [.localTee scratch, .const 32, .num .shrU, .localGet scratch, .const 4294967295, .num .and]

def arithOp : Arith → NumOp
  | .add => .add
  | .sub => .sub
  | .mul => .mul
  | .div => .divS
  | .rem => .remS

def compareOp : Compare → NumOp
  | .eq => .eq
  | .ne => .ne
  | .lt => .ltS
  | .le => .leS
  | .gt => .gtS
  | .ge => .geS

def floatOp? : Arith → Option NumOp
  | .add => some .fadd
  | .sub => some .fsub
  | .mul => some .fmul
  | .div => some .fdiv
  | .rem => none

def floatCompareOp : Compare → NumOp
  | .eq => .feq
  | .ne => .fne
  | .lt => .flt
  | .le => .fle
  | .gt => .fgt
  | .ge => .fge

/-- The integer operation on two cells, if the operator has one. -/
def integerOp? : BinaryOp → Option Code
  | .arith op => some [.num (arithOp op)]
  | .compare op => some [.num (compareOp op), .num .extendU]
  | .logic _ => none

/-- The decimal operation on two numbers, if the operator has one. -/
def decimalOp? : BinaryOp → Option Code
  | .arith op => (floatOp? op).map fun op => [.num op, .num .toBits]
  | .compare op => some [.num (floatCompareOp op), .num .extendU]
  | .logic _ => none

def toFloat (type : Ty) : Code := [.num (if type = .decimal then .ofBits else .ofInteger)]

def truth : Code := [.const 0, .num .ne]

def placeholder : Code := [.nop, .const 0]

/-- The module under construction. -/
structure Output where
  globals : List Bytes := []
  funcs : List Func := []
  helpers : List Func := []
  deriving Repr

/-- Operations on the module under construction. -/
abbrev Emit := StateT Output Gen

def emitGlobal (name : Bytes) : Emit Unit :=
  modify fun out => { out with globals := out.globals ++ [name] }

def emitFunc (f : Func) : Emit Unit := modify fun out => { out with funcs := out.funcs ++ [f] }

def emitHelper (f : Func) : Emit Unit :=
  modify fun out => { out with helpers := out.helpers ++ [f] }

def printBoolName : Bytes := "$print_bool"

def printIntegerName : Bytes := "$print_i64"

def printTextName : Bytes := "$print_str"

def literal32 (lit : Literal) : Code := [.const32 lit.offset, .const32 lit.length]

/-- The name of the helper that prints truth values, which is emitted on first use
    together with its two literals. -/
def requestPrintBool : Emit Bytes := do
  let _ ← requestHelper printBoolName do
    let yes ← Gen.addLiteral "true"
    let no ← Gen.addLiteral "false"
    emitHelper
      { name := printBoolName
        params := 1
        body := [.localGet 0, .num .eqz, .cond (literal32 no) (some (literal32 yes)),
          .call printTextName] }
  return printBoolName

end Codegen.Wasm
