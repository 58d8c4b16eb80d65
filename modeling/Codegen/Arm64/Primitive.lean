import Codegen.Arm64.Instr
import Codegen.Ast.Ty
import Codegen.Number.Integer

/-!
# AArch64 Code Fragments

The fragments that lowering is built from.

Argument words are passed in `x0` to `x7`. A scalar value is in `x0`, a fat one in
`x0` (pointer) and `x1` (length). Values that have to outlive other code are kept
on the stack in steps of sixteen bytes.

The frame pointer holds the address of the saved frame record. Slot `n` of a
frame is the word eight times `n + 1` bytes below it.
-/

namespace Codegen.Arm64

/-- The register of a scalar value, and of the pointer of a fat one. -/
def x0 : Reg := .x 0

def x1 : Reg := .x 1

def x2 : Reg := .x 2

def x9 : Reg := .x 9

def x10 : Reg := .x 10

def chunk (value : UInt64) (shift : Nat) : Nat := value.toNat / Nat.pow 2 shift % 0x10000

/-- Whether one `mov` can load a value. -/
def isShort (value : Int64) : Bool := -65536 ≤ value.toInt && value.toInt ≤ 65535

def highChunks (r : Reg) (value : UInt64) : Code :=
  [16, 32, 48].flatMap fun shift =>
    if chunk value shift = 0 then [] else [.instr (.movk r (chunk value shift) shift)]

/-- Loads a constant. A value that no single move can load is put together from
    chunks of sixteen bits. -/
def loadImm (r : Reg) (value : Int64) : Code :=
  if isShort value then [.instr (.movImm r value.toInt)]
  else .instr (.movz r (chunk value.toUInt64 0)) :: highChunks r value.toUInt64

def loadNat (r : Reg) (n : Nat) : Code := loadImm r (Int64.ofNat n)

/-- The address of a symbol into a register. -/
def loadAddress (r : Reg) (symbol : Bytes) : Code :=
  code [.adrp r symbol, .addPageOffset r r symbol]

def slotOffset (slot : Int) : Int := (slot + 1) * 8

/-- The same in 64 bits, which is what the code has to do with. -/
def slotDistance (slot : Int) : Int := Integer.narrow (slotOffset slot)

def slotAddress (offset : Nat) : Code :=
  if offset ≤ 4095 then code [.subImm x9 .fp offset]
  else loadNat x10 offset ++ code [.word .sub x9 .fp x10]

/-- A register into a word of the frame. -/
def storeSlot (r : Reg) (slot : Int) : Code :=
  let offset := slotDistance slot
  if offset ≤ 256 then code [.stur r (.back .fp offset)]
  else slotAddress offset.toNat ++ code [.str r (.base x9)]

/-- A word of the frame into a register. -/
def loadSlot (r : Reg) (slot : Int) : Code :=
  let offset := slotDistance slot
  if offset ≤ 256 then code [.ldur r (.back .fp offset)]
  else slotAddress offset.toNat ++ code [.ldr r (.base x9)]

/-- Puts a value on the stack. -/
def push : Rep → Code
  | .fat => code [.stp x0 x1 (.preDecrement .sp 16)]
  | .scalar => code [.str x0 (.preDecrement .sp 16)]

/-- Takes a value from the stack into a register, and the next one when it is fat. -/
def pop (rep : Rep) (n : Nat) : Code :=
  match rep with
  | .fat => code [.ldp (.x n) (.x (n + 1)) (.postIncrement .sp 16)]
  | .scalar => code [.ldr (.x n) (.postIncrement .sp 16)]

/-- A zero in place of a value. -/
def zero : Rep → Code
  | .fat => code [.movImm x0 0, .movImm x1 0]
  | .scalar => code [.movImm x0 0]

/-- The value of a variable. -/
def load (sym : Symbol) : Code :=
  match sym.global, sym.type.rep with
  | true, .fat => loadAddress x9 sym.storage ++ code [.ldp x0 x1 (.base x9)]
  | true, .scalar => loadAddress x9 sym.storage ++ code [.ldr x0 (.base x9)]
  | false, .fat => loadSlot x0 sym.slot ++ loadSlot x1 (sym.slot + 1)
  | false, .scalar => loadSlot x0 sym.slot

/-- Puts a value into a variable. -/
def store (sym : Symbol) : Code :=
  match sym.global, sym.type.rep with
  | true, .fat => loadAddress x9 sym.storage ++ code [.stp x0 x1 (.base x9)]
  | true, .scalar => loadAddress x9 sym.storage ++ code [.str x0 (.base x9)]
  | false, .fat => storeSlot x0 sym.slot ++ storeSlot x1 (sym.slot + 1)
  | false, .scalar => storeSlot x0 sym.slot

/-- The bytes of a frame of local words, a multiple of sixteen. -/
def frameSize (words : Nat) : Nat :=
  let size := words * 8
  if size % 16 != 0 then size + (16 - size % 16) else size

def openFrame : Code := code [.stp .fp .lr (.preDecrement .sp 16), .mov .fp .sp]

def closeFrame : Code := code [.mov .sp .fp, .ldp .fp .lr (.postIncrement .sp 16), .ret]

def reserveFrame (size : Nat) : Code :=
  if size = 0 then []
  else if size ≤ 4095 then code [.subImm .sp .sp size]
  else loadNat x9 size ++ code [.word .sub .sp .sp x9]

/-- The beginning of a function, with a frame of some words. -/
def prologue (symbol : Bytes) (words : Nat) : Code :=
  [.routine symbol true] ++ openFrame ++ reserveFrame (frameSize words)

/-- Ends a function; its `return` statements come here. -/
def epilogue (ret : Label) : Code := [.label ret] ++ closeFrame

def toDecimalBits (type : Ty) : Code :=
  if type = .decimal then [] else code [.scvtf 0 x0, .fmovOut x0 0]

end Codegen.Arm64
