import Codegen.Context.Symbol

/-!
# AArch64 Instructions

The instructions that the generator uses, as data. A fragment of code is a list
of lines, and fragments are put together with `++`, so what a fragment does can
be stated by running it, without a parser for assembly in between. The text is a
function of the lines (`Codegen.Arm64.Text`).

Symbols are written without the decoration of an object format.
-/

namespace Codegen.Arm64

/-- General registers and the stack pointer. -/
inductive Reg where
  | x (n : Nat)
  | sp
  deriving DecidableEq, Repr

def Reg.fp : Reg := .x 29

def Reg.lr : Reg := .x 30

/-- Addressing modes. -/
inductive Addr where
  /-- The address in a register. -/
  | base (r : Reg)
  /-- A register plus an offset. -/
  | offset (r : Reg) (bytes : Nat)
  /-- A register minus an offset. -/
  | back (r : Reg) (bytes : Int)
  /-- A register that is lowered by an offset before it is used. -/
  | preDecrement (r : Reg) (bytes : Nat)
  /-- A register that is raised by an offset after it is used. -/
  | postIncrement (r : Reg) (bytes : Nat)
  /-- The sum of two registers. -/
  | sum (r index : Reg)
  /-- A register plus eight times another. -/
  | word (r index : Reg)
  deriving DecidableEq, Repr

/-- Conditions. `mi` and `ls` are the ordered "less" and "at most" of decimals. -/
inductive Cond where
  | eq | ne | lt | le | gt | ge | mi | ls
  deriving DecidableEq, Repr

/-- Operations on two words. -/
inductive WordOp where
  | add | sub | mul | sdiv | and | orr
  deriving DecidableEq, Repr

/-- Operations on two decimals. -/
inductive FloatOp where
  | fadd | fsub | fmul | fdiv
  deriving DecidableEq, Repr

/-- Instructions. Decimal registers are given by their number. -/
inductive Instr where
  | movImm (rd : Reg) (value : Int)
  | mov (rd rn : Reg)
  | movz (rd : Reg) (chunk : Nat)
  | movk (rd : Reg) (chunk shift : Nat)
  /-- The page of a symbol. -/
  | adrp (rd : Reg) (symbol : Bytes)
  /-- A register plus the place of a symbol in its page. -/
  | addPageOffset (rd rn : Reg) (symbol : Bytes)
  | addImm (rd rn : Reg) (value : Nat)
  | subImm (rd rn : Reg) (value : Nat)
  | word (op : WordOp) (rd rn rm : Reg)
  | msub (rd rn rm ra : Reg)
  | neg (rd rn : Reg)
  | ldur (rt : Reg) (addr : Addr)
  | stur (rt : Reg) (addr : Addr)
  | ldr (rt : Reg) (addr : Addr)
  | str (rt : Reg) (addr : Addr)
  | ldp (rt ru : Reg) (addr : Addr)
  | stp (rt ru : Reg) (addr : Addr)
  | cmp (rn rm : Reg)
  | cmpImm (rn : Reg) (value : Nat)
  | cset (rd : Reg) (cond : Cond)
  | csel (rd rn rm : Reg) (cond : Cond)
  | fmovIn (d : Nat) (rn : Reg)
  | fmovOut (rd : Reg) (d : Nat)
  | float (op : FloatOp) (d a b : Nat)
  | fneg (d a : Nat)
  | fcmp (a b : Nat)
  | scvtf (d : Nat) (rn : Reg)
  | branch (target : Label)
  | branchIf (cond : Cond) (target : Label)
  | cbz (rt : Reg) (target : Label)
  | bl (symbol : Bytes)
  | ret
  deriving DecidableEq, Repr

/-- A line of a code section. -/
inductive Line where
  | instr (i : Instr)
  | label (l : Label)
  | comment (text : Bytes)
  /-- The symbol of a routine; `exported` ones are visible to the linker. -/
  | routine (symbol : Bytes) (exported : Bool)
  deriving DecidableEq, Repr

/-- A fragment. -/
abbrev Code := List Line

instance : Coe Instr Line := ⟨.instr⟩

def code (is : List Instr) : Code := is.map .instr

end Codegen.Arm64
