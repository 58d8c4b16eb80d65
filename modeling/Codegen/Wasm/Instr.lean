import Codegen.Context.Symbol

/-!
# WebAssembly Instructions

The instructions that the generator uses, as data. Blocks, loops and conditionals
contain their bodies, so nesting is a matter of the type and every branch stands
inside the construct it can refer to.
-/

namespace Codegen.Wasm

/-- Operations that only work on the operand stack. -/
inductive NumOp where
  | add | sub | mul | divS | remS | and | or | shl | shrU
  | eq | ne | ltS | leS | gtS | geS | eqz
  | fadd | fsub | fmul | fdiv | fneg
  | feq | fne | flt | fle | fgt | fge
  | eqz32 | mul32 | add32
  | extendU | wrap
  | toBits | ofBits | ofInteger | toInteger
  deriving DecidableEq, Repr

/-- Instructions. -/
inductive Instr where
  | const (value : Int)
  | const32 (value : Int)
  | num (op : NumOp)
  | localGet (index : Nat)
  | localSet (index : Nat)
  | localTee (index : Nat)
  | globalGet (name : Bytes)
  | globalSet (name : Bytes)
  | load
  | store
  | call (name : Bytes)
  | drop
  | nop
  | ret
  | br (target : Label)
  | brIf (target : Label)
  | block (label : Label) (body : List Instr)
  | loop (label : Label) (body : List Instr)
  | cond (yes : List Instr) (no : Option (List Instr))
  | comment (text : Bytes)
  deriving Repr

/-- A fragment. -/
abbrev Code := List Instr

/-- A function: its name, the name it is exported under, its cells and its body. -/
structure Func where
  name : Bytes
  exportName : Option Bytes := none
  params : Nat := 0
  hasResult : Bool := false
  locals : Nat := 0
  body : Code
  deriving Repr

/-- A module: the number of memory pages, its globals, functions and helpers, and
    the contents of its memory. -/
structure Module where
  pages : Int
  globals : List Bytes
  funcs : List Func
  helpers : List Func
  data : Bytes
  deriving Repr

end Codegen.Wasm
