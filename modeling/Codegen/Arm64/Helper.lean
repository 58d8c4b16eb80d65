import Codegen.Arm64.Primitive
import Codegen.Arm64.Text
import Codegen.Context.Basic

/-!
# AArch64 Output and Helper Routines

Lowering returns the code of a fragment and adds to the other sections of the
program as it goes: literals, storage, and helper routines. A helper is a small
routine around `printf`, emitted the first time it is needed. On Darwin variadic
arguments are passed on the stack, so a helper reserves space for them below its
frame record.
-/

namespace Codegen.Arm64

/-- A program under construction, and the number of array literals in it. -/
structure Output extends Program where
  arrays : Nat := 0
  deriving DecidableEq, Repr

/-- Operations that add to them. -/
abbrev Emit := StateT Output Gen

def emit (c : Code) : Emit Unit := modify fun out => { out with code := out.code ++ c }

def emitHelper (c : Code) : Emit Unit := modify fun out => { out with helpers := out.helpers ++ c }

/-- Adds zeroed storage. -/
def reserveStorage (symbol : Bytes) (size : Nat) : Emit Unit :=
  modify fun out => { out with storage := out.storage ++ [⟨symbol, size⟩] }

def emitConstant (c : Constant) : Emit Unit :=
  modify fun out => { out with constants := out.constants ++ [c] }

def literalSymbol (lit : Literal) : Bytes := "kw_" ++ lit.label

/-- Adds the bytes of a string literal. -/
def emitLiteral (lit : Literal) : Emit Unit := emitConstant ⟨literalSymbol lit, lit.bytes, false⟩

/-- Adds a string of a helper, once. -/
def constantString (symbol contents : Bytes) : Emit Unit := do
  let _ ← requestHelper symbol (emitConstant ⟨symbol, contents, true⟩)

/-- The helpers, by what they print. -/
inductive Printer where
  | integer | text | boolean | decimal
  deriving DecidableEq, Repr

namespace Printer

def symbol : Printer → Bytes
  | .integer => "kw_print_int"
  | .text => "kw_print_text"
  | .boolean => "kw_print_bool"
  | .decimal => "kw_print_decimal"

def format : Printer → Bytes
  | .integer => "kw_fmt_int"
  | .text => "kw_fmt_text"
  | .boolean => "kw_fmt_str"
  | .decimal => "kw_fmt_decimal"

/-- The strings that a helper uses, its format first. A text has no terminator, so
    its length is passed as a precision. -/
def strings : Printer → List (Bytes × Bytes)
  | .integer => [("kw_fmt_int", "%ld\n")]
  | .text => [("kw_fmt_text", "%.*s\n")]
  | .boolean => [("kw_fmt_str", "%s\n"), ("kw_true", "true"), ("kw_false", "false")]
  | .decimal => [("kw_fmt_decimal", "%g\n")]

/-- Puts the value in place for `printf`. -/
def arguments : Printer → Flavor → Code
  | .integer, .linux => code [.mov x1 x0]
  | .integer, .darwin => code [.str x0 (.base .sp)]
  | .text, .linux => code [.mov x2 x0]
  | .text, .darwin => code [.stp x1 x0 (.base .sp)]
  | .boolean, flavor =>
    loadAddress x9 "kw_true" ++ loadAddress x10 "kw_false"
      ++ code [.cmpImm x0 0, .csel x1 x9 x10 .ne]
      ++ (if flavor = .darwin then code [.str x1 (.base .sp)] else [])
  | .decimal, .linux => code [.fmovIn 0 x0]
  | .decimal, .darwin => code [.str x0 (.base .sp)]

def routine (printer : Printer) (flavor : Flavor) : Code :=
  [.routine printer.symbol false] ++ openFrame
    ++ (if flavor = .darwin then code [.subImm .sp .sp 16] else [])
    ++ printer.arguments flavor
    ++ loadAddress x0 printer.format ++ code [.bl "printf"]
    ++ closeFrame

/-- The symbol of a helper, emitted on first use. -/
def request (printer : Printer) (flavor : Flavor) : Emit Bytes := do
  let _ ← requestHelper printer.symbol do
    for (symbol, contents) in printer.strings do
      constantString symbol contents
    emitHelper (printer.routine flavor)
  return printer.symbol

end Printer

end Codegen.Arm64
