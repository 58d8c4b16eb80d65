import Codegen.Text.Bytes

/-!
# Operators

The operators that the backends know. An operator of a document is any text; a
text that names none of these is reported when code is generated for it.

`Arith.eval?` is arithmetic as it happens at run time: two's complement words,
division toward zero, and no result where the division of a target traps.
-/

namespace Codegen

/-- Operators on words with a word as result. -/
inductive Arith where
  | add | sub | mul | div | rem
  deriving DecidableEq, Repr

/-- Operators on words with a truth value as result. -/
inductive Compare where
  | eq | ne | lt | le | gt | ge
  deriving DecidableEq, Repr

/-- Operators on truth values. -/
inductive Logic where
  | and | or
  deriving DecidableEq, Repr

/-- A binary operator. -/
inductive BinaryOp where
  | arith (op : Arith)
  | compare (op : Compare)
  | logic (op : Logic)
  deriving DecidableEq, Repr

namespace BinaryOp

def text : BinaryOp → Bytes
  | .arith .add => "+"
  | .arith .sub => "-"
  | .arith .mul => "*"
  | .arith .div => "/"
  | .arith .rem => "%"
  | .compare .eq => "=="
  | .compare .ne => "!="
  | .compare .lt => "<"
  | .compare .le => "<="
  | .compare .gt => ">"
  | .compare .ge => ">="
  | .logic .and => "and"
  | .logic .or => "or"

def all : List BinaryOp :=
  [.arith .add, .arith .sub, .arith .mul, .arith .div, .arith .rem,
   .compare .eq, .compare .ne, .compare .lt, .compare .le, .compare .gt, .compare .ge,
   .logic .and, .logic .or]

/-- The operator that a text names. -/
def ofText? (text : Bytes) : Option BinaryOp := all.find? fun op => op.text == text

def isCompare : BinaryOp → Bool
  | .compare _ => true
  | _ => false

def isLogic : BinaryOp → Bool
  | .logic _ => true
  | _ => false

end BinaryOp

def isComparison (op : Bytes) : Bool := ((BinaryOp.ofText? op).map BinaryOp.isCompare).getD false

def isLogical (op : Bytes) : Bool := ((BinaryOp.ofText? op).map BinaryOp.isLogic).getD false

namespace Arith

/-- The value of an operation; none where a target traps: division and remainder
    by zero, and the quotient that no word can hold. -/
def eval? (op : Arith) (a b : Int64) : Option Int64 :=
  match op with
  | .add => some (a + b)
  | .sub => some (a - b)
  | .mul => some (a * b)
  | .div => if b = 0 || (a = Int64.minValue && b = -1) then none else some (a / b)
  | .rem => if b = 0 then none else some (a % b)

end Arith

end Codegen
