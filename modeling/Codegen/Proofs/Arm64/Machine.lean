import Codegen.Arm64.Instr

/-!
# An AArch64 Machine

What the integer instructions do: registers and a stack pointer of 64 bits,
condition flags, and a memory of bytes. Words are stored with the lowest byte
first. Arithmetic wraps around, and the quotient by zero is zero.

A symbol has an address, which the linker chooses. `adrp` yields the page of that
address and the addition after it the rest, so the two together yield the address
wherever it lies.

A fragment of straight-line code is run from its first line to its last
(`run?`). Labels and comments do nothing. Branches, calls and decimal instructions
are not part of straight-line integer code, and a fragment that has one does not
run.
-/

namespace Codegen.Arm64

/-- The contents of a register. -/
abbrev Word := BitVec 64

/-- Bytes by address. -/
abbrev Memory := Word → BitVec 8

namespace Memory

/-- The word at an address, lowest byte first. -/
def word (mem : Memory) (a : Word) : Word :=
  mem (a + 7) ++ mem (a + 6) ++ mem (a + 5) ++ mem (a + 4) ++ mem (a + 3) ++ mem (a + 2)
    ++ mem (a + 1) ++ mem a

/-- The memory with another word at an address. -/
def store (mem : Memory) (a v : Word) : Memory := fun b =>
  if (b - a).toNat < 8 then v.extractLsb' (8 * (b - a).toNat) 8 else mem b

theorem word_eq (mem : Memory) (a : Word) (bytes : Nat → BitVec 8)
    (h : ∀ i < 8, mem (a + BitVec.ofNat 64 i) = bytes i) :
    mem.word a = bytes 7 ++ bytes 6 ++ bytes 5 ++ bytes 4 ++ bytes 3 ++ bytes 2 ++ bytes 1
      ++ bytes 0 := by
  have h0 := h 0 (by omega)
  rw [show a + BitVec.ofNat 64 0 = a from BitVec.add_zero a] at h0
  rw [← h0, ← h 1 (by omega), ← h 2 (by omega), ← h 3 (by omega), ← h 4 (by omega),
    ← h 5 (by omega), ← h 6 (by omega), ← h 7 (by omega)]
  rfl

/-- A word depends on its eight bytes. -/
theorem word_congr (mem mem' : Memory) (a : Word)
    (h : ∀ i : Nat, i < 8 → mem' (a + BitVec.ofNat 64 i) = mem (a + BitVec.ofNat 64 i)) :
    mem'.word a = mem.word a := by
  rw [word_eq mem' a _ h, word_eq mem a (fun i => mem (a + BitVec.ofNat 64 i)) fun _ _ => rfl]

theorem store_apart (mem : Memory) (a v b : Word) (h : 8 ≤ (b - a).toNat) :
    mem.store a v b = mem b := by
  unfold store
  rw [if_neg (by omega)]

theorem store_at (mem : Memory) (a v : Word) (i : Nat) (h : i < 8) :
    mem.store a v (a + BitVec.ofNat 64 i) = v.extractLsb' (8 * i) 8 := by
  have hd : (a + BitVec.ofNat 64 i - a).toNat = i := by
    rw [BitVec.add_comm, BitVec.add_sub_cancel, BitVec.toNat_ofNat]
    omega
  unfold store
  rw [hd, if_pos h]

theorem bytes_append (v : Word) :
    (v.extractLsb' 56 8 ++ v.extractLsb' 48 8 ++ v.extractLsb' 40 8 ++ v.extractLsb' 32 8
      ++ v.extractLsb' 24 8 ++ v.extractLsb' 16 8 ++ v.extractLsb' 8 8 ++ v.extractLsb' 0 8
      : Word) = v := by
  have happend (i n : Nat) :
      v.extractLsb' (i + 8) n ++ v.extractLsb' i 8 = v.extractLsb' i (n + 8) :=
    BitVec.extractLsb'_append_extractLsb'_eq_extractLsb' rfl
  rw [happend 48, happend 40, happend 32, happend 24, happend 16, happend 8, happend 0]
  exact BitVec.extractLsb'_eq_self

/-- A word reads as it was stored. -/
theorem word_store (mem : Memory) (a v : Word) : (mem.store a v).word a = v :=
  (word_eq _ a _ (store_at mem a v)).trans (bytes_append v)

end Memory

/-- The condition flags. -/
structure Flags where
  negative : Bool
  zero : Bool
  carry : Bool
  overflow : Bool

namespace Flags

/-- The flags after a comparison, which are those of the difference: its sign,
    whether it is zero, whether it needs no borrow, and whether it is not the exact
    one. -/
def compare (a b : Word) : Flags :=
  { negative := (a - b).toInt < 0
    zero := a - b = 0
    carry := b.toNat ≤ a.toNat
    overflow := (a - b).toInt ≠ a.toInt - b.toInt }

end Flags

/-- Whether a condition holds in these flags. -/
def Cond.holds (f : Flags) : Cond → Bool
  | .eq => f.zero
  | .ne => !f.zero
  | .lt => f.negative != f.overflow
  | .le => f.zero || f.negative != f.overflow
  | .gt => !f.zero && f.negative == f.overflow
  | .ge => f.negative == f.overflow
  | .mi => f.negative
  | .ls => !f.carry || f.zero

namespace Flags

/-- The flags of a difference tell which word is the smaller one: a difference
    that overflows has the wrong sign. -/
theorem compare_less (a b : Word) :
    ((compare a b).negative != (compare a b).overflow) = decide (a.toInt < b.toInt) := by
  have ha := @BitVec.toInt_lt 64 a
  have hb := @BitVec.toInt_lt 64 b
  have ha' := @BitVec.le_toInt 64 a
  have hb' := @BitVec.le_toInt 64 b
  have hd : (a - b).toInt = a.toInt - b.toInt ∨ (a - b).toInt = a.toInt - b.toInt + 2 ^ 64 ∨
      (a - b).toInt = a.toInt - b.toInt - 2 ^ 64 := by
    rw [BitVec.toInt_sub, Int.bmod_def]
    omega
  have hr := @BitVec.toInt_lt 64 (a - b)
  have hr' := @BitVec.le_toInt 64 (a - b)
  simp only [compare]
  by_cases hover : (a - b).toInt = a.toInt - b.toInt
  · simp only [hover, ne_eq, not_true_eq_false, decide_false, Bool.bne_false, decide_eq_decide]
    omega
  · simp only [hover, ne_eq, not_false_eq_true, decide_true, Bool.bne_true, ← decide_not,
      decide_eq_decide]
    omega

/-- The zero flag says whether two words are equal. -/
theorem compare_zero (a b : Word) : (compare a b).zero = decide (a = b) := by
  simp only [compare, decide_eq_decide]
  bv_omega

end Flags

/-- A machine: registers by number, the stack pointer, flags and memory. -/
structure Machine where
  x : Nat → Word
  sp : Word
  flags : Flags
  mem : Memory

namespace Machine

def get (m : Machine) : Reg → Word
  | .x n => m.x n
  | .sp => m.sp

def set (m : Machine) (r : Reg) (v : Word) : Machine :=
  match r with
  | .x n => { m with x := fun k => if k = n then v else m.x k }
  | .sp => { m with sp := v }

end Machine

def Addr.place (m : Machine) : Addr → Word
  | .base r => m.get r
  | .offset r bytes => m.get r + BitVec.ofNat 64 bytes
  | .back r bytes => m.get r - BitVec.ofInt 64 bytes
  | .preDecrement r bytes => m.get r - BitVec.ofNat 64 bytes
  | .postIncrement r _ => m.get r
  | .sum r index => m.get r + m.get index
  | .word r index => m.get r + 8 * m.get index

/-- Changes the base register as an addressing mode asks for. -/
def Addr.writeBack (m : Machine) : Addr → Machine
  | .preDecrement r bytes => m.set r (m.get r - BitVec.ofNat 64 bytes)
  | .postIncrement r bytes => m.set r (m.get r + BitVec.ofNat 64 bytes)
  | _ => m

/-- The result of an operation on two words. A quotient is rounded toward zero, and
    that by zero is zero. -/
def WordOp.result (op : WordOp) (a b : Word) : Word :=
  match op with
  | .add => a + b
  | .sub => a - b
  | .mul => a * b
  | .sdiv => if b = 0 then 0 else BitVec.ofInt 64 (a.toInt.tdiv b.toInt)
  | .and => a &&& b
  | .orr => a ||| b

/-- A word with sixteen of its bits replaced, from a shift on. -/
def keepInsert (v : Word) (chunk shift : Nat) : Word :=
  v &&& ~~~(0xFFFF#64 <<< shift) ||| BitVec.ofNat 64 chunk <<< shift

/-- One instruction. -/
def Instr.step? (symbols : Bytes → Word) (m : Machine) : Instr → Option Machine
  | .movImm rd value => some (m.set rd (BitVec.ofInt 64 value))
  | .mov rd rn => some (m.set rd (m.get rn))
  | .movz rd chunk => some (m.set rd (BitVec.ofNat 64 chunk))
  | .movk rd chunk shift => some (m.set rd (keepInsert (m.get rd) chunk shift))
  | .adrp rd symbol => some (m.set rd (symbols symbol &&& ~~~0xFFF#64))
  | .addPageOffset rd rn symbol => some (m.set rd (m.get rn + (symbols symbol &&& 0xFFF#64)))
  | .addImm rd rn value => some (m.set rd (m.get rn + BitVec.ofNat 64 value))
  | .subImm rd rn value => some (m.set rd (m.get rn - BitVec.ofNat 64 value))
  | .word op rd rn rm => some (m.set rd (op.result (m.get rn) (m.get rm)))
  | .msub rd rn rm ra => some (m.set rd (m.get ra - m.get rn * m.get rm))
  | .neg rd rn => some (m.set rd (-m.get rn))
  | .ldur rt addr | .ldr rt addr =>
    some ((addr.writeBack m).set rt (m.mem.word (addr.place m)))
  | .stur rt addr | .str rt addr =>
    some { addr.writeBack m with mem := m.mem.store (addr.place m) (m.get rt) }
  | .ldp rt ru addr =>
    some (((addr.writeBack m).set rt (m.mem.word (addr.place m))).set ru
      (m.mem.word (addr.place m + 8)))
  | .stp rt ru addr =>
    some { addr.writeBack m with
      mem := (m.mem.store (addr.place m) (m.get rt)).store (addr.place m + 8) (m.get ru) }
  | .cmp rn rm => some { m with flags := .compare (m.get rn) (m.get rm) }
  | .cmpImm rn value => some { m with flags := .compare (m.get rn) (BitVec.ofNat 64 value) }
  | .cset rd cond => some (m.set rd (if cond.holds m.flags then 1 else 0))
  | .csel rd rn rm cond => some (m.set rd (if cond.holds m.flags then m.get rn else m.get rm))
  | .fmovIn .. | .fmovOut .. | .float .. | .fneg .. | .fcmp .. | .scvtf .. => none
  | .branch .. | .branchIf .. | .cbz .. | .bl .. | .ret => none

/-- A fragment. -/
def run? (symbols : Bytes → Word) : Code → Machine → Option Machine
  | [], m => some m
  | .instr i :: rest, m => do run? symbols rest (← i.step? symbols m)
  | .label _ :: rest, m => run? symbols rest m
  | .comment _ :: rest, m => run? symbols rest m
  | .routine _ _ :: rest, m => run? symbols rest m

/-- Fragments run one after the other. -/
theorem run_append (symbols : Bytes → Word) (c d : Code) (m : Machine) :
    run? symbols (c ++ d) m = (run? symbols c m).bind (run? symbols d) := by
  induction c generalizing m with
  | nil => rfl
  | cons line _ ih =>
    cases line with
    | instr i =>
      simp only [List.cons_append, run?]
      cases i.step? symbols m with
      | none => rfl
      | some m' => exact ih m'
    | label => exact ih m
    | comment => exact ih m
    | routine => exact ih m

end Codegen.Arm64
