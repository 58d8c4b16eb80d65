import Codegen.Proofs.Wasm.Machine
import Codegen.Wasm.Primitive
import Mathlib.Algebra.Group.Nat.Defs

/-!
# Fat Results in One Cell

A function returns one cell, so a fat result is packed: the offset goes to the upper half and the
length to the lower, and the caller takes them apart again. Each of the two fragments needs a cell
for a while, the scratch cell of the function that it stands in.

Only half a cell is left for each number. Those below 2 ^ 32 come back as they were, and of all
others the lower half does.

## Theorems

* `unpack_pack`: Results are unpacked as they were packed.
-/

namespace Codegen.Wasm

variable (offset length word : Int64) (m : Machine) (scratch : Nat) (s : List Cell)

/-- The lower half of a word. -/
def low : Int64 := .ofNat (word.toBitVec.toNat % 2 ^ 32)

/-- The upper half of a word. -/
def high : Int64 := .ofNat (word.toBitVec.toNat / 2 ^ 32)

/-- An offset and a length in one word. -/
def packed : Int64 :=
  .ofNat (offset.toBitVec.toNat % 2 ^ 32 * 2 ^ 32 + length.toBitVec.toNat % 2 ^ 32)

section Halves

variable {n : Nat} {word}

theorem toNat_ofNat (h : n < 2 ^ 64) : (Int64.ofNat n).toBitVec.toNat = n := by
  rw [Int64.toBitVec_ofNat', BitVec.toNat_ofNat, Nat.mod_eq_of_lt h]

theorem eq_ofNat (h : word.toBitVec.toNat = n) : word = .ofNat n := by
  rw [← h, ← Int64.toBitVec_inj, Int64.toBitVec_ofNat', BitVec.ofNat_toNat, BitVec.setWidth_eq]

theorem low_of_lt (h : word.toBitVec.toNat < 2 ^ 32) : low word = word := by
  rw [low, Nat.mod_eq_of_lt h, ← eq_ofNat rfl]

end Halves

theorem toNat_packed : (packed offset length).toBitVec.toNat =
    offset.toBitVec.toNat % 2 ^ 32 * 2 ^ 32 + length.toBitVec.toNat % 2 ^ 32 :=
  toNat_ofNat (by omega)

/-- The lower half of a packed word. -/
theorem low_packed : low (packed offset length) = low length := by
  rw [low, toNat_packed, Nat.mul_add_mod_self_right, Nat.mod_mod, low]

/-- The upper half of a packed word. -/
theorem high_packed : high (packed offset length) = low offset := by
  rw [high, toNat_packed]
  congr 1
  omega

theorem and_mask : word &&& Int64.ofInt 4294967295 = low word :=
  eq_ofNat ((BitVec.toNat_and _ _).trans (Nat.and_two_pow_sub_one_eq_mod _ 32))

theorem shiftRight_eq_high : Int64.ofBitVec (word.toBitVec >>> 32) = high word :=
  eq_ofNat ((BitVec.toNat_ushiftRight _ _).trans (Nat.shiftRight_eq_div_pow _ _))

theorem shiftLeft_or :
    Int64.ofBitVec (offset.toBitVec <<< 32) ||| low length = packed offset length := by
  refine eq_ofNat ?_
  have hshift : offset.toBitVec.toNat * 2 ^ 32 % 2 ^ 64 =
      offset.toBitVec.toNat % 2 ^ 32 * 2 ^ 32 := by omega
  rw [Int64.toBitVec_or, BitVec.toNat_or, low, toNat_ofNat (by omega), Int64.toBitVec_ofBitVec,
    BitVec.toNat_shiftLeft, Nat.shiftLeft_eq, hshift, ← Nat.shiftLeft_eq,
    ← Nat.shiftLeft_add_eq_or_of_lt (Nat.mod_lt _ (by omega))]

/-- Packing leaves one word. -/
theorem run_pack :
    run (pack scratch) { m with stack := .i64 length :: .i64 offset :: s } =
      .ok { m with
        stack := .i64 (packed offset length) :: s
        locals := fun k => if k = scratch then length else m.locals k } := by
  simp only [pack, run_cons, Instr.step, Machine.push, NumOp.apply, Except.bind, Except.map,
    and_mask, ← shiftLeft_or]
  rfl

/-- Unpacking leaves its halves. -/
theorem run_unpack :
    run (unpack scratch) { m with stack := .i64 word :: s } =
      .ok { m with
        stack := .i64 (low word) :: .i64 (high word) :: s
        locals := fun k => if k = scratch then word else m.locals k } := by
  simp only [unpack, run_cons, Instr.step, Machine.push, NumOp.apply, Except.bind, Except.map,
    and_mask, ← shiftRight_eq_high]
  rfl

/-- Machines that differ in one local at most. -/
structure SameBut (index : Nat) (before after : Machine) : Prop where
  globals : after.globals = before.globals
  locals : ∀ k ≠ index, after.locals k = before.locals k

/-- A function that packs a result leaves one cell, and a caller that unpacks it has the lower
    halves of the two numbers, or the numbers if they are small enough. Both change their
    scratch cells only. -/
theorem unpack_pack (callee caller : Machine) (scratch scratch' : Nat) (t : List Cell) :
    ∃ cell callee' caller',
      run (pack scratch) { callee with stack := .i64 length :: .i64 offset :: s } = .ok callee' ∧
        callee'.stack = cell :: s ∧ SameBut scratch callee callee' ∧
      run (unpack scratch') { caller with stack := cell :: t } = .ok caller' ∧
        caller'.stack = .i64 (low length) :: .i64 (low offset) :: t ∧
        SameBut scratch' caller caller' ∧
        (offset.toBitVec.toNat < 2 ^ 32 → length.toBitVec.toNat < 2 ^ 32 →
          caller'.stack = .i64 length :: .i64 offset :: t) := by
  refine ⟨.i64 (packed offset length), _, _, run_pack .., rfl, ⟨rfl, fun k hk => if_neg hk⟩,
    run_unpack .., ?_, ⟨rfl, fun k hk => if_neg hk⟩, fun hoffset hlength => ?_⟩
  · rw [low_packed, high_packed]
  · rw [low_packed, high_packed, low_of_lt hoffset, low_of_lt hlength]

end Codegen.Wasm
