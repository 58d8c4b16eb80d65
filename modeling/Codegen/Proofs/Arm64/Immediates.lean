import Codegen.Proofs.Arm64.Fragment

/-!
# Constants and Slots within the Limits of Instructions

An instruction has room for a few bits of a constant. A move takes sixteen of them, a subtraction
twelve, and an offset from a register nine with their sign. Larger constants are put together from
chunks, and slots that are out of reach are addressed through `x9`, and through `x10` as well where
the offset itself is too large.

`Instr.Fits` says that a constant is within the limit of its instruction. What is emitted for
constants and slots fits for every word and every slot, and does what it is for.

## Theorems

* `constants_and_slots`: All of it for every word, register and slot.
-/

namespace Codegen.Arm64

open List

/-- Words that one move can load. -/
def Movable (v : Word) : Prop :=
  ∃ chunk < 65536, ∃ shift ∈ [0, 16, 32, 48],
    v = BitVec.ofNat 64 chunk <<< shift ∨ v = ~~~(BitVec.ofNat 64 chunk <<< shift)

/-- Constants within the limits of an instruction. -/
def Instr.Fits : Instr → Prop
  | .movImm _ value => Movable (BitVec.ofInt 64 value)
  | .movz _ chunk => chunk < 65536
  | .movk _ chunk shift => chunk < 65536 ∧ shift ∈ [16, 32, 48]
  | .subImm _ _ value => value ≤ 4095
  | .ldur _ (.back _ bytes) | .stur _ (.back _ bytes) => -255 ≤ bytes ∧ bytes ≤ 256
  | _ => True

/-- Instructions that access memory. -/
def Line.isAccess : Line → Bool
  | .instr (.ldur ..) | .instr (.stur ..) | .instr (.ldr ..) | .instr (.str ..)
  | .instr (.ldp ..) | .instr (.stp ..) => true
  | _ => false

def Fits (c : Code) : Prop := ∀ i, .instr i ∈ c → i.Fits

variable {c d : Code} (r : Reg)

theorem Fits.append (hc : Fits c) (hd : Fits d) : Fits (c ++ d) := fun i hi =>
  (mem_append.mp hi).elim (hc i) (hd i)

theorem fits_one {i : Instr} (h : i.Fits) : Fits (code [i]) := by
  intro j hj
  obtain rfl : j = i := by simpa [code] using hj
  exact h

theorem chunk_lt (v : UInt64) (shift : Nat) : chunk v shift < 65536 := Nat.mod_lt _ (by decide)

theorem movable_of_isShort {v : Int64} (h : isShort v = true) : Movable (BitVec.ofInt 64 v.toInt) := by
  simp only [isShort, Bool.and_eq_true, decide_eq_true_eq] at h
  by_cases hneg : v.toInt < 0
  · refine ⟨(-1 - v.toInt).toNat, by omega, 0, by simp, .inr ?_⟩
    apply BitVec.eq_of_toNat_eq
    simp only [BitVec.shiftLeft_zero, BitVec.toNat_not, BitVec.toNat_ofNat, BitVec.toNat_ofInt]
    omega
  · refine ⟨v.toInt.toNat, by omega, 0, by simp, .inl ?_⟩
    apply BitVec.eq_of_toNat_eq
    simp only [BitVec.shiftLeft_zero, BitVec.toNat_ofNat, BitVec.toNat_ofInt]
    omega

theorem highChunks_eq (v : UInt64) : highChunks r v =
    ([16, 32, 48].filter fun shift => chunk v shift ≠ 0).map fun shift =>
      .instr (.movk r (chunk v shift) shift) := by
  unfold highChunks
  generalize [16, 32, 48] = shifts
  induction shifts with
  | nil => rfl
  | cons shift _ ih => by_cases h : chunk v shift = 0 <;> simp [h, ih]

/-- No chunk of a constant is too large. -/
theorem fits_loadImm (v : Int64) : Fits (loadImm r v) := by
  unfold loadImm
  split
  · next h => exact fits_one (movable_of_isShort h)
  · rw [highChunks_eq]
    refine .append (c := [_]) (fits_one (chunk_lt _ _)) fun i hi => ?_
    rcases mem_map.mp hi with ⟨shift, hshift, heq⟩
    cases heq
    exact ⟨chunk_lt _ _, (mem_filter.mp hshift).1⟩

theorem countP_loadImm (v : Int64) : (loadImm r v).countP Line.isAccess = 0 := by
  unfold loadImm
  split
  · rfl
  · rw [highChunks_eq]
    simp [Line.isAccess]

/-- No offset is too large for the way it is subtracted. -/
theorem fits_slotAddress (offset : Nat) : Fits (slotAddress offset) := by
  unfold slotAddress
  split
  · next h => exact fits_one h
  · exact (fits_loadImm _ _).append (fits_one trivial)

theorem countP_slotAddress (offset : Nat) : (slotAddress offset).countP Line.isAccess = 0 := by
  unfold slotAddress
  split
  · rfl
  · rw [countP_append, loadNat, countP_loadImm]
    rfl

/-- A slot is written and nothing else in memory. The two scratch registers may change, so neither
    of them can be what is stored. -/
theorem run_storeSlot (symbols : Bytes → Word) {n : Nat} (hn : n ∉ [9, 10]) (slot : Int)
    (m : Machine) : ∃ x, run? symbols (storeSlot (.x n) slot) m = some { m with
      x, mem := m.mem.store (m.x 29 - BitVec.ofInt 64 (slotOffset slot)) (m.x n) } ∧
      ∀ k, k ∉ [9, 10] → x k = m.x k := by
  rw [← ofInt_slotDistance]
  unfold storeSlot
  by_cases hs : slotDistance slot ≤ 256
  · simp only [hs]
    exact ⟨_, rfl, fun _ _ => rfl⟩
  · simp only [hs, if_false]
    rcases run_slotAddress symbols (slotDistance slot).toNat m with ⟨x, hrun, haddr, hrest⟩
    rw [← BitVec.ofInt_natCast, Int.toNat_of_nonneg (by omega)] at haddr
    rw [run_append, hrun, ← haddr, ← hrest n hn]
    exact ⟨_, rfl, hrest⟩

/-- A slot is accessed once, and in a way that fits unless its distance has run over to a number
    far below zero. -/
theorem fits_slot (n : Nat) (slot : Int) :
    ∀ c ∈ [loadSlot (.x n) slot, storeSlot (.x n) slot],
      c.countP Line.isAccess = 1 ∧ (Fits c ↔ -255 ≤ slotDistance slot) := by
  intro c hc
  simp only [List.mem_cons, List.not_mem_nil, or_false, loadSlot, storeSlot] at hc
  by_cases hs : slotDistance slot ≤ 256
  · simp only [hs, if_true] at hc
    rcases hc with rfl | rfl <;>
      exact ⟨rfl, fun h => (h _ mem_cons_self).1, fun h => fits_one ⟨h, hs⟩⟩
  · simp only [hs, if_false] at hc
    have hnear : -255 ≤ slotDistance slot := by omega
    rcases hc with rfl | rfl <;>
      refine ⟨?_, iff_of_true ((fits_slotAddress _).append (fits_one trivial)) hnear⟩ <;>
      rw [List.countP_append, countP_slotAddress] <;> rfl

/-- The code of a constant and of the accesses to a slot, for every machine. A constant is loaded
    by one move that can hold it, or by a move of its lowest chunk and insertions of others. A slot
    is accessed by one instruction, at its place in the frame, from any register but the two that
    may be needed for the address. All constants fit, as long as the distance of the slot has not
    run over in 64 bits to a number far below zero, which it does at no slot before `2 ^ 60 - 1`. -/
theorem constants_and_slots (symbols : Bytes → Word) (m : Machine) (n : Nat) :
    (∀ v : Int64, run? symbols (loadImm (.x n) v) m = some (m.set (.x n) v.toBitVec) ∧
      Fits (loadImm (.x n) v) ∧
      (loadImm (.x n) v = code [.movImm (.x n) v.toInt] ∨ ∃ low,
        ∃ shifts : List Nat, shifts.Sublist [16, 32, 48] ∧ loadImm (.x n) v = code (.movz (.x n) low ::
          shifts.map fun shift => .movk (.x n) (chunk v.toUInt64 shift) shift))) ∧
    ∀ slot : Int, let place := m.x 29 - BitVec.ofInt 64 (8 * (slot + 1))
      (∃ x, run? symbols (loadSlot (.x n) slot) m = some { m with x } ∧ x n = m.mem.word place ∧
        ∀ k, k ∉ [9, 10, n] → x k = m.x k) ∧
      (n ∉ [9, 10] → ∃ x, run? symbols (storeSlot (.x n) slot) m =
        some { m with x, mem := m.mem.store place (m.x n) } ∧ ∀ k, k ∉ [9, 10] → x k = m.x k) ∧
      ∀ c ∈ [loadSlot (.x n) slot, storeSlot (.x n) slot],
        c.countP Line.isAccess = 1 ∧ (Fits c ↔ -255 ≤ slotDistance slot) ∧
        (0 ≤ slot → slot + 1 < 0x1000000000000000 → Fits c) := by
  refine ⟨fun v => ⟨run_loadImm symbols n v m, fits_loadImm _ v, ?_⟩, fun slot => ?_⟩
  · unfold loadImm
    split
    · exact .inl rfl
    · refine .inr ⟨chunk v.toUInt64 0, [16, 32, 48].filter fun shift => chunk v.toUInt64 shift ≠ 0,
        List.filter_sublist, ?_⟩
      rw [highChunks_eq, code, List.map_cons, List.map_map]
      rfl
  rw [Int.mul_comm]
  refine ⟨run_loadSlot symbols n slot m, fun hn => run_storeSlot symbols hn slot m, fun c hc => ?_⟩
  obtain ⟨hone, hfits⟩ := fits_slot n slot c hc
  refine ⟨hone, hfits, fun hslot hbound => hfits.mpr ?_⟩
  have hexact : slotDistance slot = slotOffset slot :=
    Int64.toInt_ofInt_of_le (by rw [slotOffset]; omega) (by rw [slotOffset]; omega)
  rw [hexact, slotOffset]
  omega

/-- The distance of slot `2 ^ 60 - 1` is no number of 64 bits. What is written is an offset with two
    signs that no instruction has room for. -/
theorem slots_running_over :
    ¬ Fits (loadSlot x0 0xFFFFFFFFFFFFFFF) ∧
      (loadSlot x0 0xFFFFFFFFFFFFFFF).text .linux = "\tldur x0, [x29, #--9223372036854775808]\n" := by
  refine ⟨fun h => ?_, by decide⟩
  have hfar := ((fits_slot 0 0xFFFFFFFFFFFFFFF _ mem_cons_self).2.mp h)
  revert hfar
  decide

end Codegen.Arm64
