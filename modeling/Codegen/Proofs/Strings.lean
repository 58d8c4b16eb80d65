import Codegen.Arm64.Text
import Codegen.Number.Based
import Codegen.Wasm.Text
import Mathlib.Data.List.Basic

/-!
# Strings in Assembler Sources

Both assemblers take strings between quotes. Printable characters stand for themselves, and a
backslash begins an escape, which is of another kind for each assembler: characters with a meaning
of their own and up to three octal digits, or two hexadecimal digits. Escapes with a variable
number of digits are where it may go wrong, as a digit behind such an escape belongs to it. They
are written with all three digits, so a string is read as it was written, whatever stands beside
what.

## Theorems

* `escape_read`: Strings reach both assemblers.
-/

namespace Codegen

open List

namespace Quoted

def isPrintableByte (b : UInt8) : Bool := 0x20 ≤ b.toNat && b.toNat ≤ 0x7E

/-- The characters that stand for themselves. -/
def isPlain (b : UInt8) : Bool :=
  isPrintableByte b && b != '"'.toNat.toUInt8 && b != '\\'.toNat.toUInt8

/-- Reads a string after bytes that are skipped. Behind a backslash, `escape?` gives a byte and how
    many characters it takes. A text with a quote, a character that is not printable or another
    backslash is no string. -/
def read (escape? : Bytes → Option (UInt8 × Nat)) : Nat → Bytes → Option Bytes
  | _, [] => some []
  | skip + 1, _ :: rest => read escape? skip rest
  | 0, b :: rest =>
    if b = '\\'.toNat.toUInt8 then
      (escape? rest).bind fun e => (read escape? e.2 rest).map (e.1 :: ·)
    else if isPlain b then (read escape? 0 rest).map (b :: ·)
    else none

/-- How a byte may be written: as itself, or as an escape that ends whatever follows it. -/
def Spells (escape? : Bytes → Option (UInt8 × Nat)) (b : UInt8) (text : Bytes) : Prop :=
  text = [b] ∧ isPlain b = true ∨
    ∃ code, text = '\\'.toNat.toUInt8 :: code ∧ code.all isPrintableByte = true ∧
      ∀ rest, escape? (code ++ rest) = some (b, code.length)

variable {escape? : Bytes → Option (UInt8 × Nat)} {write : UInt8 → Bytes}

theorem read_skip (skipped rest : Bytes) :
    read escape? skipped.length (skipped ++ rest) = read escape? 0 rest := by
  induction skipped with
  | nil => rfl
  | cons _ _ ih => exact ih

/-- Strings written byte by byte are read again. -/
theorem read_flatMap (hwrite : ∀ b, Spells escape? b (write b)) (bytes : Bytes) :
    read escape? 0 (bytes.flatMap write) = some bytes := by
  induction bytes with
  | nil => rfl
  | cons b _ ih =>
    rw [flatMap_cons]
    rcases hwrite b with ⟨hself, hplain⟩ | ⟨code, hcode, -, hescape⟩
    · have hne : b ≠ '\\'.toNat.toUInt8 := by
        simp only [isPlain, Bool.and_eq_true, bne_iff_ne] at hplain
        exact hplain.2
      rw [hself, singleton_append, read, if_neg hne, if_pos hplain, ih, Option.map_some]
    · rw [hcode, cons_append, read, if_pos rfl, hescape, Option.bind_some, read_skip, ih,
        Option.map_some]

theorem printable_flatMap (hwrite : ∀ b, Spells escape? b (write b)) (bytes : Bytes) :
    (bytes.flatMap write).all isPrintableByte = true := by
  rw [all_flatMap, all_eq_true]
  intro b _
  rcases hwrite b with ⟨hself, hplain⟩ | ⟨code, hcode, hprintable, -⟩
  · simp only [isPlain, Bool.and_eq_true] at hplain
    rw [hself, all_cons, hplain.1.1, all_nil, Bool.true_and]
  · rw [hcode, all_cons, hprintable]
    rfl

end Quoted

open Quoted

namespace Arm64

/-- The byte that an escape of a directive stands for: a character, or up to three octal
    digits. -/
def escape? : Bytes → Option (UInt8 × Nat)
  | [] => none
  | c :: rest =>
    if c = '"'.toNat.toUInt8 || c = '\\'.toNat.toUInt8 then some (c, 1)
    else if c = 'n'.toNat.toUInt8 then some ('\n'.toNat.toUInt8, 1)
    else if c = 't'.toNat.toUInt8 then some ('\t'.toNat.toUInt8, 1)
    else
      let digits := (c :: rest.take 2).takeWhile fun d => (Based.digit? 8 d).isSome
      if digits.isEmpty then none
      else (Based.value? 8 digits).map fun n => (n.toUInt8, digits.length)

/-- Every byte is written as one that is read back. -/
theorem spells_escapeByte (b : UInt8) : Spells escape? b (escapeByte b) := by
  have hoctal : ∀ n < 256, (Bytes.octal 3 n).length = 3 ∧
      (Bytes.octal 3 n).all isPrintableByte = true ∧
      escape? (Bytes.octal 3 n) = some (n.toUInt8, 3) := by
    decide +kernel
  unfold escapeByte
  split_ifs with hquote hslash hnewline htab hplain
  · exact .inr ⟨[_], rfl, rfl, fun rest => by rw [hquote]; rfl⟩
  · exact .inr ⟨[_], rfl, rfl, fun rest => by rw [hslash]; rfl⟩
  · exact .inr ⟨[_], rfl, rfl, fun rest => by rw [hnewline]; rfl⟩
  · exact .inr ⟨[_], rfl, rfl, fun rest => by rw [htab]; rfl⟩
  · have hplain : isPlain b = true := by
      simp_all [isPlain, isPrintableByte]
      omega
    exact .inl ⟨rfl, hplain⟩
  · obtain ⟨hlength, hprintable, hvalue⟩ := hoctal b.toNat b.toNat_lt
    rw [Nat.toUInt8_eq, UInt8.ofNat_toNat] at hvalue
    obtain ⟨d, e, f, hdigits⟩ := length_eq_three.mp hlength
    rw [hdigits] at hvalue hprintable ⊢
    exact .inr ⟨_, rfl, hprintable, fun rest => hvalue⟩

end Arm64

namespace Wasm

/-- The byte that an escape of a text string stands for: two hexadecimal digits. -/
def escape? : Bytes → Option (UInt8 × Nat)
  | high :: low :: _ => (Based.value? 16 [high, low]).map fun n => (n.toUInt8, 2)
  | _ => none

/-- Every byte is written as one that is read back. -/
theorem spells_escapeByte (b : UInt8) : Spells escape? b (escapeByte b) := by
  have hhex : ∀ n < 256, (Bytes.hex 2 n).length = 2 ∧ (Bytes.hex 2 n).all isPrintableByte = true ∧
      escape? (Bytes.hex 2 n) = some (n.toUInt8, 2) := by
    decide +kernel
  unfold escapeByte
  split_ifs with hplain
  · exact .inl ⟨rfl, by simp_all [isPlain, isPrintableByte]⟩
  · obtain ⟨hlength, hprintable, hvalue⟩ := hhex b.toNat b.toNat_lt
    rw [Nat.toUInt8_eq, UInt8.ofNat_toNat] at hvalue
    obtain ⟨high, low, hdigits⟩ := length_eq_two.mp hlength
    rw [hdigits] at hvalue hprintable ⊢
    exact .inr ⟨_, rfl, hprintable, fun rest => hvalue⟩

end Wasm

/-- The bytes of a string are what the assemblers read, from printable characters only. Strings are
    written byte by byte. -/
theorem escape_read (bytes more : Bytes) :
    read Arm64.escape? 0 (Arm64.escape bytes) = some bytes ∧
      read Wasm.escape? 0 (Wasm.escape bytes) = some bytes ∧
      (Arm64.escape bytes).all isPrintableByte = true ∧ (Wasm.escape bytes).all isPrintableByte = true ∧
      Arm64.escape (bytes ++ more) = Arm64.escape bytes ++ Arm64.escape more ∧
      Wasm.escape (bytes ++ more) = Wasm.escape bytes ++ Wasm.escape more :=
  ⟨read_flatMap Arm64.spells_escapeByte bytes, read_flatMap Wasm.spells_escapeByte bytes,
    printable_flatMap Arm64.spells_escapeByte bytes, printable_flatMap Wasm.spells_escapeByte bytes,
    flatMap_append, flatMap_append⟩

end Codegen
