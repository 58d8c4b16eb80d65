import Codegen.Number.Numeral
import Codegen.Number.Shortest
import Mathlib.Data.List.TakeWhile
import Mathlib.Data.Nat.Digits.Defs
import Mathlib.Tactic.Ring

/-!
# Digits as Numbers

Numbers become text in one place, `Bytes.ofNat`, and text becomes numbers in three: the
reader of integers folds over digits, the reader of decimals runs through digits with
a point among them, and the reader of exponents stops counting at a bound. All three are
described by `Integer.ofDigits`, the value of a string of digits, and writing a number
gives a string of that value.
-/

namespace Codegen

open Integer Bytes List

variable {n : Nat} {b : UInt8}

/-! ## Digits that were written -/

theorem toNat_toUInt8_digit {c : Char} (hc : c.isDigit = true) :
    c.toNat.toUInt8.toNat = c.toNat ∧ 48 ≤ c.toNat ∧ c.toNat ≤ 57 := by
  have hbounds : 48 ≤ c.toNat ∧ c.toNat ≤ 57 := by
    simp only [Char.isDigit, Bool.and_eq_true, decide_eq_true_eq] at hc
    exact ⟨hc.1, hc.2⟩
  rw [UInt8.toNat_ofNat']
  omega

theorem Bytes.isDigitByte_ofNat (hb : b ∈ ofNat n) : isDigitByte b = true := by
  rcases mem_map.mp hb with ⟨c, hc, rfl⟩
  have hdigit := toNat_toUInt8_digit (Nat.isDigit_of_mem_toDigits (by omega) (by omega) hc)
  simp only [isDigitByte, hdigit.1, Bool.and_eq_true, decide_eq_true_eq]
  exact hdigit.2

theorem Bytes.ofNat_ne_nil (n : Nat) : ofNat n ≠ [] := by
  simp [ofNat, ofChars]

theorem Bytes.length_ofNat (n : Nat) : (ofNat n).length = (Nat.toDigits 10 n).length := by
  simp [ofNat, ofChars]

/-- The number of digits of a number. -/
theorem Bytes.ofNat_bounds (hn : 0 < n) :
    10 ^ ((ofNat n).length - 1) ≤ n ∧ n < 10 ^ (ofNat n).length := by
  have hpos : 0 < (ofNat n).length := length_pos_iff.mpr (ofNat_ne_nil n)
  have hle (k : Nat) (hk : 0 < k) : (ofNat n).length ≤ k ↔ n < 10 ^ k := by
    rw [length_ofNat]
    exact Nat.length_toDigits_le_iff (by omega) hk
  refine ⟨?_, (hle _ hpos).mp le_rfl⟩
  by_contra hlt
  by_cases hone : (ofNat n).length = 1
  · rw [hone] at hlt
    omega
  · have hshort := (hle ((ofNat n).length - 1) (by omega)).mpr (by omega)
    omega

namespace Integer

/-! ## The value of digits -/

theorem foldl_digits (digits : Bytes) (n : Nat) :
    digits.foldl (fun n b => n * 10 + digitValue b) n =
      n * 10 ^ digits.length + ofDigits digits := by
  unfold ofDigits
  induction digits generalizing n with
  | nil => simp
  | cons b _ ih =>
    simp only [foldl_cons, length_cons]
    rw [ih, ih (0 * 10 + digitValue b)]
    ring

theorem ofDigits_cons (b : UInt8) (digits : Bytes) :
    ofDigits (b :: digits) = digitValue b * 10 ^ digits.length + ofDigits digits := by
  have hfold := foldl_digits digits (digitValue b)
  rw [← hfold]
  simp [ofDigits]

/-- The value of digits after digits. -/
theorem ofDigits_append (left right : Bytes) :
    ofDigits (left ++ right) = ofDigits left * 10 ^ right.length + ofDigits right := by
  rw [← foldl_digits]
  simp [ofDigits]

theorem ofDigits_zeros (k : Nat) : ofDigits (replicate k zeroDigit) = 0 := by
  induction k with
  | zero => rfl
  | succ k ih =>
    rw [replicate_succ, ofDigits_cons, ih]
    have hzero : digitValue zeroDigit = 0 := by decide
    rw [hzero, Nat.zero_mul]

/-- The digits of a number have its value. -/
theorem ofDigits_ofNat (n : Nat) : ofDigits (ofNat n) = n := by
  have hchars (cs : List Char) (hcs : ∀ c ∈ cs, c.isDigit = true) (init : Nat) :
      (ofChars cs).foldl (fun n b => n * 10 + digitValue b) init =
        Nat.ofDigitChars 10 cs init := by
    induction cs generalizing init with
    | nil => rfl
    | cons c _ ih =>
      have hc := toNat_toUInt8_digit (hcs c mem_cons_self)
      rw [Nat.ofDigitChars_cons, ← ih fun c hc => hcs c (mem_cons_of_mem _ hc)]
      simp only [ofChars, map_cons, foldl_cons, digitValue, hc.1]
      rw [Nat.mul_comm]
  unfold ofDigits ofNat
  rw [hchars _ fun c hc => Nat.isDigit_of_mem_toDigits (by omega) (by omega) hc]
  exact Nat.ofDigitChars_ten_toDigits

theorem ofNat_inj {m : Nat} (h : ofNat n = ofNat m) : n = m := by
  rw [← ofDigits_ofNat n, h, ofDigits_ofNat]

theorem splitSign_digit (rest : Bytes) (hb : isDigitByte b = true) :
    splitSign (b :: rest) = (false, b :: rest) := by
  have hplus : b ≠ '+'.toNat.toUInt8 := by
    rintro rfl
    exact absurd hb (by decide)
  have hminus : b ≠ '-'.toNat.toUInt8 := by
    rintro rfl
    exact absurd hb (by decide)
  simp only [splitSign, if_neg hplus, if_neg hminus]

theorem value_of_splitSign {text : Bytes} {negative : Bool}
    (hsplit : splitSign text = (negative, ofNat n)) :
    value? text = some (if negative then -(n : Int) else n) := by
  have hall : (ofNat n).all isDigitByte = true :=
    all_eq_true.mpr fun b hb => isDigitByte_ofNat hb
  have hsome : (ofNat n).isEmpty = false :=
    isEmpty_eq_false_iff.mpr (ofNat_ne_nil n)
  unfold value?
  rw [hsplit]
  simp [hall, hsome, ofDigits_ofNat]

theorem splitSign_ofNat (n : Nat) : splitSign (ofNat n) = (false, ofNat n) := by
  cases htext : ofNat n with
  | nil => exact absurd htext (ofNat_ne_nil n)
  | cons b rest =>
    have hb : b ∈ ofNat n := htext ▸ mem_cons_self
    exact splitSign_digit rest (isDigitByte_ofNat hb)

theorem splitSign_print (n : Int64) :
    splitSign (print n) = (decide (n.toInt < 0), ofNat n.toInt.natAbs) := by
  unfold print
  cases n.toInt with
  | ofNat k => exact splitSign_ofNat k
  | negSucc k =>
    rw [decide_eq_true (Int.negSucc_lt_zero k)]
    rfl

/-- Integers survive being written and read. -/
theorem read_print (n : Int64) : read (print n) = .ok n := by
  have hvalue : value? (print n) = some n.toInt := by
    rw [value_of_splitSign (splitSign_print n), Option.some.injEq]
    by_cases hneg : n.toInt < 0
    · rw [decide_eq_true hneg, if_pos rfl]
      omega
    · rw [decide_eq_false hneg, if_neg Bool.false_ne_true]
      omega
  have hfits : fits n.toInt = true := by
    have hlow := n.le_toInt
    have hhigh := n.toInt_lt
    simp only [fits, Bool.and_eq_true, decide_eq_true_eq]
    omega
  unfold read
  rw [hvalue]
  simp [hfits]

end Integer

namespace Numeral

/-! ## Digits of decimals and exponents -/

theorem digit_of_isDigitByte (hb : isDigitByte b = true) :
    digit? false b = some (digitValue b) ∧ b ≠ '_'.toNat.toUInt8 ∧
      b ≠ '.'.toNat.toUInt8 := by
  refine ⟨by simp [digit?, hb], ?_, ?_⟩ <;>
    · rintro rfl
      exact absurd hb (by decide)

/-- Reading through digits adds their value, and their number to the places once the
    point has been passed. -/
theorem readDigits_append (digits rest : Bytes) (run : Run)
    (hdigits : ∀ b ∈ digits, isDigitByte b = true) :
    readDigits false run (digits ++ rest) =
      readDigits false
        { run with
          value := run.value * 10 ^ digits.length + ofDigits digits
          places := if run.point then run.places + digits.length else run.places
          any := run.any || !digits.isEmpty } rest := by
  induction digits generalizing run with
  | nil => simp [ofDigits]
  | cons b _ ih =>
    have hb := digit_of_isDigitByte (hdigits b mem_cons_self)
    rw [cons_append, readDigits, if_neg hb.2.1, if_neg hb.2.2, hb.1]
    simp only [Bool.false_eq_true, if_false]
    rw [ih _ fun c hc => hdigits c (mem_cons_of_mem _ hc)]
    congr 1
    simp only [Run.push, ofDigits_cons, length_cons, isEmpty_cons,
      Bool.not_false, Bool.or_true, Bool.true_or, Run.mk.injEq, and_true]
    refine ⟨by ring, ?_⟩
    split <;> omega

theorem exponentValue_eq {digits : Bytes} (hdigits : ∀ b ∈ digits, isDigitByte b = true)
    (hsmall : ofDigits digits < exponentLimit) :
    exponentValue digits = ofDigits digits := by
  unfold exponentValue
  -- The value only grows, so what has been read stays below the bound all along.
  have hfold (init : Nat)
      (hinit : init * 10 ^ digits.length + ofDigits digits < exponentLimit) :
      digits.foldl (fun e b =>
        if b = '_'.toNat.toUInt8 || exponentLimit ≤ e then e
        else e * 10 + digitValue b) init =
        init * 10 ^ digits.length + ofDigits digits := by
    clear hsmall
    induction digits generalizing init with
    | nil => simp [ofDigits]
    | cons b digits ih =>
      have hb := digit_of_isDigitByte (hdigits b mem_cons_self)
      have hgrown : init * 10 ^ (digits.length + 1) + ofDigits (b :: digits) =
          (init * 10 + digitValue b) * 10 ^ digits.length +
            ofDigits digits := by
        rw [ofDigits_cons]
        ring
      have hbelow : init < exponentLimit := by
        have hone : 1 ≤ 10 ^ (digits.length + 1) := Nat.one_le_pow _ _ (by omega)
        have hmul := Nat.mul_le_mul_left init hone
        simp only [length_cons] at hinit
        omega
      rw [foldl_cons, length_cons, hgrown]
      have hgo : (decide (b = '_'.toNat.toUInt8) || decide (exponentLimit ≤ init)) = false := by
        simp only [Bool.or_eq_false_iff, decide_eq_false_iff_not]
        exact ⟨hb.2.1, by omega⟩
      rw [hgo]
      exact ih (fun c hc => hdigits c (mem_cons_of_mem _ hc)) _
        (by rw [length_cons, hgrown] at hinit; exact hinit)
  have hstart := hfold 0 (by simpa using hsmall)
  simpa using hstart

theorem exponent_digits (n : Nat) :
    (∀ b ∈ padLeft 2 zeroDigit (ofNat n), isDigitByte b = true) ∧
      ofDigits (padLeft 2 zeroDigit (ofNat n)) = n ∧
      padLeft 2 zeroDigit (ofNat n) ≠ [] := by
  refine ⟨?_, ?_, ?_⟩
  · intro b hb
    rcases mem_append.mp hb with hzero | hdigit
    · rw [eq_of_mem_replicate hzero]
      decide
    · exact isDigitByte_ofNat hdigit
  · rw [padLeft, ofDigits_append, ofDigits_zeros, ofDigits_ofNat]
    omega
  · simp [padLeft, ofNat_ne_nil]

/-- Reading an exponent that was written. -/
theorem readExponent_text {exponent : Int} (hsmall : exponent.natAbs < exponentLimit) :
    ∃ mark signed, Decimal.exponentText exponent = mark :: signed ∧
      mark = 'e'.toNat.toUInt8 ∧ readExponent? signed = some (exponent, []) := by
  rcases exponent_digits exponent.natAbs with ⟨hall, hvalue, hne⟩
  generalize hbody : padLeft 2 zeroDigit (ofNat exponent.natAbs) = body at *
  have hread : exponentValue body = exponent.natAbs := by
    rw [exponentValue_eq hall (by omega), hvalue]
  have htake : body.takeWhile (fun b => isDigitByte b || b = '_'.toNat.toUInt8) = body :=
    takeWhile_eq_self_iff.mpr fun b hb => by simp [hall b hb]
  have hdrop : body.dropWhile (fun b => isDigitByte b || b = '_'.toNat.toUInt8) = [] :=
    dropWhile_eq_nil_iff.mpr fun b hb => by simp [hall b hb]
  have hhead : (body.head?.map isDigitByte).getD false = true := by
    cases body with
    | nil => exact absurd rfl hne
    | cons b => exact hall b mem_cons_self
  unfold Decimal.exponentText
  rw [hbody]
  split_ifs
  · refine ⟨_, '-'.toNat.toUInt8 :: body, rfl, rfl, ?_⟩
    have hsign : splitSign ('-'.toNat.toUInt8 :: body) = (true, body) := rfl
    unfold readExponent?
    rw [hsign]
    simp only [hhead, htake, hdrop, if_true, Option.some.injEq, Prod.mk.injEq, and_true]
    omega
  · refine ⟨_, '+'.toNat.toUInt8 :: body, rfl, rfl, ?_⟩
    have hsign : splitSign ('+'.toNat.toUInt8 :: body) = (false, body) := rfl
    unfold readExponent?
    rw [hsign]
    simp only [hhead, htake, hdrop, if_true, Option.some.injEq, Prod.mk.injEq, and_true]
    simp only [Bool.false_eq_true, if_false]
    omega

end Numeral

end Codegen
