import Codegen.Proofs.Number.Digits
import Codegen.Proofs.Number.Nearest

/-!
# Decimals Survive Being Written and Read

The text of a decimal is the first multiple of a power of ten, from coarse grids to fine,
that lies in the interval of the number. Two things make it read back as the same word.

Some grid meets the interval: the finest that is ever needed is `10 ^ -324`, below half of
the smallest positive number, and the search goes further than that. Which grid it is plays
no role here, since any multiple in the interval rounds to the number.

The reader sees the same multiple: positional or with an exponent, the text is digits with
a point among them and an exponent behind, and their value times the power of ten that the
reader scales it by is the multiple that was chosen.

What is lost is which NaN a word was. The reader only knows one of them, and every word
that it gives is either no NaN or that one, so it is all of these that come back.
-/

namespace Codegen

open Integer Numeral Bytes List

namespace Decimal

variable {d : Decimal} {n : Nat} {i : Interval} {power : Int}

/-! ## The multiple that is written -/

/-- What the interval over units of a power of ten is multiplied by to be integral. -/
def unitFactor (d : Decimal) (power : Int) : ℚ :=
  4 * (2 ^ (-d.power).toNat : Nat) * (10 ^ (-power).toNat : Nat)

theorem unitFactor_pos (d : Decimal) (power : Int) : 0 < d.unitFactor power := by
  unfold unitFactor
  positivity

theorem ten_zpow (power : Int) :
    (10 : ℚ) ^ power = (10 ^ power.toNat : Nat) / (10 ^ (-power).toNat : Nat) := by
  have hten := zpow_eq_div 10 (by omega) power
  rwa [Nat.cast_ofNat] at hten

theorem cast_mul_den (d : Decimal) (power : Int) (n : Nat) :
    ((n * (d.interval.inUnits power).den : Nat) : ℚ) = n * 10 ^ power * d.unitFactor power := by
  rw [ten_zpow]
  simp only [Interval.inUnits, interval, unitFactor, Nat.pow_eq, Nat.cast_mul]
  field_simp
  norm_num

theorem cast_end (d : Decimal) (power : Int) (quarters : Nat) :
    ((quarters * 2 ^ d.power.toNat * 10 ^ (-power).toNat : Nat) : ℚ) =
      quarters / 4 * 2 ^ d.power * d.unitFactor power := by
  have htwo := zpow_eq_div 2 (by omega) d.power
  rw [Nat.cast_two] at htwo
  rw [htwo]
  simp only [unitFactor, Nat.cast_mul]
  field_simp

theorem bounds_of_holds {point : Nat} (h : i.holds point = true) :
    i.low ≤ point ∧ point ≤ i.high ∧ (i.closed = false → i.low ≠ point ∧ point ≠ i.high) := by
  unfold Interval.holds at h
  split at h <;> simp only [Bool.and_eq_true, decide_eq_true_eq] at h
  · next hclosed => exact ⟨h.1, h.2, fun hopen => absurd hclosed (by simp [hopen])⟩
  · exact ⟨h.1.le, h.2.le, fun _ => ⟨h.1.ne, h.2.ne⟩⟩

theorem near_of_holds (hpos : 0 < d.magnitude)
    (hholds : (d.interval.inUnits power).holds (n * (d.interval.inUnits power).den) = true) :
    d.Near (n * 10 ^ power) := by
  have hsig := significand_pos hpos
  have hfactor := d.unitFactor_pos power
  have hpoint := d.cast_mul_den power n
  -- Both ends of the interval, a quarter of the last place being the unit.
  have hlow : ((d.interval.inUnits power).low : ℚ) =
      (d.significand - d.reach) * 2 ^ d.power * d.unitFactor power := by
    have hend := d.cast_end power
      (4 * d.significand - if d.significand = leadingBit && leastPower < d.power then 1 else 2)
    simp only [Interval.inUnits, interval, Nat.pow_eq]
    rw [hend]
    unfold reach
    split
    all_goals
      rw [Nat.cast_sub (by omega)]
      push_cast
      ring
  have hhigh : ((d.interval.inUnits power).high : ℚ) =
      (d.significand + 1 / 2) * 2 ^ d.power * d.unitFactor power := by
    have hend := d.cast_end power (4 * d.significand + 2)
    simp only [Interval.inUnits, interval, Nat.pow_eq]
    rw [hend]
    push_cast
    ring
  have hclosed : (d.interval.inUnits power).closed = decide (d.significand % 2 = 0) := rfl
  obtain ⟨hfrom, hto, hopen⟩ := bounds_of_holds hholds
  -- Comparisons are those of the common multiples.
  rw [← @Nat.cast_le ℚ, hlow, hpoint] at hfrom
  rw [← @Nat.cast_le ℚ, hhigh, hpoint] at hto
  simp only [ne_eq, ← @Nat.cast_inj ℚ, hlow, hhigh, hpoint] at hopen
  refine ⟨le_of_mul_le_mul_right hfrom hfactor, le_of_mul_le_mul_right hto hfactor, fun hodd => ?_⟩
  obtain ⟨hleft, hright⟩ := hopen (hclosed.trans (decide_eq_false (by omega)))
  exact ⟨fun heq => hleft (by rw [heq]), fun heq => hright (by rw [heq])⟩

theorem holds_of_integer (hn : i.integer? = some n) : i.holds (n * i.den) = true := by
  unfold Interval.integer? at hn
  dsimp only at hn
  split at hn
  · cases hn
  · next hbelow _ => exact Option.some.inj hn ▸ hbelow
  · next _ habove => exact Option.some.inj hn ▸ habove
  · next hbelow habove =>
    rw [← Option.some.inj hn]
    unfold roundQuotient
    dsimp only
    split
    · exact habove
    · exact hbelow

/-- A grid below half of the last place meets the interval: the next multiple above the
    number still lies in it. -/
theorem integer_of_fine (hfine : (d.interval.inUnits power).den + (d.interval.inUnits power).mid <
      (d.interval.inUnits power).high) : (d.interval.inUnits power).integer?.isSome = true := by
  generalize hi : d.interval.inUnits power = i at *
  have hlow : i.low ≤ i.mid := by
    subst hi
    exact Nat.mul_le_mul_right _ (Nat.mul_le_mul_right _ (Nat.sub_le _ _))
  have hden : 0 < i.den := by
    subst hi
    simp only [Interval.inUnits, interval, Nat.pow_eq]
    positivity
  have hdivide := Nat.div_add_mod' i.mid i.den
  have hmod := Nat.mod_lt i.mid hden
  have hnext : (i.mid / i.den + 1) * i.den = i.mid / i.den * i.den + i.den := Nat.succ_mul _ _
  have habove : i.holds ((i.mid / i.den + 1) * i.den) = true := by
    unfold Interval.holds
    split <;> simp only [Bool.and_eq_true, decide_eq_true_eq] <;> omega
  unfold Interval.integer?
  dsimp only
  rw [habove]
  cases i.holds (i.mid / i.den * i.den) <;> rfl

theorem two_pow_lt_ten_pow {e m k : Nat} (h : 2 ^ m < 5 ^ n) (hk : k ≠ 0) (he : e ≤ (m + n) * k) :
    2 ^ e < 10 ^ (n * k) := by
  have hbase : 2 ^ (m + n) < 10 ^ n := by
    calc 2 ^ (m + n) = 2 ^ m * 2 ^ n := pow_add 2 m n
      _ < 5 ^ n * 2 ^ n := Nat.mul_lt_mul_of_pos_right h (Nat.two_pow_pos n)
      _ = 10 ^ n := (Nat.mul_pow 5 2 n).symm
  calc 2 ^ e ≤ 2 ^ ((m + n) * k) := Nat.pow_le_pow_right (by omega) he
    _ = (2 ^ (m + n)) ^ k := pow_mul 2 (m + n) k
    _ < (10 ^ n) ^ k := Nat.pow_lt_pow_left hbase hk
    _ = 10 ^ (n * k) := (pow_mul 10 n k).symm

theorem two_mul_two_pow_lt : 2 * 2 ^ 1074 < 10 ^ 324 := by
  have hfive : 2 ^ 188 < 5 ^ 81 := by norm_num
  have hten : 2 ^ (1074 + 1) < 10 ^ (81 * 4) := two_pow_lt_ten_pow hfive (by omega) (by omega)
  rw [← pow_succ']
  exact hten

theorem two_pow_mul_two_pow_lt : 2 ^ 53 * 2 ^ 972 < 10 ^ 309 := by
  have hfive : 2 ^ 239 < 5 ^ 103 := by norm_num
  have hten : 2 ^ (53 + 972) < 10 ^ (103 * 3) := two_pow_lt_ten_pow hfive (by omega) (by omega)
  rw [← pow_add]
  exact hten

theorem integer_finest (d : Decimal) : (d.interval.inUnits (-324)).integer?.isSome = true := by
  apply integer_of_fine
  have hpower := leastPower_le_power d
  have hexponent : (-d.power).toNat ≤ 1074 := by
    unfold leastPower at hpower
    omega
  have hsmall := Nat.pow_le_pow_right (n := 2) (by omega) hexponent
  have hlarge : 1 ≤ 2 ^ d.power.toNat := Nat.one_le_two_pow
  simp only [Interval.inUnits, interval, Nat.pow_eq]
  have hfar : (-(-324 : Int)).toNat = 324 := by decide
  have hzero : (-324 : Int).toNat = 0 := by decide
  rw [hfar, hzero]
  have hsum (s up down : Nat) : (4 * s + 2) * up * down = 4 * s * up * down + 2 * up * down := by
    ring
  rw [hsum]
  omega

theorem searchGrid_spec (power : Int) (steps : Nat) {count : Nat} (hsteps : steps < count)
    (hmeets : (i.inUnits (power - steps)).integer?.isSome = true) :
    ∃ n k, searchGrid i power count = (n, k) ∧ (i.inUnits k).integer? = some n := by
  induction count generalizing power steps with
  | zero => omega
  | succ _ ih =>
    unfold searchGrid
    cases hhere : (i.inUnits power).integer? with
    | some n => exact ⟨n, power, rfl, hhere⟩
    | none =>
      cases steps with
      | zero =>
        simp only [Nat.cast_zero, sub_zero] at hmeets
        rw [hhere] at hmeets
        exact absurd hmeets (by decide)
      | succ steps =>
        refine ih (power - 1) steps (by omega) ?_
        have hsame : power - 1 - (steps : Int) = power - ((steps + 1 : Nat) : Int) := by
          push_cast
          ring
        rw [hsame]
        exact hmeets

/-- The digits that are written lie in the interval of the number. -/
theorem shortest_near (hpos : 0 < d.magnitude) :
    ∃ n k, d.shortest = (n, k) ∧ d.Near (n * 10 ^ k) := by
  have hfinest := integer_finest d
  have hsteps : 633 < 660 := by decide
  rcases searchGrid_spec coarsest 633 hsteps hfinest with ⟨n, k, hfound, hinteger⟩
  exact ⟨n, k, hfound, near_of_holds hpos (holds_of_integer hinteger)⟩

theorem Near.multiple_pos {k : Int} (hpos : 0 < d.magnitude) (hnear : d.Near (n * 10 ^ k)) :
    0 < n := by
  have hx := hnear.pos hpos
  refine Nat.pos_of_ne_zero fun hzero => ?_
  rw [hzero, Nat.cast_zero, zero_mul] at hx
  exact lt_irrefl 0 hx

theorem Near.bounds {x : ℚ} (hpos : 0 < d.magnitude) (hfinite : d.magnitude < infinityMagnitude)
    (hnear : d.Near x) : (10 : ℚ) ^ (-324 : Int) ≤ x ∧ x < 10 ^ (309 : Int) := by
  have hunit : (0 : ℚ) < 2 ^ d.power := by positivity
  have hreach := reach_bounds d
  constructor
  · have hone : (1 : ℚ) ≤ d.significand := by exact_mod_cast significand_pos hpos
    have hleast : (2 : ℚ) ^ (-1074 : Int) ≤ 2 ^ d.power :=
      zpow_le_zpow_right₀ (by norm_num) (leastPower_le_power d)
    have hsmallest : (10 : ℚ) ^ (-324 : Int) ≤ 1 / 2 * 2 ^ (-1074 : Int) := by
      have hcast : (2 * 2 ^ 1074 : ℚ) ≤ 10 ^ 324 := by exact_mod_cast two_mul_two_pow_lt.le
      have hinv := inv_anti₀ (by positivity) hcast
      rw [mul_inv] at hinv
      rw [one_div]
      exact hinv
    calc (10 : ℚ) ^ (-324 : Int) ≤ 1 / 2 * 2 ^ (-1074 : Int) := hsmallest
      _ ≤ (d.significand - d.reach) * 2 ^ d.power :=
          mul_le_mul (by linarith) hleast (by positivity) (by linarith)
      _ ≤ x := hnear.1
  · have htop : (d.significand : ℚ) + 1 ≤ 2 ^ 53 := by
      have hlt := significand_lt d
      have hlead : 2 * leadingBit = 2 ^ 53 := by decide
      exact_mod_cast (by omega : d.significand + 1 ≤ 2 ^ 53)
    have hpower : d.power ≤ 972 := by
      have hmag := magnitude_eq d
      by_contra hlarge
      have hsteps : 2047 ≤ (d.power - leastPower).toNat := by
        unfold leastPower
        omega
      have hmul := Nat.mul_le_mul_right leadingBit hsteps
      have hinf : infinityMagnitude = 2047 * leadingBit := by decide
      omega
    have hmost : (2 : ℚ) ^ d.power ≤ 2 ^ (972 : Int) :=
      zpow_le_zpow_right₀ (by norm_num) hpower
    calc x ≤ (d.significand + 1 / 2) * 2 ^ d.power := hnear.2.1
      _ ≤ 2 ^ 53 * 2 ^ (972 : Int) := mul_le_mul (by linarith) hmost hunit.le (by positivity)
      _ < 10 ^ (309 : Int) := by exact_mod_cast two_pow_mul_two_pow_lt

/-- How many digits a multiple in the interval has before the point, or zeros behind it. -/
theorem Near.digits {k : Int} (hpos : 0 < d.magnitude) (hfinite : d.magnitude < infinityMagnitude)
    (hnear : d.Near (n * 10 ^ k)) :
    -324 ≤ (ofNat n).length + k ∧ (ofNat n).length + k ≤ 309 := by
  have hbounds := hnear.bounds hpos hfinite
  have hlen := ofNat_bounds (hnear.multiple_pos hpos)
  have hten : (0 : ℚ) < 10 ^ k := by positivity
  generalize (ofNat n).length = len at *
  constructor
  · by_contra hlow
    have hupper : (n : ℚ) * 10 ^ k < 10 ^ ((len : Int) + k) := by
      rw [zpow_add₀ (by norm_num)]
      have hcast : (n : ℚ) < 10 ^ len := by exact_mod_cast hlen.2
      exact mul_lt_mul_of_pos_right hcast hten
    have hmono : (10 : ℚ) ^ ((len : Int) + k) ≤ 10 ^ (-324 : Int) :=
      zpow_le_zpow_right₀ (by norm_num) (by omega)
    exact absurd (hupper.trans_le hmono) (not_lt.mpr hbounds.1)
  · by_contra hhigh
    have hlower : (10 : ℚ) ^ (((len - 1 : Nat) : Int) + k) ≤ n * 10 ^ k := by
      rw [zpow_add₀ (by norm_num)]
      have hcast : (10 : ℚ) ^ (len - 1) ≤ n := by exact_mod_cast hlen.1
      exact mul_le_mul_of_nonneg_right hcast hten.le
    have hmono : (10 : ℚ) ^ (309 : Int) ≤ 10 ^ (((len - 1 : Nat) : Int) + k) :=
      zpow_le_zpow_right₀ (by norm_num) (by omega)
    exact absurd (hmono.trans hlower) (not_le.mpr hbounds.2)

end Decimal

variable {negative : Bool} {exponent : Int}

namespace Numeral

variable {b : UInt8}

/-! ## The text that is written -/

/-- Digits before the point, digits behind it if there is a point, and what follows. -/
def spelling (whole : Bytes) (fraction : Option Bytes) (tail : Bytes) : Bytes :=
  whole ++ ((fraction.map fun ds => '.'.toNat.toUInt8 :: ds).getD [] ++ tail)

/-- A text of digits, and an exponent that the text behind them spells or that is zero if
    there is no text behind them. -/
structure Spelled (whole : Bytes) (fraction : Option Bytes) (tail : Bytes) (exponent : Int) :
    Prop where
  nonempty : whole ≠ []
  whole_digits : ∀ b ∈ whole, isDigitByte b = true
  fraction_digits : ∀ b ∈ fraction.getD [], isDigitByte b = true
  exponent_eq : tail = [] ∧ exponent = 0 ∨
    tail = Decimal.exponentText exponent ∧ exponent.natAbs < exponentLimit

/-- The bytes that decimals are written with, signs and words apart. -/
def isPlain (b : UInt8) : Bool :=
  isDigitByte b || b = '.'.toNat.toUInt8 || b = 'e'.toNat.toUInt8 ||
    b = '+'.toNat.toUInt8 || b = '-'.toNat.toUInt8

theorem lower_digit (hb : isDigitByte b = true) : lower b = b := by
  unfold lower
  rw [if_neg]
  simp only [isDigitByte, Bool.and_eq_true, decide_eq_true_eq] at hb
  have hnine : '9'.toNat < 'A'.toNat := by decide
  simp only [Bool.and_eq_true, decide_eq_true_eq]
  omega

theorem lower_ne_of_isPlain (hb : isPlain b = true) :
    lower b ≠ 'x'.toNat.toUInt8 ∧ b ≠ '_'.toNat.toUInt8 := by
  simp only [isPlain, Bool.or_eq_true, decide_eq_true_eq] at hb
  rcases hb with (((hdigit | rfl) | rfl) | rfl) | rfl
  · rw [lower_digit hdigit]
    constructor <;>
      · rintro rfl
        exact absurd hdigit (by decide)
  all_goals decide

theorem isPlain_of_digit (hb : isDigitByte b = true) : isPlain b = true := by
  simp [isPlain, hb]

theorem isPlain_exponentText (exponent : Int) :
    ∀ b ∈ Decimal.exponentText exponent, isPlain b = true := by
  refine forall_mem_append.mpr ⟨?_, fun b hb => ?_⟩
  · split <;> exact all_eq_true.mp rfl
  · exact isPlain_of_digit ((exponent_digits exponent.natAbs).1 b hb)

section Spelling

variable {whole tail : Bytes} {fraction : Option Bytes} {text : Bytes}

theorem Spelled.isPlain (h : Spelled whole fraction tail exponent) :
    ∀ b ∈ spelling whole fraction tail, isPlain b = true := by
  refine forall_mem_append.mpr ⟨fun b hb => isPlain_of_digit (h.whole_digits b hb), ?_⟩
  refine forall_mem_append.mpr ⟨?_, ?_⟩
  · cases fraction with
    | none => exact forall_mem_nil _
    | some =>
      exact forall_mem_cons.mpr ⟨rfl, fun b hb => isPlain_of_digit (h.fraction_digits b hb)⟩
  · rcases h.exponent_eq with ⟨rfl, -⟩ | ⟨rfl, -⟩
    · exact forall_mem_nil _
    · exact isPlain_exponentText exponent

theorem Spelled.head (h : Spelled whole fraction tail exponent) :
    ∃ b rest, spelling whole fraction tail = b :: rest ∧ isDigitByte b = true := by
  cases whole with
  | nil => exact absurd rfl h.nonempty
  | cons b => exact ⟨b, _, rfl, h.whole_digits b mem_cons_self⟩

theorem Spelled.readDigits_tail (h : Spelled whole fraction tail exponent) (run : Run) :
    readDigits false run tail = (run, tail) := by
  rcases h.exponent_eq with ⟨rfl, -⟩ | ⟨rfl, hsmall⟩
  · rfl
  · rcases readExponent_text hsmall with ⟨mark, signed, htext, rfl, -⟩
    rw [htext, readDigits]
    rfl

theorem Spelled.readDigits (h : Spelled whole fraction tail exponent) :
    ∃ run : Run, readDigits false {} (spelling whole fraction tail) = (run, tail) ∧
      run.any = true ∧ run.value = ofDigits (whole ++ fraction.getD []) ∧
      run.places = (fraction.getD []).length := by
  have hsome : whole.isEmpty = false := isEmpty_eq_false_iff.mpr h.nonempty
  unfold spelling
  rw [readDigits_append whole _ _ h.whole_digits]
  cases fraction with
  | none =>
    simp only [Option.map_none, Option.getD_none, nil_append]
    rw [h.readDigits_tail]
    exact ⟨_, rfl, by simp [hsome], by simp, rfl⟩
  | some ds =>
    have hds : ∀ b ∈ ds, isDigitByte b = true := h.fraction_digits
    simp only [Option.map_some, Option.getD_some, cons_append]
    rw [readDigits, if_neg (by decide)]
    rw [readDigits_append ds tail _ hds, h.readDigits_tail]
    exact ⟨_, rfl, by simp [hsome], by simp [ofDigits_append], by simp⟩

theorem hexBody_eq_none (htext : ∀ b ∈ text, lower b ≠ 'x'.toNat.toUInt8) :
    hexBody? text = none := by
  unfold hexBody?
  split
  · next z x b rest =>
    have hx := htext x (mem_cons_of_mem _ mem_cons_self)
    rw [if_neg]
    simp only [Bool.and_eq_true, decide_eq_true_eq]
    exact fun hzx => hx hzx.2
  · rfl

theorem underscoresFit_eq_true (htext : ∀ b ∈ text, b ≠ '_'.toNat.toUInt8) {last : Last}
    (hlast : last ≠ .underscore) : underscoresFit false last text = true := by
  induction text generalizing last with
  | nil => simpa [underscoresFit] using hlast
  | cons b rest ih =>
    have hrest : ∀ c ∈ rest, c ≠ '_'.toNat.toUInt8 := fun c hc =>
      htext c (mem_cons_of_mem _ hc)
    unfold underscoresFit
    split
    · exact ih hrest nofun
    · have hlast' : Last.other ≠ .underscore := nofun
      have hother := ih hrest hlast'
      rw [if_neg (htext b mem_cons_self), hother]
      simpa using hlast

/-- How the reader takes the spelling of a numeral apart. -/
theorem split_spelling (h : Spelled whole fraction tail exponent)
    (hsign : splitSign text = (negative, spelling whole fraction tail)) :
    split? text = some
      { negative := negative, hex := false
        digits := ofDigits (whole ++ fraction.getD [])
        places := (fraction.getD []).length, exponent := exponent } := by
  have hplain : ∀ b ∈ spelling whole fraction tail, _ := fun b hb =>
    lower_ne_of_isPlain (h.isPlain b hb)
  have hhex := hexBody_eq_none fun b hb => (hplain b hb).1
  have hstart : Last.start ≠ .underscore := nofun
  have hfit := underscoresFit_eq_true (fun b hb => (hplain b hb).2) hstart
  rcases h.readDigits with ⟨run, hread, hany, hvalue, hplaces⟩
  unfold split?
  rw [hsign]
  simp only [hhex, Option.isSome_none, Option.getD_none, hread, Bool.false_eq_true, if_false, hfit,
    hany, hvalue, hplaces]
  rcases h.exponent_eq with ⟨rfl, rfl⟩ | ⟨rfl, hsmall⟩
  · rfl
  · rcases readExponent_text hsmall with ⟨mark, signed, htext, rfl, hexponent⟩
    rw [htext]
    simp only [hexponent]
    rfl

theorem word_spelling (h : Spelled whole fraction tail exponent)
    (hsign : splitSign text = (negative, spelling whole fraction tail))
    (hsigned : text = spelling whole fraction tail ∨
      text = '-'.toNat.toUInt8 :: spelling whole fraction tail) : Decimal.word? text = none := by
  rcases h.head with ⟨b, rest, hbody, hb⟩
  have hlower := lower_digit hb
  rw [hbody] at hsign hsigned
  have hnotword (word : Bytes) (hword : word.head?.all (!isDigitByte ·) = true) :
      (b :: rest).map lower ≠ word := by
    rintro rfl
    rw [map_cons, head?_cons, Option.all_some, hlower, hb] at hword
    exact Bool.noConfusion hword
  have hnan : text.map lower ≠ "nan" := by
    rcases hsigned with rfl | rfl
    · exact hnotword _ rfl
    · intro heq
      have hfirst : some (lower '-'.toNat.toUInt8) = (ofString "nan").head? :=
        congrArg head? heq
      exact absurd hfirst (by decide)
  have hinf := hnotword "inf" rfl
  have hinfinity := hnotword "infinity" rfl
  unfold Decimal.word?
  rw [hsign]
  simp only [hinf, hinfinity, hnan, decide_false, Bool.or_self, Bool.false_eq_true, if_false]

end Spelling

/-! ## The value that is read -/

/-- The value of a numeral in the interval of a number. -/
theorem value_eq {d : Decimal} {digits places : Nat} (hpos : 0 < d.magnitude)
    (hfinite : d.magnitude < Decimal.infinityMagnitude)
    (hnear : d.Near (digits * 10 ^ (exponent - places))) :
    value ⟨d.negative, false, digits, places, exponent⟩ =
      .ok (.ofMagnitude d.negative d.magnitude) := by
  have hdigits := hnear.multiple_pos hpos
  have hsize := hnear.digits hpos hfinite
  rw [length_ofNat] at hsize
  -- The fraction that is rounded is the value of the numeral.
  have hfraction : d.Near
      ((digits * 10 ^ (exponent - places).toNat : Nat) /
        (10 ^ (-(exponent - places)).toNat : Nat)) := by
    rw [Decimal.ten_zpow] at hnear
    rw [Nat.cast_mul, mul_div_assoc]
    exact hnear
  have hround := Decimal.nearestMagnitude_eq hpos (Nat.pow_pos (by omega)) hfraction
  unfold value
  simp only [scale, Bool.false_eq_true, if_false, Nat.pow_eq]
  rw [if_neg hdigits.ne', if_neg (by omega), if_neg (by omega)]
  simp only [Decimal.nearest?, hround, if_pos hfinite]

end Numeral

namespace Decimal

variable {d : Decimal}

theorem ofMagnitude_magnitude (d : Decimal) : ofMagnitude d.negative d.magnitude = d := by
  have hlt : d.bits.toNat < 2 * signBit := d.bits.toNat_lt
  have hword : (if d.negative then d.magnitude + signBit else d.magnitude) = d.bits.toNat := by
    unfold negative magnitude
    by_cases hneg : signBit ≤ d.bits.toNat
    · simp only [hneg, decide_true, if_true]
      have hmod : d.bits.toNat % signBit = d.bits.toNat - signBit := by
        rw [Nat.mod_eq_sub_mod hneg, Nat.mod_eq_of_lt (by omega)]
      omega
    · simp only [hneg]
      exact Nat.mod_eq_of_lt (by omega)
  unfold ofMagnitude
  rw [hword]
  simp

theorem writtenOut_spelled {digits : Bytes} (hne : digits ≠ [])
    (hall : ∀ b ∈ digits, isDigitByte b = true) (point : Int) :
    ∃ whole fraction, Numeral.Spelled whole fraction [] 0 ∧
      writtenOut digits point = spelling whole fraction [] ∧
      (ofDigits (whole ++ fraction.getD []) : ℚ) *
          10 ^ ((0 : Int) - (fraction.getD []).length) =
        ofDigits digits * 10 ^ (point - digits.length) := by
  have hzeros (j : Nat) : ∀ b ∈ replicate j zeroDigit, isDigitByte b = true := by
    intro b hb
    rw [eq_of_mem_replicate hb]
    decide
  unfold writtenOut
  by_cases hsmall : point ≤ 0
  · refine ⟨[zeroDigit], some (replicate (-point).toNat zeroDigit ++ digits),
      ⟨cons_ne_nil _ _, hzeros 1, ?_, Or.inl ⟨rfl, rfl⟩⟩, ?_, ?_⟩
    · exact forall_mem_append.mpr ⟨hzeros _, hall⟩
    · rw [if_pos hsmall]
      simp only [spelling, append_nil]
      rfl
    · have hzero : ofDigits [zeroDigit] = 0 := by decide
      have hscale : (0 : Int) - ((-point).toNat + digits.length : Nat) = point - digits.length := by
        omega
      simp only [Option.getD_some, ofDigits_append, ofDigits_zeros, hzero,
        Nat.zero_mul, Nat.zero_add, length_append, length_replicate]
      rw [hscale]
  · rw [if_neg hsmall]
    by_cases hlong : digits.length ≤ point.toNat
    · refine ⟨digits ++ replicate (point.toNat - digits.length) zeroDigit, none,
        ⟨by simp [hne], ?_, nofun, Or.inl ⟨rfl, rfl⟩⟩, ?_, ?_⟩
      · exact forall_mem_append.mpr ⟨hall, hzeros _⟩
      · rw [if_pos hlong]
        simp [spelling]
      · have hscale : point - digits.length = ((point.toNat - digits.length : Nat) : Int) := by
          omega
        rw [hscale]
        simp [ofDigits_append, ofDigits_zeros]
    · rw [if_neg hlong]
      refine ⟨digits.take point.toNat, some (digits.drop point.toNat),
        ⟨?_, fun b hb => hall b (mem_of_mem_take hb),
          fun b hb => hall b (mem_of_mem_drop hb), Or.inl ⟨rfl, rfl⟩⟩, ?_, ?_⟩
      · intro hnil
        rcases take_eq_nil_iff.mp hnil with hzero | hempty
        · omega
        · exact hne hempty
      · simp only [spelling, append_nil, append_assoc]
        rfl
      · have hscale : (0 : Int) - (digits.length - point.toNat : Nat) = point - digits.length := by
          omega
        simp only [Option.getD_some, take_append_drop, length_drop]
        rw [hscale]

theorem pointed_spelled {digits : Bytes} (hne : digits ≠ [])
    (hall : ∀ b ∈ digits, isDigitByte b = true)
    (hsmall : exponent.natAbs < exponentLimit) :
    ∃ whole fraction, Numeral.Spelled whole fraction (exponentText exponent) exponent ∧
      pointed digits ++ exponentText exponent =
        spelling whole fraction (exponentText exponent) ∧
      (ofDigits (whole ++ fraction.getD []) : ℚ) *
          10 ^ (exponent - (fraction.getD []).length) =
        ofDigits digits * 10 ^ (exponent + 1 - digits.length) := by
  cases digits with
  | nil => exact absurd rfl hne
  | cons first rest =>
    obtain ⟨hdigit, hrest⟩ := forall_mem_cons.mp hall
    have hfirst : ∀ b ∈ [first], isDigitByte b = true := forall_mem_singleton.mpr hdigit
    have hscale : exponent + 1 - ((rest.length + 1 : Nat) : Int) = exponent - rest.length := by
      omega
    rw [length_cons, hscale]
    cases rest with
    | nil =>
      exact ⟨[first], none,
        ⟨cons_ne_nil _ _, hfirst, nofun, Or.inr ⟨rfl, hsmall⟩⟩, rfl, rfl⟩
    | cons second rest =>
      exact ⟨[first], some (second :: rest),
        ⟨cons_ne_nil _ _, hfirst, hrest, Or.inr ⟨rfl, hsmall⟩⟩, rfl, rfl⟩

theorem printPositive_spelled (hpos : 0 < d.magnitude) (hfinite : d.magnitude < infinityMagnitude) :
    ∃ whole fraction tail exponent, Numeral.Spelled whole fraction tail exponent ∧
      d.printPositive = spelling whole fraction tail ∧
      d.Near (ofDigits (whole ++ fraction.getD []) *
        10 ^ (exponent - (fraction.getD []).length)) := by
  rcases shortest_near hpos with ⟨n, k, hshortest, hnear⟩
  have hsize := hnear.digits hpos hfinite
  have hall : ∀ b ∈ ofNat n, isDigitByte b = true := fun b hb =>
    isDigitByte_ofNat hb
  have hvalue := ofDigits_ofNat n
  have hne := ofNat_ne_nil n
  unfold printPositive
  rw [hshortest]
  dsimp only
  generalize ofNat n = digits at *
  split
  · rcases writtenOut_spelled hne hall (digits.length + k) with
      ⟨whole, fraction, hspelled, htext, hsame⟩
    refine ⟨whole, fraction, [], 0, hspelled, htext, ?_⟩
    have hscale : (digits.length : Int) + k - digits.length = k := by ring
    rw [hsame, hvalue, hscale]
    exact hnear
  · have hexponent : ((digits.length : Int) + k - 1).natAbs < exponentLimit := by
      unfold exponentLimit
      omega
    rcases pointed_spelled hne hall hexponent with ⟨whole, fraction, hspelled, htext, hsame⟩
    refine ⟨whole, fraction, _, _, hspelled, htext, ?_⟩
    have hscale : (digits.length : Int) + k - 1 + 1 - digits.length = k := by ring
    rw [hsame, hvalue, hscale]
    exact hnear

theorem read_spelling {whole tail : Bytes} {fraction : Option Bytes}
    (h : Numeral.Spelled whole fraction tail exponent) (negative : Bool) :
    read (if negative then "-" ++ spelling whole fraction tail
        else spelling whole fraction tail) =
      value
        { negative := negative, hex := false
          digits := ofDigits (whole ++ fraction.getD [])
          places := (fraction.getD []).length, exponent := exponent } := by
  rcases h.head with ⟨b, rest, hbody, hb⟩
  unfold read
  cases negative with
  | true =>
    have hsign : splitSign ("-" ++ spelling whole fraction tail) =
        (true, spelling whole fraction tail) := rfl
    simp [word_spelling h hsign (Or.inr rfl), split_spelling h hsign]
  | false =>
    have hsign : splitSign (spelling whole fraction tail) =
        (false, spelling whole fraction tail) := by
      rw [hbody]
      exact splitSign_digit rest hb
    simp [word_spelling h hsign (Or.inl rfl), split_spelling h hsign]

/-! ## Writing and reading -/

/-- The words that reading can give: any number, an infinity, or the one NaN. -/
def Canonical (d : Decimal) : Prop := d.isNaN = true → d = nan

instance (d : Decimal) : Decidable d.Canonical := inferInstanceAs (Decidable (_ → _))

theorem isNaN_ofMagnitude {magnitude : Nat} (hle : magnitude ≤ infinityMagnitude) :
    (ofMagnitude negative magnitude).isNaN = false := by
  have hinf : infinityMagnitude < signBit := by decide
  have hsign : 2 * signBit = 2 ^ 64 := by decide
  have hmag : (ofMagnitude negative magnitude).magnitude = magnitude := by
    unfold ofMagnitude Decimal.magnitude
    rw [UInt64.toNat_ofNat']
    cases negative with
    | true =>
      simp only [if_true]
      rw [Nat.mod_eq_of_lt (a := magnitude + signBit) (by omega), Nat.add_mod_right]
      exact Nat.mod_eq_of_lt (by omega)
    | false =>
      simp only [Bool.false_eq_true, if_false]
      rw [Nat.mod_eq_of_lt (by omega)]
      exact Nat.mod_eq_of_lt (by omega)
  unfold isNaN
  exact decide_eq_false (by omega)

theorem canonical_value {n : Numeral} (hvalue : n.value = .ok d) : d.Canonical := by
  have hnumber {negative : Bool} {magnitude : Nat} (hle : magnitude ≤ infinityMagnitude) :
      (ofMagnitude negative magnitude).Canonical := by
    intro hnan
    rw [isNaN_ofMagnitude hle] at hnan
    exact Bool.noConfusion hnan
  unfold value at hvalue
  extract_lets base size at hvalue
  -- The bounds depend on the base, the results that are given there do not.
  generalize (if n.hex then (1100 : Int) else 400) = most at hvalue
  generalize (if n.hex then (-1200 : Int) else -400) = least at hvalue
  split at hvalue
  · exact Except.ok.inj hvalue ▸ hnumber (Nat.zero_le _)
  split at hvalue
  · cases hvalue
  split at hvalue
  · exact Except.ok.inj hvalue ▸ hnumber (Nat.zero_le _)
  unfold nearest? at hvalue
  dsimp only at hvalue
  split at hvalue
  · next hsome =>
    split at hsome
    · next hlt =>
      rw [← Except.ok.inj hvalue, ← Option.some.inj hsome]
      exact hnumber hlt.le
    · cases hsome
  · cases hvalue

/-- Reading gives canonical words. -/
theorem canonical_read {text : Bytes} (hread : read text = .ok d) : d.Canonical := by
  unfold read at hread
  split at hread
  · next w hword =>
    rw [← Except.ok.inj hread]
    unfold word? at hword
    dsimp only at hword
    split at hword
    · rw [← Option.some.inj hword]
      intro hnan
      unfold infinity at hnan
      rw [isNaN_ofMagnitude le_rfl] at hnan
      exact Bool.noConfusion hnan
    · split at hword
      · exact fun _ => (Option.some.inj hword).symm
      · cases hword
  · split at hread
    · exact canonical_value hread
    · cases hread

theorem spelled_zero : Numeral.Spelled [zeroDigit] none [] 0 where
  nonempty := cons_ne_nil _ _
  whole_digits := all_eq_true.mp rfl
  fraction_digits := nofun
  exponent_eq := Or.inl ⟨rfl, rfl⟩

theorem printFinite_spelled (hnan : ¬ d.isNaN = true) (hinfinite : ¬ d.isInfinite = true) :
    ∃ whole fraction tail exponent, Numeral.Spelled whole fraction tail exponent ∧
      (if d.magnitude = 0 then ("0" : Bytes) else d.printPositive) =
        spelling whole fraction tail ∧
      value ⟨d.negative, false, ofDigits (whole ++ fraction.getD []), (fraction.getD []).length,
        exponent⟩ = .ok d := by
  have hword := ofMagnitude_magnitude d
  have hfinite : d.magnitude < infinityMagnitude := by
    simp only [isNaN, isInfinite, decide_eq_true_eq] at hnan hinfinite
    omega
  by_cases hzero : d.magnitude = 0
  · rw [hzero] at hword
    refine ⟨_, _, _, _, spelled_zero, if_pos hzero, ?_⟩
    exact Eq.trans rfl (congrArg Except.ok hword)
  · have hpos := Nat.pos_of_ne_zero hzero
    rcases printPositive_spelled hpos hfinite with
      ⟨whole, fraction, tail, exponent, hspelled, htext, hnear⟩
    refine ⟨whole, fraction, tail, exponent, hspelled, (if_neg hzero).trans htext, ?_⟩
    rw [value_eq hpos hfinite hnear, hword]

theorem zero_not_mem_print (d : Decimal) : 0 ∉ d.print := by
  unfold print
  split
  · decide
  split
  · split <;> decide
  · next hnan hinfinite =>
    rcases printFinite_spelled hnan hinfinite with
      ⟨whole, fraction, tail, exponent, hspelled, htext, -⟩
    have hunsigned : 0 ∉ spelling whole fraction tail := fun hmem =>
      absurd (hspelled.isPlain 0 hmem) (by decide)
    have hminus : 0 ∉ ofString "-" := by decide
    rw [htext]
    split
    · exact fun hmem => (mem_append.mp hmem).elim hminus hunsigned
    · exact hunsigned

/-- Canonical words survive being written and read. -/
theorem read_print (hcanonical : d.Canonical) : read d.print = .ok d := by
  unfold print
  split
  · next hnan =>
    rw [hcanonical hnan]
    rfl
  next hnan =>
  split
  · next hinfinite =>
    have hword : d = infinity d.negative := by
      unfold infinity
      rw [← of_decide_eq_true hinfinite]
      exact (ofMagnitude_magnitude d).symm
    rw [hword]
    cases d.negative <;> rfl
  next hinfinite =>
  rcases printFinite_spelled hnan hinfinite with
    ⟨whole, fraction, tail, exponent, hspelled, htext, hvalue⟩
  rw [htext]
  exact (read_spelling hspelled d.negative).trans hvalue

end Decimal

end Codegen
