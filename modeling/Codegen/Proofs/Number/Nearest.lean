import Codegen.Number.Shortest
import Mathlib.Algebra.Order.Field.Power
import Mathlib.Data.Rat.Cast.Order
import Mathlib.Tactic.FieldSimp
import Mathlib.Tactic.Linarith
import Mathlib.Tactic.NormNum
import Mathlib.Tactic.Ring

/-!
# The Number Nearest to a Fraction

Rounding is computed on a numerator and a denominator: a power of two is found that gives
the fraction 53 bits before the point, and the quotient is rounded there. What it computes
depends on the rational number alone, and it is said here by the interval of rationals that
round to a number, whose ends are a half of the last place away, or a quarter below a
power of two, and belong to it if the significand is even.

`Decimal.Near` is that interval over the rationals. `nearestMagnitude_eq` is the direction
that reading needs: a fraction of the interval rounds to its number. The power that fits
the fraction is the power of the number, except just below a power of two: there the
fraction has the next lower power, and rounding up carries into the exponent.
-/

namespace Codegen.Decimal

variable {d : Decimal} {k den num : Nat}

/-! ## The parts of a finite number -/

theorem magnitude_eq (d : Decimal) :
    d.magnitude = (d.power - leastPower).toNat * leadingBit + d.significand := by
  unfold significand power
  by_cases hzero : d.exponentBits = 0
  · simp [hzero]
  · simp only [hzero, if_false]
    have hsplit : d.magnitude = d.exponentBits * leadingBit + d.magnitude % leadingBit := by
      rw [Nat.mul_comm]
      exact (Nat.div_add_mod _ _).symm
    have hpower : ((d.exponentBits : Int) + leastPower - 1 - leastPower).toNat =
        d.exponentBits - 1 := by omega
    rw [hpower, Nat.sub_mul]
    have hone : leadingBit ≤ d.exponentBits * leadingBit := Nat.le_mul_of_pos_left _ (by omega)
    omega

theorem significand_lt (d : Decimal) : d.significand < 2 * leadingBit := by
  unfold significand
  have hlead : 0 < leadingBit := by decide
  split
  · next hzero =>
    rw [exponentBits, Nat.div_eq_zero_iff] at hzero
    omega
  · have hmod := Nat.mod_lt d.magnitude hlead
    omega

theorem leastPower_le_power (d : Decimal) : leastPower ≤ d.power := by
  unfold power
  split <;> omega

theorem leadingBit_le_significand (hpower : leastPower < d.power) : leadingBit ≤ d.significand := by
  unfold power at hpower
  unfold significand
  split
  · next hzero => simp [hzero] at hpower
  · omega

theorem significand_pos (hpos : 0 < d.magnitude) : 0 < d.significand := by
  have hlead : 0 < leadingBit := by decide
  unfold significand
  split <;> omega

/-! ## The interval -/

/-- How far the interval reaches down, in units of the last place. -/
def reach (d : Decimal) : ℚ :=
  if d.significand = leadingBit && leastPower < d.power then 1 / 4 else 1 / 2

/-- The rationals that round to a positive finite number. -/
def Near (d : Decimal) (x : ℚ) : Prop :=
  (d.significand - d.reach) * 2 ^ d.power ≤ x ∧ x ≤ (d.significand + 1 / 2) * 2 ^ d.power ∧
    (d.significand % 2 = 1 →
      x ≠ (d.significand - d.reach) * 2 ^ d.power ∧ x ≠ (d.significand + 1 / 2) * 2 ^ d.power)

theorem reach_bounds (d : Decimal) : 0 < d.reach ∧ d.reach ≤ 1 / 2 := by
  unfold reach
  split <;> norm_num

theorem Near.pos {x : ℚ} (hpos : 0 < d.magnitude) (hnear : d.Near x) : 0 < x := by
  have hone : (1 : ℚ) ≤ d.significand := by exact_mod_cast significand_pos hpos
  have hreach := (reach_bounds d).2
  have hunit : (0 : ℚ) < 2 ^ d.power := by positivity
  refine lt_of_lt_of_le ?_ hnear.1
  exact mul_pos (by linarith) hunit

/-! ## Rounding -/

/-- A quotient rounds to an integer at most a half away from it, and to an even one if it
    is exactly a half away. -/
theorem roundQuotient_eq {n d : Nat} (hd : 0 < d) (hlow : 2 * (k * d) ≤ 2 * n + d)
    (hhigh : 2 * n ≤ 2 * (k * d) + d)
    (htie : k % 2 = 1 → 2 * (k * d) ≠ 2 * n + d ∧ 2 * n ≠ 2 * (k * d) + d) :
    roundQuotient n d = k := by
  have hdivide : n / d * d + n % d = n := Nat.div_add_mod' n d
  have hmod := Nat.mod_lt n hd
  unfold roundQuotient
  generalize n / d = q at *
  generalize n % d = r at *
  -- Only the two integers around the quotient are within a half.
  have hcases : k = q ∨ k = q + 1 := by
    have hle : q ≤ k := by
      by_contra hlt
      have hstep : (k + 1) * d ≤ q * d := Nat.mul_le_mul_right d (by omega)
      rw [Nat.succ_mul] at hstep
      omega
    have hge : k ≤ q + 1 := by
      by_contra hlt
      have hstep : (q + 2) * d ≤ k * d := Nat.mul_le_mul_right d (by omega)
      have hsum : (q + 2) * d = q * d + 2 * d := by ring
      omega
    omega
  rcases hcases with rfl | rfl
  · have hdown : (decide (d < 2 * r) || (decide (d = 2 * r) && decide (k % 2 = 1))) = false := by
      simp only [Bool.or_eq_false_iff, Bool.and_eq_false_iff, decide_eq_false_iff_not]
      refine ⟨by omega, ?_⟩
      by_cases hodd : k % 2 = 1
      · exact Or.inl (by omega)
      · exact Or.inr hodd
    simp [hdown]
  · have hsum : (q + 1) * d = q * d + d := Nat.succ_mul q d
    have hup : (decide (d < 2 * r) || (decide (d = 2 * r) && decide (q % 2 = 1))) = true := by
      simp only [Bool.or_eq_true, Bool.and_eq_true, decide_eq_true_eq]
      by_cases hodd : q % 2 = 1
      · by_cases htwice : d = 2 * r
        · exact Or.inr ⟨htwice, hodd⟩
        · exact Or.inl (by omega)
      · exact Or.inl (by omega)
    simp [hup]

theorem roundQuotient_eq_of_rat {n d : Nat} (hd : 0 < d) (hlow : (k : ℚ) - 1 / 2 ≤ (n : ℚ) / d)
    (hhigh : (n : ℚ) / d ≤ k + 1 / 2)
    (htie : k % 2 = 1 → (n : ℚ) / d ≠ k - 1 / 2 ∧ (n : ℚ) / d ≠ k + 1 / 2) :
    roundQuotient n d = k := by
  have hdpos : (0 : ℚ) < d := by exact_mod_cast hd
  rw [le_div_iff₀ hdpos] at hlow
  rw [div_le_iff₀ hdpos] at hhigh
  apply roundQuotient_eq hd
  · have hcast : (2 * (k * d) : ℚ) ≤ 2 * n + d := by linarith
    exact_mod_cast hcast
  · have hcast : (2 * n : ℚ) ≤ 2 * (k * d) + d := by linarith
    exact_mod_cast hcast
  · intro hodd
    have hnot := htie hodd
    rw [Ne, div_eq_iff hdpos.ne', Ne, div_eq_iff hdpos.ne'] at hnot
    constructor
    · intro heq
      have hcast : (2 * (k * d) : ℚ) = 2 * n + d := by exact_mod_cast heq
      exact hnot.1 (by linarith)
    · intro heq
      have hcast : (2 * n : ℚ) = 2 * (k * d) + d := by exact_mod_cast heq
      exact hnot.2 (by linarith)

/-! ## The power that fits -/

theorem zpow_eq_div (base : Nat) (hbase : 0 < base) (power : Int) :
    (base : ℚ) ^ power = (base ^ power.toNat : Nat) / (base ^ (-power).toNat : Nat) := by
  have hne : (base : ℚ) ≠ 0 := by exact_mod_cast hbase.ne'
  have hsplit : power = (power.toNat : Int) - ((-power).toNat : Int) := by omega
  nth_rewrite 1 [hsplit]
  rw [zpow_sub₀ hne]
  push_cast
  rfl

theorem scaled_spec (num : Nat) (hden : 0 < den) (power : Int) :
    0 < (scaled num den power).2 ∧
      ((scaled num den power).1 : ℚ) / (scaled num den power).2 = num / den / 2 ^ power := by
  have htwo := zpow_eq_div 2 (by omega) power
  have hup : 0 < 2 ^ power.toNat := Nat.two_pow_pos _
  refine ⟨Nat.mul_pos hden hup, ?_⟩
  rw [Nat.cast_two] at htwo
  simp only [scaled, Nat.pow_eq, Nat.cast_mul, htwo]
  field_simp

/-- The fraction is 53 bits long in units of the power that fits it, before that power is
    held above the least one. -/
theorem fittingPower_spec (hnum : 0 < num) (hden : 0 < den) :
    ∃ e : Int, fittingPower num den = max leastPower e ∧
      (2 : ℚ) ^ (e + 52) ≤ num / den ∧ (num : ℚ) / den < 2 ^ (e + 53) := by
  have hdenq : (0 : ℚ) < den := by exact_mod_cast hden
  have hbounds (n : Nat) (hn : 0 < n) :
      (2 : ℚ) ^ (n.log2 : Int) ≤ n ∧ (n : ℚ) < 2 ^ ((n.log2 : Int) + 1) := by
    have hlow := Nat.log2_self_le hn.ne'
    have hhigh := Nat.lt_log2_self (n := n)
    constructor
    · exact_mod_cast hlow
    · exact_mod_cast hhigh
  generalize hguess : (num.log2 : Int) - den.log2 - 52 = guess
  -- The lengths alone give the length of the fraction up to one bit.
  have habove : (2 : ℚ) ^ (guess + 51) ≤ num / den := by
    rw [le_div_iff₀ hdenq]
    have hden2 := (hbounds den hden).2.le
    calc (2 : ℚ) ^ (guess + 51) * den
        ≤ 2 ^ (guess + 51) * 2 ^ ((den.log2 : Int) + 1) := by gcongr
      _ = 2 ^ (num.log2 : Int) := by
          rw [← zpow_add₀ (by norm_num)]
          congr 1
          omega
      _ ≤ num := (hbounds num hnum).1
  have hbelow : (num : ℚ) / den < 2 ^ (guess + 53) := by
    rw [div_lt_iff₀ hdenq]
    calc (num : ℚ) < 2 ^ ((num.log2 : Int) + 1) := (hbounds num hnum).2
      _ = 2 ^ (guess + 53) * 2 ^ (den.log2 : Int) := by
          rw [← zpow_add₀ (by norm_num)]
          congr 1
          omega
      _ ≤ 2 ^ (guess + 53) * den := by
          gcongr
          exact (hbounds den hden).1
  have hscaled := scaled_spec num hden guess
  have hsize : (scaled num den guess).1 / (scaled num den guess).2 < leadingBit ↔
      (num : ℚ) / den < 2 ^ (guess + 52) := by
    have hpos : (0 : ℚ) < (scaled num den guess).2 := by exact_mod_cast hscaled.1
    have hunit : (0 : ℚ) < 2 ^ guess := by positivity
    rw [Nat.div_lt_iff_lt_mul hscaled.1, zpow_add₀ (by norm_num), mul_comm ((2 : ℚ) ^ guess),
      ← div_lt_iff₀ hunit, ← hscaled.2, div_lt_iff₀ hpos]
    norm_cast
  unfold fittingPower
  rw [hguess]
  by_cases hshort : (scaled num den guess).1 / (scaled num den guess).2 < leadingBit
  · refine ⟨guess - 1, by simp [hshort], ?_, ?_⟩
    · have hexp : guess - 1 + 52 = guess + 51 := by ring
      rw [hexp]
      exact habove
    · have hexp : guess - 1 + 53 = guess + 52 := by ring
      rw [hexp]
      exact hsize.mp hshort
  · refine ⟨guess, by simp [hshort], ?_, hbelow⟩
    exact not_lt.mp fun hlt => hshort (hsize.mpr hlt)

/-! ## Rounding to a number -/

theorem nearestMagnitude_of_power {power : Int} (hnum : 0 < num) (hden : 0 < den)
    (hpower : fittingPower num den = power) (hlow : ((k : ℚ) - 1 / 2) * 2 ^ power ≤ num / den)
    (hhigh : (num : ℚ) / den ≤ (k + 1 / 2) * 2 ^ power)
    (htie : k % 2 = 1 → (num : ℚ) / den ≠ (k - 1 / 2) * 2 ^ power ∧
      (num : ℚ) / den ≠ (k + 1 / 2) * 2 ^ power) :
    nearestMagnitude num den = (power - leastPower).toNat * leadingBit + k := by
  have hscaled := scaled_spec num hden power
  have hunit : (0 : ℚ) < 2 ^ power := by positivity
  have hround : roundQuotient (scaled num den power).1 (scaled num den power).2 = k := by
    apply roundQuotient_eq_of_rat hscaled.1
    · rw [hscaled.2, le_div_iff₀ hunit]
      exact hlow
    · rw [hscaled.2, div_le_iff₀ hunit]
      exact hhigh
    · intro hodd
      rw [hscaled.2, Ne, div_eq_iff hunit.ne', Ne, div_eq_iff hunit.ne']
      exact htie hodd
  unfold nearestMagnitude
  rw [if_neg hnum.ne', hpower, ← hround]

/-- The power that fits a fraction of the interval is the number's own, or the next lower
    one if the number is a power of two and the fraction below it. -/
theorem Near.fittingPower (hnum : 0 < num) (hden : 0 < den) (hnear : d.Near (num / den)) :
    fittingPower num den = d.power ∨
      fittingPower num den = d.power - 1 ∧ leastPower < d.power ∧ d.significand = leadingBit ∧
        ((2 : ℚ) ^ 53 - 1 / 2) * 2 ^ (d.power - 1) ≤ num / den ∧
        (num : ℚ) / den < 2 ^ 53 * 2 ^ (d.power - 1) := by
  have hunit : (0 : ℚ) < 2 ^ d.power := by positivity
  have hreach := reach_bounds d
  rcases fittingPower_spec hnum hden with ⟨e, hfit, hlow, hhigh⟩
  -- The fraction is shorter than 54 bits in units of the number's last place.
  have hle : e ≤ d.power := by
    by_contra hlt
    have hmono : (2 : ℚ) ^ (d.power + 53) ≤ 2 ^ (e + 52) :=
      zpow_le_zpow_right₀ (by norm_num) (by omega)
    rw [zpow_add₀ (by norm_num), mul_comm] at hmono
    have hcancel := le_of_mul_le_mul_right (hmono.trans (hlow.trans hnear.2.1)) hunit
    have htop : (d.significand : ℚ) + 1 ≤ 2 ^ 53 := by
      have hlt := significand_lt d
      have hlead : 2 * leadingBit = 2 ^ 53 := by decide
      exact_mod_cast (by omega : d.significand + 1 ≤ 2 ^ 53)
    linarith
  have hleast := leastPower_le_power d
  by_cases hsame : Decimal.fittingPower num den = d.power
  · exact Or.inl hsame
  have hlower : e < d.power ∧ leastPower < d.power := by omega
  have hhalves : (2 : ℚ) ^ d.power = 2 * 2 ^ (d.power - 1) := by
    rw [zpow_sub_one₀ (by norm_num)]
    ring
  -- The fraction is below the power of two that the significand begins with.
  have hunder : (num : ℚ) / den < 2 ^ 53 * 2 ^ (d.power - 1) := by
    refine lt_of_lt_of_le hhigh ?_
    have hmono : (2 : ℚ) ^ (e + 53) ≤ 2 ^ (d.power - 1 + 53) :=
      zpow_le_zpow_right₀ (by norm_num) (by omega)
    refine hmono.trans (le_of_eq ?_)
    rw [zpow_add₀ (by norm_num), mul_comm]
    norm_num
  have hsig : d.significand = leadingBit := by
    have hwhole : (2 : ℚ) ^ 53 * 2 ^ (d.power - 1) = 2 ^ 52 * 2 ^ d.power := by
      rw [hhalves]
      ring
    have hedge : (d.significand : ℚ) - d.reach < 2 ^ 52 :=
      lt_of_mul_lt_mul_right (hnear.1.trans_lt (hunder.trans_eq hwhole)) hunit.le
    have hcast : (d.significand : ℚ) < 2 ^ 52 + 1 := by linarith
    have hnat : d.significand < 2 ^ 52 + 1 := by exact_mod_cast hcast
    have hlead := leadingBit_le_significand hlower.2
    have hvalue : leadingBit = 2 ^ 52 := by decide
    omega
  have hover : ((2 : ℚ) ^ 53 - 1 / 2) * 2 ^ (d.power - 1) ≤ num / den := by
    have hquarter : d.reach = 1 / 4 := by
      unfold reach
      rw [if_pos (by simp [hsig, hlower.2])]
    have hsigq : (d.significand : ℚ) = 2 ^ 52 := by
      rw [hsig]
      norm_num [leadingBit]
    have hfrom := hnear.1
    rw [hsigq, hquarter] at hfrom
    linarith
  refine Or.inr ⟨?_, hlower.2, hsig, hover, hunder⟩
  have hexact : e = d.power - 1 := by
    by_contra hne
    have hmono : (2 : ℚ) ^ (e + 53) ≤ 2 ^ (d.power - 1 + 52) :=
      zpow_le_zpow_right₀ (by norm_num) (by omega)
    rw [zpow_add₀ (by norm_num) (d.power - 1), mul_comm] at hmono
    have hunit' : (0 : ℚ) < 2 ^ (d.power - 1) := by positivity
    have hcancel := lt_of_mul_lt_mul_right (hover.trans_lt (hhigh.trans_le hmono)) hunit'.le
    norm_num at hcancel
  omega

/-- A fraction of the interval rounds to its number. -/
theorem nearestMagnitude_eq (hpos : 0 < d.magnitude) (hden : 0 < den) (hnear : d.Near (num / den)) :
    nearestMagnitude num den = d.magnitude := by
  have hdenq : (0 : ℚ) < den := by exact_mod_cast hden
  have hnum : 0 < num := by
    have hmul := mul_pos (hnear.pos hpos) hdenq
    rw [div_mul_cancel₀ _ hdenq.ne'] at hmul
    exact_mod_cast hmul
  have hunit : (0 : ℚ) < 2 ^ d.power := by positivity
  have hreach := reach_bounds d
  rw [magnitude_eq]
  rcases hnear.fittingPower hnum hden with hsame | ⟨hlower, hleast, hsig, hover, hunder⟩
  · refine nearestMagnitude_of_power hnum hden hsame ?_ hnear.2.1 ?_
    · refine le_trans ?_ hnear.1
      exact mul_le_mul_of_nonneg_right (by linarith) hunit.le
    · intro hodd
      refine ⟨?_, (hnear.2.2 hodd).2⟩
      intro heq
      -- The half below is in the interval only if the interval ends there.
      have hbelow := hnear.1
      rw [heq] at hbelow
      have hcancel := le_of_mul_le_mul_right hbelow hunit
      have hhalf : d.reach = 1 / 2 := by linarith
      exact (hnear.2.2 hodd).1 (by rw [heq, hhalf])
  · -- Rounding gives one more than the largest significand of the lower power.
    have htop : ((2 * leadingBit : Nat) : ℚ) = 2 ^ 53 := by norm_num [leadingBit]
    have hcarry := nearestMagnitude_of_power hnum hden hlower
      (by rw [htop]; exact hover)
      (by rw [htop]; linarith)
      (fun hodd => absurd hodd (by decide))
    rw [hcarry, hsig]
    have hnext : (d.power - leastPower).toNat = (d.power - 1 - leastPower).toNat + 1 := by omega
    rw [hnext]
    ring

end Codegen.Decimal
