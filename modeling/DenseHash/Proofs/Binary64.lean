import Mathlib.Algebra.Order.Field.Power
import Mathlib.Algebra.Order.Floor.Semifield
import Mathlib.Data.Rat.Floor
import Mathlib.Tactic.FieldSimp
import Mathlib.Tactic.Linarith
import Mathlib.Tactic.NormNum
import Mathlib.Tactic.Positivity
import Mathlib.Tactic.Ring
import DenseHash.Binary64.Rounding

/-!
# Rounding, in rational numbers

What the integer arithmetic of the rounding module computes, said of exact rational numbers.

* **`Nearest q m`**: the integer `m` is the exact `q`, rounded. Rounding never crosses an integer.
* **`roundRatio_cases`**: a quotient is scaled into `[2 ^ 52, 2 ^ 53)` before it is rounded, so rounding never
  crosses a power of two (`roundRatio_le`), and what is rounded down to one was at most half a unit above it
  (`le_of_roundRatio_le`). What has 53 significant bits is not changed (`roundRatio_exact`).
* **`Meaning.value`**: the number that a meaning stands for; comparing and cutting to words go by it.
-/

namespace DenseHash

/-! ## Rounding to an integer -/

/-- The integer nearest to an exact number. -/
structure Nearest (q : ℚ) (m : Nat) : Prop where
  le : ∀ {n : Nat}, q ≤ n → m ≤ n
  ge : ∀ {n : Nat}, (n : ℚ) ≤ q → n ≤ m
  near : q ≤ m + 1 / 2

/-- Rounding is off by half a unit at most, without division. -/
theorem roundHalfEven_bounds (num : Nat) {den : Nat} (hden : 0 < den) :
    2 * (roundHalfEven num den * den) ≤ 2 * num + den ∧ 2 * num ≤ 2 * (roundHalfEven num den * den) + den := by
  have hdiv : num / den * den + num % den = num := Nat.div_add_mod' num den
  have hmod := Nat.mod_lt num hden
  rw [roundHalfEven]
  split
  · constructor <;> omega
  · split
    · rw [Nat.add_mul, Nat.one_mul]
      constructor <;> omega
    -- a half is left as it is or goes up by one
    · rcases Nat.mod_two_eq_zero_or_one (num / den) with heven | hodd
      · rw [heven, Nat.add_zero]
        constructor <;> omega
      · rw [hodd, Nat.add_mul, Nat.one_mul]
        constructor <;> omega

/-- No whole number is nearer than the one that is rounded to. -/
theorem nearest_roundHalfEven (num : Nat) {den : Nat} (hden : 0 < den) :
    Nearest ((num : ℚ) / den) (roundHalfEven num den) := by
  obtain ⟨habove, hbelow⟩ := roundHalfEven_bounds num hden
  have hpos : (0 : ℚ) < den := by exact_mod_cast hden
  refine ⟨fun {n} hn => ?_, fun {n} hn => ?_, ?_⟩
  · rw [div_le_iff₀ hpos] at hn
    have hnat : num ≤ n * den := by exact_mod_cast hn
    have htwice : 2 * roundHalfEven num den * den ≤ (2 * n + 1) * den := by
      rw [Nat.add_mul, Nat.one_mul, Nat.mul_assoc, Nat.mul_assoc]
      omega
    have := Nat.le_of_mul_le_mul_right htwice hden
    omega
  · rw [le_div_iff₀ hpos] at hn
    have hnat : n * den ≤ num := by exact_mod_cast hn
    have htwice : 2 * n * den ≤ (2 * roundHalfEven num den + 1) * den := by
      rw [Nat.add_mul, Nat.one_mul, Nat.mul_assoc, Nat.mul_assoc]
      omega
    have := Nat.le_of_mul_le_mul_right htwice hden
    omega
  · rw [div_le_iff₀ hpos]
    have hcast : 2 * (num : ℚ) ≤ 2 * (roundHalfEven num den * den) + den := by exact_mod_cast hbelow
    linarith

/-! ## Rounding to 53 bits -/

/-- The number that a mantissa and an exponent stand for. -/
def scaled (mantissa : Nat) (exponent : Int) : ℚ := mantissa * 2 ^ exponent

/-- A power of two, as the quotient of two powers of which one is 1. -/
theorem two_pow_toNat_div (s : Int) : (2 : ℚ) ^ s.toNat / 2 ^ (-s).toNat = 2 ^ s := by
  rw [← zpow_natCast, ← zpow_natCast, ← zpow_sub₀ two_ne_zero]
  congr 1
  omega

/-- A scaled number as the quotient of two whole ones. -/
theorem scaled_eq_div (m : Nat) (e : Int) :
    scaled m e = ((m * 2 ^ e.toNat : Nat) : ℚ) / ((2 ^ (-e).toNat : Nat) : ℚ) := by
  rw [scaled, ← two_pow_toNat_div e]
  push_cast
  ring

theorem mul_two_zpow_le_iff {q : ℚ} {s j : Int} : q * 2 ^ s ≤ 2 ^ (j + s) ↔ q ≤ 2 ^ j := by
  rw [zpow_add₀ two_ne_zero]
  exact mul_le_mul_iff_left₀ (zpow_pos two_pos s)

/-- What the binary logarithms of its parts say about a quotient. -/
theorem quotient_bounds {num den : Nat} (hnum : num ≠ 0) (hden : den ≠ 0) :
    (2 : ℚ) ^ ((num.log2 : Int) - den.log2 - 1) < num / den ∧
      (num : ℚ) / den < 2 ^ ((num.log2 : Int) - den.log2 + 1) := by
  have hpos : (0 : ℚ) < den := by exact_mod_cast Nat.pos_of_ne_zero hden
  have hnum₁ : (2 : ℚ) ^ (num.log2 : Int) ≤ num := by exact_mod_cast Nat.log2_self_le hnum
  have hnum₂ : (num : ℚ) < 2 ^ ((num.log2 : Int) + 1) := by exact_mod_cast Nat.lt_log2_self (n := num)
  have hden₁ : (2 : ℚ) ^ (den.log2 : Int) ≤ den := by exact_mod_cast Nat.log2_self_le hden
  have hden₂ : (den : ℚ) < 2 ^ ((den.log2 : Int) + 1) := by exact_mod_cast Nat.lt_log2_self (n := den)
  constructor
  · rw [lt_div_iff₀ hpos]
    calc (2 : ℚ) ^ ((num.log2 : Int) - den.log2 - 1) * den
        < 2 ^ ((num.log2 : Int) - den.log2 - 1) * 2 ^ ((den.log2 : Int) + 1) :=
          mul_lt_mul_of_pos_left hden₂ (zpow_pos two_pos _)
      _ = 2 ^ (num.log2 : Int) := by rw [← zpow_add₀ two_ne_zero]; congr 1; ring
      _ ≤ num := hnum₁
  · rw [div_lt_iff₀ hpos]
    calc (num : ℚ) < 2 ^ ((num.log2 : Int) + 1) := hnum₂
      _ = 2 ^ ((num.log2 : Int) - den.log2 + 1) * 2 ^ (den.log2 : Int) := by
          rw [← zpow_add₀ two_ne_zero]; congr 1; ring
      _ ≤ 2 ^ ((num.log2 : Int) - den.log2 + 1) * den := by
          exact mul_le_mul_of_nonneg_left hden₁ (zpow_pos two_pos _).le

/-- Scaling the parts of a quotient scales it. -/
theorem scaled_quotient (num den : Nat) (s : Int) :
    ((num * 2 ^ s.toNat : Nat) : ℚ) / ((den * 2 ^ (-s).toNat : Nat) : ℚ) = num / den * 2 ^ s := by
  rw [← two_pow_toNat_div s]
  push_cast
  rw [div_mul_div_comm]

/-- A quotient is brought to 53 bits before the point and rounded there. -/
theorem roundRatio_cases {num den : Nat} (hnum : num ≠ 0) (hden : den ≠ 0) :
    ∃ (m : Nat) (s : Int), roundRatio num den = (m, -s) ∧ (2 : ℚ) ^ (52 : Int) ≤ num / den * 2 ^ s ∧
      (num : ℚ) / den * 2 ^ s < 2 ^ (53 : Int) ∧ Nearest ((num : ℚ) / den * 2 ^ s) m := by
  obtain ⟨hlow, hhigh⟩ := quotient_bounds hnum hden
  have hnear (s : Int) := nearest_roundHalfEven (num * 2 ^ s.toNat) (show 0 < den * 2 ^ (-s).toNat by positivity)
  simp only [scaled_quotient] at hnear
  rw [roundRatio, if_neg hnum]
  dsimp only
  generalize hguess : (52 + (den.log2 : Int) - num.log2) = guess
  have hupper : (num : ℚ) / den * 2 ^ guess < 2 ^ (53 : Int) := by
    rw [show (53 : Int) = (num.log2 : Int) - den.log2 + 1 + guess by omega, zpow_add₀ two_ne_zero]
    exact mul_lt_mul_of_pos_right hhigh (zpow_pos two_pos _)
  have hlower : (2 : ℚ) ^ (51 : Int) < num / den * 2 ^ guess := by
    rw [show (51 : Int) = (num.log2 : Int) - den.log2 - 1 + guess by omega, zpow_add₀ two_ne_zero]
    exact mul_lt_mul_of_pos_right hlow (zpow_pos two_pos _)
  -- the guess is one too small if the quotient of the mantissas is below 1
  have htest : num * .pow 2 guess.toNat < (1 <<< 52) * (den * .pow 2 (-guess).toNat) ↔
      (num : ℚ) / den * 2 ^ guess < 2 ^ (52 : Int) := by
    rw [← scaled_quotient, div_lt_iff₀ (by positivity)]
    norm_cast
  split
  · rename_i hsmall
    have hstep : (2 : ℚ) ^ (guess + 1) = 2 ^ guess * 2 := zpow_add_one₀ two_ne_zero guess
    have hsmall' := htest.mp hsmall
    refine ⟨_, guess + 1, rfl, ?_, ?_, hnear (guess + 1)⟩
    · rw [hstep, ← mul_assoc, show (52 : Int) = 51 + 1 by rfl, zpow_add_one₀ two_ne_zero]
      linarith
    · rw [hstep, ← mul_assoc, show (53 : Int) = 52 + 1 by rfl, zpow_add_one₀ two_ne_zero]
      linarith
  · rename_i hlarge
    exact ⟨_, guess, rfl, not_lt.mp (htest.not.mp hlarge), hupper, hnear guess⟩

section Ratio

variable {num den : Nat} {j : Int}

/-- The number that a quotient is rounded to. -/
def rounded (num den : Nat) : ℚ := scaled (roundRatio num den).1 (roundRatio num den).2

/-- The rounded quotient is the significand at its scale. -/
theorem rounded_eq {m : Nat} {s : Int} (h : roundRatio num den = (m, -s)) : rounded num den = m * 2 ^ (-s) := by
  rw [rounded, h, scaled]

/-- There is no integer between two multiples of `1`, `1/2`, `1/4` and so on that follow each other. -/
theorem natCast_le_mul_zpow {n k : Nat} {e : Int} (he : e ≤ 0) (h : (n : ℚ) < (k + 1) * 2 ^ e) :
    (n : ℚ) ≤ k * 2 ^ e := by
  have hinverse : (2 : ℚ) ^ e * 2 ^ (-e).toNat = 1 := by
    rw [← zpow_natCast, ← zpow_add₀ two_ne_zero, show e + ((-e).toNat : Int) = 0 by omega, zpow_zero]
  have hnat : n * 2 ^ (-e).toNat < k + 1 := by
    have := mul_lt_mul_of_pos_right h (show (0 : ℚ) < 2 ^ (-e).toNat by positivity)
    rw [mul_assoc, hinverse, mul_one] at this
    exact_mod_cast this
  have hback : (n : ℚ) * 2 ^ (-e).toNat ≤ k := by exact_mod_cast Nat.lt_succ_iff.mp hnat
  calc (n : ℚ) = n * 2 ^ (-e).toNat * 2 ^ e := by
        rw [mul_assoc, mul_comm _ ((2 : ℚ) ^ e), hinverse, mul_one]
    _ ≤ k * 2 ^ e := mul_le_mul_of_nonneg_right hback (zpow_pos two_pos e).le

/-- A mantissa at most a power of two. -/
theorem scaled_le_iff {m : Nat} {s : Int} : (m : ℚ) * 2 ^ (-s) ≤ 2 ^ j ↔ (m : ℚ) ≤ 2 ^ (j + s) := by
  rw [zpow_neg, ← div_eq_mul_inv, div_le_iff₀ (zpow_pos two_pos s), zpow_add₀ two_ne_zero]

/-- A power of two that a scaled quotient does not exceed is an integer. -/
theorem exists_nat_two_zpow {k : Int} (h : (2 : ℚ) ^ (52 : Int) ≤ 2 ^ k) : ∃ n : Nat, (n : ℚ) = 2 ^ k := by
  have hk : (52 : Int) ≤ k := (zpow_le_zpow_iff_right₀ one_lt_two).mp h
  refine ⟨2 ^ k.toNat, ?_⟩
  rw [Nat.cast_pow, ← zpow_natCast]
  congr 1
  omega

/-- Rounding does not carry a quotient above a power of two. -/
theorem roundRatio_le (hden : den ≠ 0) (h : (num : ℚ) / den ≤ 2 ^ j) : rounded num den ≤ 2 ^ j := by
  by_cases hnum : num = 0
  · rw [rounded, roundRatio, if_pos hnum, scaled, Nat.cast_zero, zero_mul]
    exact (zpow_pos two_pos j).le
  · obtain ⟨m, s, heq, hlow, -, hnear⟩ := roundRatio_cases hnum hden
    have hle : (num : ℚ) / den * 2 ^ s ≤ 2 ^ (j + s) := mul_two_zpow_le_iff.mpr h
    obtain ⟨n, hn⟩ := exists_nat_two_zpow (hlow.trans hle)
    rw [rounded_eq heq, scaled_le_iff, ← hn]
    exact_mod_cast hnear.le (hle.trans hn.ge)

/-- A quotient that is not carried above a power of two exceeds it by half a unit at most. -/
theorem le_of_roundRatio_le (hden : den ≠ 0) (h : rounded num den ≤ 2 ^ j) :
    (num : ℚ) / den ≤ 2 ^ j * (1 + 2 ^ (-53 : Int)) := by
  have hhalf : (0 : ℚ) < 2 ^ (-53 : Int) := zpow_pos two_pos _
  by_cases hnum : num = 0
  · rw [hnum, Nat.cast_zero, zero_div]
    positivity
  · obtain ⟨m, s, heq, hlow, hhigh, hnear⟩ := roundRatio_cases hnum hden
    rw [rounded_eq heq, scaled_le_iff] at h
    have hpos : (0 : ℚ) < 2 ^ s := zpow_pos two_pos s
    have hm : (2 : ℚ) ^ (52 : Int) ≤ m := by
      have : (2 : Nat) ^ 52 ≤ m := hnear.ge (by exact_mod_cast hlow)
      exact_mod_cast this
    -- the scaled power is at least `2 ^ 52`, so half a unit is a small part of it
    have hjs : (2 : ℚ) ^ (52 : Int) ≤ 2 ^ (j + s) := hm.trans h
    have hunit : (1 : ℚ) / 2 ≤ 2 ^ (j + s) * 2 ^ (-53 : Int) := by
      calc (1 : ℚ) / 2 = 2 ^ (52 : Int) * 2 ^ (-53 : Int) := by norm_num
        _ ≤ 2 ^ (j + s) * 2 ^ (-53 : Int) := mul_le_mul_of_nonneg_right hjs hhalf.le
    have hscaled : (num : ℚ) / den * 2 ^ s ≤ 2 ^ j * (1 + 2 ^ (-53 : Int)) * 2 ^ s := by
      calc (num : ℚ) / den * 2 ^ s ≤ m + 1 / 2 := hnear.near
        _ ≤ 2 ^ (j + s) + 2 ^ (j + s) * 2 ^ (-53 : Int) := add_le_add h hunit
        _ = 2 ^ j * (1 + 2 ^ (-53 : Int)) * 2 ^ s := by rw [zpow_add₀ two_ne_zero]; ring
    exact le_of_mul_le_mul_right hscaled hpos

/-- A quotient that has no more than 53 significant bits is not changed. -/
theorem roundRatio_exact {n : Nat} (hden : den ≠ 0) (hn : n < 2 ^ 53) (h : (num : ℚ) / den = n * 2 ^ j) :
    rounded num den = num / den := by
  by_cases hnum : num = 0
  · rw [rounded, roundRatio, if_pos hnum, scaled, hnum, Nat.cast_zero, zero_mul, zero_div]
  · obtain ⟨m, s, heq, hlow, -, hnear⟩ := roundRatio_cases hnum hden
    have hcast : (n : ℚ) < 2 ^ (53 : Int) := by exact_mod_cast hn
    have hq : (num : ℚ) / den * 2 ^ s = n * 2 ^ (j + s) := by
      rw [h, zpow_add₀ two_ne_zero, mul_assoc]
    -- the scaled quotient is an integer, because a smaller scale would leave it below `2 ^ 52`
    have hjs : 0 ≤ j + s := by
      by_contra hneg
      have hle : (2 : ℚ) ^ (j + s) ≤ 2 ^ (-1 : Int) := (zpow_le_zpow_iff_right₀ one_lt_two).mpr (by omega)
      have : (num : ℚ) / den * 2 ^ s < 2 ^ (52 : Int) := by
        calc (num : ℚ) / den * 2 ^ s = n * 2 ^ (j + s) := hq
          _ ≤ n * 2 ^ (-1 : Int) := mul_le_mul_of_nonneg_left hle (Nat.cast_nonneg n)
          _ < 2 ^ (53 : Int) * 2 ^ (-1 : Int) := mul_lt_mul_of_pos_right hcast (zpow_pos two_pos _)
          _ = 2 ^ (52 : Int) := by norm_num
      exact absurd hlow (not_le.mpr this)
    have hint : (num : ℚ) / den * 2 ^ s = ((n * 2 ^ (j + s).toNat : Nat) : ℚ) := by
      rw [hq, Nat.cast_mul, Nat.cast_pow, ← zpow_natCast, Int.toNat_of_nonneg hjs]
      rfl
    have hm : (m : ℚ) = num / den * 2 ^ s := by
      rw [hint]
      exact_mod_cast Nat.le_antisymm (hnear.le hint.le) (hnear.ge hint.ge)
    rw [rounded_eq heq, hm, mul_assoc, ← zpow_add₀ two_ne_zero, add_neg_cancel, zpow_zero, mul_one]

end Ratio

/-! ## Meanings -/

namespace Meaning

/-- The number that a meaning stands for, zero for those that stand for none. -/
def value : Meaning → ℚ
  | finite negative m e => if negative then -scaled m e else scaled m e
  | _ => 0

variable {m n : Nat} {e f : Int}

theorem signed_mul (s : Bool) (m : Nat) (e : Int) :
    (signed s m : ℚ) * 2 ^ e = (finite s m e).value := by
  cases s <;> simp [signed, value, scaled]

/-- Comparing finite numbers compares their values. -/
theorem atMost_finite_iff (s t : Bool) :
    (finite s m e).atMost (finite t n f) = true ↔ (finite s m e).value ≤ (finite t n f).value := by
  have hpow (g : Int) : (2 : ℚ) ^ (g.toNat) = 2 ^ (max g 0) := by
    rw [← zpow_natCast, Int.toNat_eq_max]
  have hscale : (signed s m : ℚ) * 2 ^ (e - f).toNat ≤ signed t n * 2 ^ (f - e).toNat ↔
      (signed s m : ℚ) * 2 ^ e ≤ signed t n * 2 ^ f := by
    rw [hpow, hpow, ← mul_le_mul_iff_left₀ (zpow_pos (two_pos (α := ℚ)) (min e f)), mul_assoc, mul_assoc,
      ← zpow_add₀ two_ne_zero, ← zpow_add₀ two_ne_zero, show max (e - f) 0 + min e f = e by omega,
      show max (f - e) 0 + min e f = f by omega]
  rw [← signed_mul, ← signed_mul, ← hscale, atMost, decide_eq_true_iff]
  exact_mod_cast Iff.rfl

/-- A number becomes a word by rounding down, and at the largest word it stays. -/
theorem floorWord_eq : (finite false m e).floorWord = min ⌊scaled m e⌋₊ maxWord := by
  rw [scaled_eq_div, Nat.floor_div_eq_div]
  rfl

/-- The least integer above is at most a word if the number is. -/
theorem ceilWord_le_iff (hn : n < maxWord) : (finite false m e).ceilWord ≤ n ↔ scaled m e ≤ n := by
  rw [scaled_eq_div, div_le_iff₀ (by positivity)]
  show min ((m * 2 ^ e.toNat + (2 ^ (-e).toNat - 1)) / 2 ^ (-e).toNat) maxWord ≤ n ↔ _
  have hpos := Nat.two_pow_pos (-e).toNat
  rw [min_le_iff, Nat.div_le_iff_le_mul_add_pred hpos]
  norm_cast
  rw [Nat.mul_comm n]
  constructor
  · rintro (h | h) <;> omega
  · intro h
    exact .inl (by omega)

theorem value_ofNat_eq (n : Nat) : (ofNat n).value = rounded n 1 := rfl

/-- Numbers below `2 ^ 53` are exact. -/
theorem value_ofNat (hn : n < 2 ^ 53) : (ofNat n).value = n := by
  rw [value_ofNat_eq, roundRatio_exact (n := n) (j := 0) one_ne_zero hn (by simp)]
  simp

end Meaning

end DenseHash
