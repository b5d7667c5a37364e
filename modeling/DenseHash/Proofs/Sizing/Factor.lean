import DenseHash.Proofs.Binary64
import DenseHash.Sizing

/-!
# Load factors, capacity and quotients

A load factor that settings accept is a number from 1/4 to 1. Multiplied by a power of two it is not rounded, so
`capacityOf` is the exact product cut to an integer (`capacityOf_two_pow`), and it grows with the buckets.

The quotient of a count by a load factor is rounded twice, first the count and then the quotient. That does no
harm: the result is never carried above a power of two (`bucketsWanted_le`), and what is carried down to one was
less than one entry above it (`le_capacityOf_of_quotient`).
-/

namespace DenseHash

/-! ## Load factors -/

namespace Binary64

/-- A number from 1/4 to 1. -/
def IsLoad (x : Binary64) : Prop := quarter.atMost x = true ∧ x.atMost one = true

/-- The number itself. -/
def value (x : Binary64) : ℚ := x.meaning.value

/-- The mantissa of a finite number has 53 bits; one that has all of them is worth its exponent. -/
theorem mantissa_of_meaning {x : Binary64} {negative : Bool} {m : Nat} {e : Int}
    (h : x.meaning = .finite negative m e) : m < 2 ^ 53 ∧ (e = -1074 ∨ 2 ^ 52 ≤ m) := by
  have hfraction : x.fraction < 1 <<< 52 := Nat.mod_lt _ (by decide)
  have hone : 1 <<< 52 = 2 ^ 52 := rfl
  have htwice : 2 ^ 53 = 2 * 2 ^ 52 := rfl
  rw [meaning] at h
  split at h
  · split at h <;> exact nomatch h
  · split at h
    · injection h with _ hm he
      exact ⟨by omega, .inl he.symm⟩
    · injection h with _ hm _
      exact ⟨by omega, .inr (by omega)⟩

theorem value_quarter : quarter.value = 1 / 4 := by
  rw [value, show quarter.meaning = .finite false (1 <<< 52) (-54) from rfl]
  norm_num [Meaning.value, scaled, Nat.shiftLeft_eq]

theorem value_one : one.value = 1 := by
  rw [value, show one.meaning = .finite false (1 <<< 52) (-52) from rfl]
  norm_num [Meaning.value, scaled, Nat.shiftLeft_eq]

variable {x : Binary64}

/-- A number up to 1 has a small exponent, if its mantissa is full. -/
theorem exponent_le {m : Nat} {e : Int} (hfull : e = -1074 ∨ 2 ^ 52 ≤ m) (hone : scaled m e ≤ 1) : e ≤ -52 := by
  rcases hfull with rfl | hfull
  · decide
  -- a larger exponent would take the number above 1
  · by_contra hlarge
    have hexp : (2 : ℚ) ^ (-51 : Int) ≤ 2 ^ e := (zpow_le_zpow_iff_right₀ one_lt_two).mpr (by omega)
    have hcast : (2 : ℚ) ^ (52 : Int) ≤ m := by exact_mod_cast hfull
    have : (2 : ℚ) ≤ scaled m e := by
      calc (2 : ℚ) = 2 ^ (52 : Int) * 2 ^ (-51 : Int) := by norm_num
        _ ≤ m * 2 ^ e := mul_le_mul hcast hexp (zpow_pos two_pos _).le (Nat.cast_nonneg m)
    linarith

/-- What a load factor stands for. -/
theorem IsLoad.exists_meaning (h : x.IsLoad) :
    ∃ m e, x.meaning = .finite false m e ∧ x.value = scaled m e ∧ 0 < m ∧ m < 2 ^ 53 ∧ e ≤ -52 ∧
      1 / 4 ≤ x.value ∧ x.value ≤ 1 := by
  obtain ⟨hlow, hhigh⟩ := h
  rw [atMost, show quarter.meaning = .finite false (1 <<< 52) (-54) from rfl] at hlow
  rw [atMost, show one.meaning = .finite false (1 <<< 52) (-52) from rfl] at hhigh
  cases hx : x.meaning with
  | nan =>
      rw [hx] at hlow
      exact nomatch hlow
  | infinite negative =>
      rw [hx] at hlow hhigh
      cases negative with
      | false => exact nomatch hhigh
      | true => exact nomatch hlow
  | finite negative m e =>
      rw [hx, Meaning.atMost_finite_iff] at hlow hhigh
      have hquarter : 1 / 4 ≤ x.value := by
        rw [← value_quarter, value, value, hx]
        exact hlow
      have hone : x.value ≤ 1 := by
        rw [← value_one, value, value, hx]
        exact hhigh
      have hpos : (0 : ℚ) ≤ scaled m e := mul_nonneg (Nat.cast_nonneg m) (zpow_pos two_pos e).le
      cases negative with
      | true =>
          have hvalue : x.value = -scaled m e := by
            rw [value, hx]
            rfl
          linarith
      | false =>
          have hvalue : x.value = scaled m e := by
            rw [value, hx]
            rfl
          obtain ⟨hbits, hfull⟩ := mantissa_of_meaning hx
          have hm : 0 < m := by
            refine Nat.pos_of_ne_zero fun hzero => ?_
            rw [hvalue, hzero, scaled, Nat.cast_zero, zero_mul] at hquarter
            norm_num at hquarter
          exact ⟨m, e, rfl, hvalue, hm, hbits, exponent_le hfull (hvalue ▸ hone), hquarter, hone⟩

theorem IsLoad.quarter_le (h : x.IsLoad) : 1 / 4 ≤ x.value := by
  obtain ⟨-, -, -, -, -, -, -, hquarter, -⟩ := h.exists_meaning
  exact hquarter

theorem IsLoad.le_one (h : x.IsLoad) : x.value ≤ 1 := by
  obtain ⟨-, -, -, -, -, -, -, -, hone⟩ := h.exists_meaning
  exact hone

theorem IsLoad.pos (h : x.IsLoad) : 0 < x.value := by
  have := h.quarter_le
  linarith

/-- A product by a load factor is not larger. -/
theorem IsLoad.mul_le (h : x.IsLoad) {a : ℚ} (ha : 0 ≤ a) : a * x.value ≤ a := by
  calc a * x.value ≤ a * 1 := mul_le_mul_of_nonneg_left h.le_one ha
    _ = a := mul_one a

end Binary64

variable {loadFactor : Binary64} {count : Nat}

/-! ## Capacity -/

/-- A power of two is a floating-point number. -/
theorem value_ofNat_two_pow (k : Nat) : (Meaning.ofNat (2 ^ k)).value = 2 ^ k := by
  rw [Meaning.value_ofNat_eq, roundRatio_exact (n := 1) (j := k) one_ne_zero (by decide) (by simp)]
  simp

/-- A power of two times a load factor is not rounded. -/
theorem mul_two_pow (h : loadFactor.IsLoad) (k : Nat) :
    ∃ m e, (Meaning.ofNat (2 ^ k)).mul loadFactor.meaning = .finite false m e ∧
      scaled m e = 2 ^ k * loadFactor.value := by
  obtain ⟨n, f, hmeaning, hvalue, -, hbits, -⟩ := h.exists_meaning
  have hpow := value_ofNat_two_pow k
  rw [hmeaning, hvalue, Meaning.ofNat]
  rw [Meaning.ofNat] at hpow
  dsimp only at hpow ⊢
  generalize (roundRatio (2 ^ k) 1).1 = m at *
  generalize (roundRatio (2 ^ k) 1).2 = e at *
  replace hpow : (m : ℚ) * 2 ^ e = 2 ^ k := hpow
  -- the mantissa of the power is a power, so the product has the bits of the load factor
  have hm : (m : ℚ) = 2 ^ ((k : Int) - e) := by
    rw [zpow_sub₀ two_ne_zero, zpow_natCast, ← hpow, mul_div_cancel_right₀ _ (zpow_ne_zero e two_ne_zero)]
  have hexact : rounded (m * n) 1 = ((m * n : Nat) : ℚ) / (1 : Nat) := by
    refine roundRatio_exact (n := n) (j := (k : Int) - e) one_ne_zero hbits ?_
    rw [Nat.cast_mul, Nat.cast_one, div_one, hm]
    ring
  refine ⟨_, _, rfl, ?_⟩
  rw [scaled, add_assoc, zpow_add₀ two_ne_zero, ← mul_assoc]
  show rounded (m * n) 1 * 2 ^ (e + f) = _
  rw [hexact, scaled, ← hpow, zpow_add₀ two_ne_zero]
  push_cast
  ring

/-- The capacity of a number of buckets is the exact product, cut to an integer. -/
theorem capacityOf_two_pow (h : loadFactor.IsLoad) {k : Nat} (hk : k ≤ 63) :
    capacityOf (2 ^ k) loadFactor = ⌊(2 : ℚ) ^ k * loadFactor.value⌋₊ := by
  obtain ⟨m, e, hmul, hscaled⟩ := mul_two_pow h k
  rw [capacityOf, hmul, Meaning.floorWord_eq, hscaled]
  refine min_eq_left (Nat.floor_le_of_le ?_)
  calc (2 : ℚ) ^ k * loadFactor.value ≤ 2 ^ k := h.mul_le (by positivity)
    _ ≤ 2 ^ 63 := pow_le_pow_right₀ one_le_two hk
    _ ≤ (maxWord : ℚ) := by
        have : 2 ^ 63 ≤ maxWord := by decide
        exact_mod_cast this

/-- A count is within the capacity if it is within the exact product. -/
theorem le_capacityOf_iff (h : loadFactor.IsLoad) {k : Nat} (hk : k ≤ 63) :
    count ≤ capacityOf (2 ^ k) loadFactor ↔ (count : ℚ) ≤ 2 ^ k * loadFactor.value := by
  rw [capacityOf_two_pow h hk]
  exact Nat.le_floor_iff (mul_nonneg (by positivity) h.pos.le)

/-- More buckets take no fewer entries. -/
theorem capacityOf_mono (h : loadFactor.IsLoad) {j k : Nat} (hjk : j ≤ k) (hk : k ≤ 63) :
    capacityOf (2 ^ j) loadFactor ≤ capacityOf (2 ^ k) loadFactor := by
  rw [capacityOf_two_pow h (hjk.trans hk), capacityOf_two_pow h hk]
  refine Nat.floor_le_floor ?_
  exact mul_le_mul_of_nonneg_right (pow_le_pow_right₀ one_le_two hjk) h.pos.le

/-- A table takes no more entries than it has buckets. -/
theorem capacityOf_le (h : loadFactor.IsLoad) {k : Nat} (hk : k ≤ 63) : capacityOf (2 ^ k) loadFactor ≤ 2 ^ k := by
  have hle := (le_capacityOf_iff h hk).mp (Nat.le_refl _)
  have : (capacityOf (2 ^ k) loadFactor : ℚ) ≤ 2 ^ k := hle.trans (h.mul_le (by positivity))
  exact_mod_cast this

/-- For each entry four buckets are enough. -/
theorem le_capacityOf_quadruple (h : loadFactor.IsLoad) {k : Nat} (hk : k + 2 ≤ 63) :
    2 ^ k ≤ capacityOf (2 ^ (k + 2)) loadFactor := by
  rw [le_capacityOf_iff h hk]
  push_cast
  calc (2 : ℚ) ^ k = 2 ^ (k + 2) * (1 / 4) := by ring
    _ ≤ 2 ^ (k + 2) * loadFactor.value := mul_le_mul_of_nonneg_left h.quarter_le (by positivity)

/-- Twice the buckets take more entries. -/
theorem capacityOf_lt_double (h : loadFactor.IsLoad) {k : Nat} (hmin : 2 ≤ k) (hk : k + 1 ≤ 63) :
    capacityOf (2 ^ k) loadFactor < capacityOf (2 ^ (k + 1)) loadFactor := by
  have hle := (le_capacityOf_iff h (Nat.le_of_succ_le hk)).mp (Nat.le_refl _)
  have hone : (1 : ℚ) ≤ 2 ^ k * loadFactor.value := by
    calc (1 : ℚ) = 2 ^ 2 * (1 / 4) := by norm_num
      _ ≤ 2 ^ k * loadFactor.value :=
        mul_le_mul (pow_le_pow_right₀ one_le_two hmin) h.quarter_le (by norm_num) (by positivity)
  refine Nat.lt_of_succ_le ((le_capacityOf_iff h hk).mpr ?_)
  push_cast
  calc (capacityOf (2 ^ k) loadFactor : ℚ) + 1 ≤ 2 ^ k * loadFactor.value + 2 ^ k * loadFactor.value := add_le_add hle hone
    _ = 2 ^ (k + 1) * loadFactor.value := by ring

theorem maxBuckets_eq : maxBuckets = 2 ^ 30 := rfl

/-! ## Quotients -/

/-- The number of buckets that `count` entries ask for, before it is rounded up to a power of two. -/
def bucketsWanted (count : Nat) (loadFactor : Binary64) : Nat :=
  ((Meaning.ofNat count).div loadFactor.meaning).ceilWord

/-- A quotient by a load factor, as a rounded quotient of mantissas. -/
theorem div_load (h : loadFactor.IsLoad) (count : Nat) :
    ∃ (m n : Nat) (s : Int), n ≠ 0 ∧ (m : ℚ) / n * 2 ^ s = (Meaning.ofNat count).value / loadFactor.value ∧
      ∃ q x, (Meaning.ofNat count).div loadFactor.meaning = .finite false q x ∧ scaled q x = rounded m n * 2 ^ s := by
  obtain ⟨n, f, hmeaning, hvalue, hpos, -⟩ := h.exists_meaning
  have hn : n ≠ 0 := Nat.pos_iff_ne_zero.mp hpos
  refine ⟨(roundRatio count 1).1, n, (roundRatio count 1).2 - f, hn, ?_, (roundRatio (roundRatio count 1).1 n).1,
    (roundRatio (roundRatio count 1).1 n).2 + (roundRatio count 1).2 - f, ?_, ?_⟩
  · rw [Meaning.value_ofNat_eq, rounded, hvalue, scaled, scaled, zpow_sub₀ two_ne_zero]
    exact div_mul_div_comm _ _ _ _
  · rw [hmeaning, Meaning.ofNat]
    dsimp only
    rw [Meaning.div, if_neg hn]
    rfl
  · rw [rounded, scaled, scaled, mul_assoc, ← zpow_add₀ two_ne_zero, add_sub_assoc]

/-- Rounding does not carry a quotient above a power of two. -/
theorem quotient_le (h : loadFactor.IsLoad) {j : Nat} (hj : j ≤ 52) (hle : (count : ℚ) ≤ 2 ^ j * loadFactor.value) :
    ∃ q x, (Meaning.ofNat count).div loadFactor.meaning = .finite false q x ∧ scaled q x ≤ 2 ^ j := by
  obtain ⟨m, n, s, hn, hquotient, q, x, hdiv, hscaled⟩ := div_load h count
  have hsmall : (2 : Nat) ^ j ≤ 2 ^ 52 := Nat.pow_le_pow_right two_pos hj
  have hcount : count < 2 ^ 53 := by
    have : (count : ℚ) ≤ 2 ^ j := hle.trans (h.mul_le (by positivity))
    have : count ≤ 2 ^ j := by exact_mod_cast this
    omega
  rw [Meaning.value_ofNat hcount] at hquotient
  have hratio : (m : ℚ) / n ≤ 2 ^ ((j : Int) - s) := by
    rw [zpow_sub₀ two_ne_zero, le_div_iff₀ (zpow_pos two_pos s), hquotient, div_le_iff₀ h.pos]
    exact_mod_cast hle
  have hround := roundRatio_le hn hratio
  rw [zpow_sub₀ two_ne_zero, le_div_iff₀ (zpow_pos two_pos s), ← hscaled] at hround
  exact ⟨q, x, hdiv, by exact_mod_cast hround⟩

/-- The buckets that are wanted suffice to stay within a power of two that has room. -/
theorem bucketsWanted_le (h : loadFactor.IsLoad) {j : Nat} (hj : j ≤ 52)
    (hle : (count : ℚ) ≤ 2 ^ j * loadFactor.value) :
    bucketsWanted count loadFactor ≤ 2 ^ j := by
  obtain ⟨q, x, hdiv, hscaled⟩ := quotient_le h hj hle
  have hword : 2 ^ j < maxWord := by
    have : (2 : Nat) ^ j ≤ 2 ^ 52 := Nat.pow_le_pow_right two_pos hj
    have : 2 ^ 52 < maxWord := by decide
    omega
  rw [bucketsWanted, hdiv, Meaning.ceilWord_le_iff hword]
  exact_mod_cast hscaled

/-- What asks for no more than the largest number of buckets, after rounding, hardly exceeds it before. -/
theorem value_le_of_quotient (h : loadFactor.IsLoad)
    (hle : ((Meaning.ofNat count).div loadFactor.meaning).atMost (.ofNat maxBuckets) = true) :
    (Meaning.ofNat count).value ≤ 2 ^ 30 * (1 + 2 ^ (-53 : Int)) * loadFactor.value := by
  obtain ⟨m, n, s, hn, hquotient, q, x, hdiv, hscaled⟩ := div_load h count
  have hmax : (Meaning.ofNat maxBuckets).value = 2 ^ 30 := value_ofNat_two_pow 30
  have hround : rounded m n ≤ 2 ^ ((30 : Int) - s) := by
    rw [hdiv, Meaning.ofNat, Meaning.atMost_finite_iff] at hle
    have hle' : scaled q x ≤ (Meaning.ofNat maxBuckets).value := hle
    rw [hscaled, hmax] at hle'
    rw [zpow_sub₀ two_ne_zero, le_div_iff₀ (zpow_pos two_pos s)]
    exact_mod_cast hle'
  have hratio := le_of_roundRatio_le hn hround
  rw [← div_le_iff₀ h.pos, ← hquotient]
  calc (m : ℚ) / n * 2 ^ s ≤ 2 ^ ((30 : Int) - s) * (1 + 2 ^ (-53 : Int)) * 2 ^ s :=
        mul_le_mul_of_nonneg_right hratio (zpow_pos two_pos s).le
    _ = 2 ^ 30 * (1 + 2 ^ (-53 : Int)) := by
        rw [zpow_sub₀ two_ne_zero, div_mul_eq_mul_div, div_mul_cancel₀ _ (zpow_ne_zero s two_ne_zero)]
        rfl

/-- A count that is rounded to at most `2 ^ 31` is small enough not to be rounded. -/
theorem lt_of_value_le (hle : (Meaning.ofNat count).value ≤ 2 ^ (31 : Int)) : count < 2 ^ 53 := by
  rw [Meaning.value_ofNat_eq] at hle
  have hlt : (count : ℚ) < 2 ^ 53 := by
    calc (count : ℚ) = count / (1 : Nat) := by simp
      _ ≤ _ := le_of_roundRatio_le one_ne_zero hle
      _ < 2 ^ 53 := by norm_num
  exact_mod_cast hlt

/-- What exceeds the room of the largest table by no more than rounding can hide does not exceed it at all. -/
theorem le_capacityOf_of_near (h : loadFactor.IsLoad)
    (hnear : (count : ℚ) ≤ 2 ^ 30 * (1 + 2 ^ (-53 : Int)) * loadFactor.value) :
    count ≤ capacityOf maxBuckets loadFactor := by
  obtain ⟨k, f, -, hload, -, hbits, hexp, -⟩ := h.exists_meaning
  rw [hload] at hnear
  have hproduct : (2 : ℚ) ^ 30 * scaled k f = k * 2 ^ (f + 30) := by
    rw [scaled, zpow_add₀ two_ne_zero]
    push_cast
    ring
  rw [maxBuckets_eq, le_capacityOf_iff h (by decide), hload, hproduct]
  -- one entry more would be a whole unit of the load factor's last bit, which is more than that
  refine natCast_le_mul_zpow (show f + 30 ≤ 0 by omega) ?_
  have hfraction : (k : ℚ) * 2 ^ (-53 : Int) < 1 := by
    rw [zpow_neg, ← div_eq_mul_inv, div_lt_one (zpow_pos two_pos _)]
    exact_mod_cast hbits
  calc (count : ℚ) ≤ 2 ^ 30 * (1 + 2 ^ (-53 : Int)) * scaled k f := hnear
    _ = (k + k * 2 ^ (-53 : Int)) * 2 ^ (f + 30) := by
        rw [mul_right_comm, hproduct]
        ring
    _ < (k + 1) * 2 ^ (f + 30) := mul_lt_mul_of_pos_right (by linarith) (zpow_pos two_pos _)

/-- An expected size that settings accept fits into the largest table. -/
theorem le_capacityOf_of_quotient (h : loadFactor.IsLoad)
    (hle : ((Meaning.ofNat count).div loadFactor.meaning).atMost (.ofNat maxBuckets) = true) :
    count ≤ capacityOf maxBuckets loadFactor := by
  have hnear := value_le_of_quotient h hle
  have hcount : count < 2 ^ 53 := by
    refine lt_of_value_le (hnear.trans ?_)
    calc (2 : ℚ) ^ 30 * (1 + 2 ^ (-53 : Int)) * loadFactor.value ≤ 2 ^ 30 * (1 + 2 ^ (-53 : Int)) :=
          h.mul_le (by positivity)
      _ ≤ 2 ^ (31 : Int) := by norm_num
  rw [Meaning.value_ofNat hcount] at hnear
  exact le_capacityOf_of_near h hnear

/-- What fits into the largest table is not rounded beyond it. -/
theorem quotient_atMost_of_le (h : loadFactor.IsLoad) (hle : count ≤ capacityOf maxBuckets loadFactor) :
    ((Meaning.ofNat count).div loadFactor.meaning).atMost (.ofNat maxBuckets) = true := by
  obtain ⟨q, x, hdiv, hscaled⟩ := quotient_le h (j := 30) (by decide) ((le_capacityOf_iff h (by decide)).mp hle)
  have hmax : (Meaning.ofNat maxBuckets).value = 2 ^ 30 := value_ofNat_two_pow 30
  rw [hdiv, Meaning.ofNat, Meaning.atMost_finite_iff]
  exact hscaled.trans_eq hmax.symm

/-- Rounding the exact quotient once tells the same. -/
theorem rounded_le_iff (h : loadFactor.IsLoad) {m n : Nat} (hn : n ≠ 0)
    (hratio : (m : ℚ) / n = count / loadFactor.value) :
    rounded m n ≤ 2 ^ (30 : Int) ↔ count ≤ capacityOf maxBuckets loadFactor := by
  constructor
  · intro hle
    have hnear := le_of_roundRatio_le hn hle
    rw [hratio, div_le_iff₀ h.pos] at hnear
    exact le_capacityOf_of_near h (by exact_mod_cast hnear)
  · intro hle
    rw [maxBuckets_eq, le_capacityOf_iff h (by decide), ← div_le_iff₀ h.pos, ← hratio] at hle
    exact roundRatio_le hn (by exact_mod_cast hle)

end DenseHash
