import DenseHash.Proofs.Sizing.Factor
import DenseHash.Proofs.Table.Growth
import DenseHash.Settings

/-!
# How many buckets, exactly

* **`bucketsFor`** gives a power of two with room for the count, whatever the load factor is. With a load factor
  that settings accept it does so if and only if the largest table has room for the count, and gives no more buckets
  than that takes (`bucketsFor_isLeast`).
* **Too large a count** is refused because of the capacity, unless the quotient is beyond `2 ^ 63`: then there is
  no power of two in a word to compare with (`bucketsFor_of_lt`).
* **`enlarge`** finds a size long before the word is full.
* **Settings** are accepted if and only if, the rest being in order, they expect no more than the largest table has
  room for (`Settings.check_iff`).
-/

namespace DenseHash

variable {loadFactor : Binary64} {count : Nat}

/-! ## Powers of two -/

/-- It is within a power of two if the number is. -/
theorem powerOfTwoFrom_le_iff {n j : Nat} : powerOfTwoFrom n ≤ 2 ^ j ↔ n ≤ 2 ^ j := by
  rw [powerOfTwoFrom]
  split
  · rename_i hn
    exact ⟨fun _ => hn.trans (Nat.two_pow_pos j), fun _ => Nat.two_pow_pos j⟩
  · rename_i hn
    have hlog : (n - 1).log2 < j ↔ n - 1 < 2 ^ j := Nat.log2_lt (by omega)
    have hpow : 2 ^ ((n - 1).log2 + 1) ≤ 2 ^ j ↔ (n - 1).log2 + 1 ≤ j := Nat.pow_le_pow_iff_right (by decide)
    show 2 ^ ((n - 1).log2 + 1) ≤ 2 ^ j ↔ _
    rw [hpow, Nat.succ_le_iff, hlog]
    omega

theorem le_powerOfTwoFrom (n : Nat) : n ≤ powerOfTwoFrom n := by
  obtain ⟨k, hk⟩ := powerOfTwoFrom_eq n
  rw [hk]
  exact powerOfTwoFrom_le_iff.mp (Nat.le_of_eq hk)

/-! ## Doubling until there is room -/

/-- Doubling comes to its end: the size that it stops at is beyond the largest table, or has room. -/
theorem widen_stops (loadFactor : Binary64) (count : Nat) {fuel size : Nat} (h : maxBuckets < size * 2 ^ fuel) :
    widen loadFactor count fuel size ≤ maxBuckets →
      count ≤ capacityOf (widen loadFactor count fuel size) loadFactor := by
  induction fuel generalizing size with
  | zero =>
      rw [Nat.pow_zero, Nat.mul_one] at h
      exact fun hle => absurd hle (Nat.not_le.mpr h)
  | succ fuel ih =>
      rw [widen]
      split
      · refine ih ?_
        rw [Nat.mul_comm 2 size, Nat.mul_assoc, ← Nat.pow_succ']
        exact h
      · rename_i hstop
        exact fun hle => Nat.not_lt.mp fun hlt => hstop ⟨hle, hlt⟩

/-- Doubling does not leave a word. -/
theorem widen_lt_wordValues (loadFactor : Binary64) (count fuel : Nat) {size : Nat} (h : size < wordValues) :
    widen loadFactor count fuel size < wordValues := by
  induction fuel generalizing size with
  | zero => exact h
  | succ fuel ih =>
      rw [widen]
      split
      · rename_i hsmall
        have hroom : 2 * maxBuckets < wordValues := by decide
        exact ih (by omega)
      · exact h

/-- Widening makes nothing smaller. -/
theorem le_widen (loadFactor : Binary64) (count fuel size : Nat) : size ≤ widen loadFactor count fuel size := by
  induction fuel generalizing size with
  | zero => exact Nat.le_refl _
  | succ fuel ih =>
      rw [widen]
      split
      · exact (Nat.le_mul_of_pos_left size two_pos).trans (ih (2 * size))
      · exact Nat.le_refl _

/-- What a number of buckets has room for, a size on the way to it has room for. -/
theorem widen_le {top : Nat} (h : count ≤ capacityOf (2 ^ top) loadFactor) (fuel : Nat) {k : Nat} (hk : k ≤ top) :
    widen loadFactor count fuel (2 ^ k) ≤ 2 ^ top := by
  induction fuel generalizing k with
  | zero => exact Nat.pow_le_pow_right two_pos hk
  | succ fuel ih =>
      rw [widen]
      split
      · rename_i hfull
        have hne : k ≠ top := by
          rintro rfl
          exact absurd h (Nat.not_le.mpr hfull.2)
        rw [← Nat.pow_succ']
        exact ih (by omega)
      · exact Nat.pow_le_pow_right two_pos hk

/-! ## Sizing -/

/-- The size from which sizing starts to double. -/
def firstSize (count : Nat) (loadFactor : Binary64) : Nat :=
  powerOfTwoFrom (max (bucketsWanted count loadFactor) minBuckets)

theorem minBuckets_le_firstSize (count : Nat) (loadFactor : Binary64) :
    minBuckets ≤ firstSize count loadFactor :=
  (Nat.le_max_right _ _).trans (le_powerOfTwoFrom _)

/-- The first guess is within a power of two if the buckets that are wanted are. -/
theorem firstSize_le_iff {j : Nat} (hj : 2 ≤ j) :
    firstSize count loadFactor ≤ 2 ^ j ↔ bucketsWanted count loadFactor ≤ 2 ^ j := by
  have hmin : minBuckets ≤ 2 ^ j := Nat.pow_le_pow_right two_pos hj
  rw [firstSize, powerOfTwoFrom_le_iff, Nat.max_le]
  exact and_iff_left hmin

/-- The first guess is too large for a word if more than half as many buckets are wanted as there are words. -/
theorem wordValues_le_firstSize_iff :
    wordValues ≤ firstSize count loadFactor ↔ 2 ^ 63 < bucketsWanted count loadFactor := by
  obtain ⟨k, hk⟩ := powerOfTwoFrom_eq (max (bucketsWanted count loadFactor) minBuckets)
  rw [← Nat.not_le, ← firstSize_le_iff (by decide), firstSize, hk, show wordValues = 2 ^ 64 from rfl, ← Nat.not_lt,
    Nat.pow_lt_pow_iff_right (by decide), Nat.pow_le_pow_iff_right (by decide)]
  omega

/-- The number of buckets with its two refusals written out: at the first guess, and after widening. -/
theorem bucketsFor_eq (count : Nat) (loadFactor : Binary64) :
    bucketsFor count loadFactor =
      if wordValues ≤ firstSize count loadFactor then .error (.wordOverflow .addition)
      else if maxBuckets < widen loadFactor count 32 (firstSize count loadFactor) then .error .capacityOverflow
      else .ok (widen loadFactor count 32 (firstSize count loadFactor)) := rfl

/-- Sizing never has to double more than 32 times. -/
theorem maxBuckets_lt_firstSize_mul (count : Nat) (loadFactor : Binary64) :
    maxBuckets < firstSize count loadFactor * 2 ^ 32 := by
  have hmin := minBuckets_le_firstSize count loadFactor
  have hfour : minBuckets = 4 := rfl
  have hmax : maxBuckets = 2 ^ 30 := rfl
  omega

/-- A size that is given is the one that doubling stopped at. -/
theorem eq_widen_of_bucketsFor {n : Nat} (h : bucketsFor count loadFactor = .ok n) :
    n = widen loadFactor count 32 (firstSize count loadFactor) ∧ n ≤ maxBuckets := by
  rw [bucketsFor_eq] at h
  split at h
  · cases h
  · split at h
    · cases h
    · rename_i hmax
      obtain rfl := Except.ok.inj h
      exact ⟨rfl, Nat.not_lt.mp hmax⟩

/-- What sizing gives has room for the count. -/
theorem bucketsFor_spec {n : Nat} (h : bucketsFor count loadFactor = .ok n) :
    count ≤ capacityOf n loadFactor ∧ n ≤ maxBuckets ∧ minBuckets ≤ n ∧ ∃ k, n = 2 ^ k := by
  obtain ⟨rfl, hmax⟩ := eq_widen_of_bucketsFor h
  obtain ⟨k, hk⟩ := powerOfTwoFrom_eq (max (bucketsWanted count loadFactor) minBuckets)
  exact ⟨widen_stops _ _ (maxBuckets_lt_firstSize_mul _ _) hmax, hmax,
    (minBuckets_le_firstSize _ _).trans (le_widen _ _ _ _), widen_eq loadFactor count 32 hk⟩

/-- The quotient by a load factor is no more than the buckets that have room for the count. -/
theorem bucketsWanted_le_maxBuckets (hlf : loadFactor.IsLoad) (h : count ≤ capacityOf maxBuckets loadFactor) :
    bucketsWanted count loadFactor ≤ 2 ^ 30 :=
  bucketsWanted_le hlf (by decide) ((le_capacityOf_iff hlf (by decide)).mp h)

/-- What the largest table has room for is given a size. -/
theorem bucketsFor_of_le (hlf : loadFactor.IsLoad) (h : count ≤ capacityOf maxBuckets loadFactor) :
    ∃ n, bucketsFor count loadFactor = .ok n := by
  have hwanted := bucketsWanted_le_maxBuckets hlf h
  have hfirst : firstSize count loadFactor ≤ 2 ^ 30 := (firstSize_le_iff (by decide)).mpr hwanted
  have hword : ¬ wordValues ≤ firstSize count loadFactor := by
    have : 2 ^ 30 < wordValues := by decide
    omega
  obtain ⟨k, hk⟩ := powerOfTwoFrom_eq (max (bucketsWanted count loadFactor) minBuckets)
  have hk30 : k ≤ 30 := by
    rw [firstSize, hk] at hfirst
    exact (Nat.pow_le_pow_iff_right (by decide)).mp hfirst
  have hmax : ¬ maxBuckets < widen loadFactor count 32 (firstSize count loadFactor) := by
    rw [firstSize, hk]
    exact Nat.not_lt.mpr (widen_le h 32 hk30)
  exact ⟨_, by rw [bucketsFor_eq, if_neg hword, if_neg hmax]⟩

/-- The numbers of buckets that have room for a count: powers of two, of which the smallest table has four. -/
def sizesFor (count : Nat) (loadFactor : Binary64) : Set Nat :=
  {n | (∃ k, n = 2 ^ k) ∧ minBuckets ≤ n ∧ count ≤ ⌊(n : ℚ) * loadFactor.value⌋₊}

/-- Sizing gives no more buckets than are needed. -/
theorem bucketsFor_isLeast (hlf : loadFactor.IsLoad) {n : Nat} (h : bucketsFor count loadFactor = .ok n) :
    IsLeast (sizesFor count loadFactor) n := by
  obtain ⟨hwiden, -⟩ := eq_widen_of_bucketsFor h
  obtain ⟨hroom, hmax, hmin, k, rfl⟩ := bucketsFor_spec h
  have hk : k ≤ 30 := (Nat.pow_le_pow_iff_right (by decide)).mp hmax
  rw [capacityOf_two_pow hlf (hk.trans (by decide))] at hroom
  refine ⟨⟨⟨k, rfl⟩, hmin, by exact_mod_cast hroom⟩, ?_⟩
  rintro _ ⟨⟨j, rfl⟩, hfour, hj⟩
  by_cases hj30 : 30 ≤ j
  · exact hmax.trans (Nat.pow_le_pow_right two_pos hj30)
  · have hcap : count ≤ capacityOf (2 ^ j) loadFactor := by
      rw [capacityOf_two_pow hlf (by omega)]
      exact_mod_cast hj
    have hj2 : 2 ≤ j := (Nat.pow_le_pow_iff_right (by decide)).mp (show 2 ^ 2 ≤ 2 ^ j from hfour)
    -- doubling starts at or below the size that has room, and does not go past it
    have hwanted := bucketsWanted_le hlf (by omega) ((le_capacityOf_iff hlf (by omega)).mp hcap)
    have hfirst := (firstSize_le_iff hj2).mpr hwanted
    obtain ⟨i, hi⟩ := powerOfTwoFrom_eq (max (bucketsWanted count loadFactor) minBuckets)
    rw [firstSize, hi] at hwiden hfirst
    rw [hwiden]
    exact widen_le hcap 32 ((Nat.pow_le_pow_iff_right (by decide)).mp hfirst)

/-- What the largest table has no room for is refused: because of the capacity, as long as the power of two above
    the quotient is a word. -/
theorem bucketsFor_of_lt (hlf : loadFactor.IsLoad) (h : capacityOf maxBuckets loadFactor < count) :
    bucketsFor count loadFactor =
      .error (if bucketsWanted count loadFactor ≤ 2 ^ 63 then .capacityOverflow else .wordOverflow .addition) := by
  by_cases hword : bucketsWanted count loadFactor ≤ 2 ^ 63
  · have hfirst : ¬ wordValues ≤ firstSize count loadFactor :=
      wordValues_le_firstSize_iff.not.mpr (Nat.not_lt.mpr hword)
    rw [if_pos hword]
    cases hn : bucketsFor count loadFactor with
    | ok n =>
        -- a size would have room for the count, and the largest table would have more
        obtain ⟨hroom, hmax, -, k, rfl⟩ := bucketsFor_spec hn
        have hk : k ≤ 30 := (Nat.pow_le_pow_iff_right (by decide)).mp hmax
        have hmono := capacityOf_mono hlf hk (by decide)
        rw [← maxBuckets_eq] at hmono
        omega
    | error f =>
        rw [bucketsFor_eq, if_neg hfirst] at hn
        split at hn
        · rw [← Except.error.inj hn]
        · cases hn
  · rw [if_neg hword, bucketsFor_eq, if_pos (wordValues_le_firstSize_iff.mpr (Nat.not_le.mp hword))]

/-- The fault of a count that no table has room for is an overflow exactly above `2 ^ 63` buckets. -/
theorem refusal_overflow_iff {wanted : Nat} {step : SizeStep} :
    (if wanted ≤ 2 ^ 63 then Fault.capacityOverflow else .wordOverflow .addition) = .wordOverflow step ↔
      step = .addition ∧ 2 ^ 63 < wanted := by
  by_cases hword : wanted ≤ 2 ^ 63
  · rw [if_pos hword]
    exact iff_of_false (by simp) fun h => Nat.not_lt.mpr hword h.2
  · rw [if_neg hword]
    rw [and_iff_left (Nat.not_le.mp hword), Fault.wordOverflow.injEq, eq_comm]

/-- A table that is too full finds its size on the way to any size that has room. -/
theorem enlarge_of_le {top : Nat} (h : count ≤ capacityOf (2 ^ top) loadFactor) (htop : top ≤ 63) (fuel : Nat) {k : Nat}
    (hk : k ≤ top) (hfuel : top - k < fuel) :
    ∃ j, k ≤ j ∧ j ≤ top ∧ enlarge loadFactor count fuel (2 ^ k) = .ok (2 ^ j) := by
  induction fuel generalizing k with
  | zero => omega
  | succ fuel ih =>
      have hword : ¬ wordValues ≤ 2 ^ k := by
        have : 2 ^ k ≤ 2 ^ 63 := Nat.pow_le_pow_right two_pos (hk.trans htop)
        have : 2 ^ 63 < wordValues := by decide
        omega
      rw [enlarge, if_neg hword]
      split
      · rename_i hfull
        have hne : k ≠ top := by
          rintro rfl
          exact absurd h (Nat.not_le.mpr hfull)
        rw [← Nat.pow_succ']
        obtain ⟨j, hkj, hj⟩ := ih (k := k + 1) (by omega) (by omega)
        exact ⟨j, by omega, hj⟩
      · exact ⟨k, Nat.le_refl k, hk, rfl⟩

/-- What a table that is too full finds is a multiple of the size that it starts from. -/
theorem enlarge_dvd {fuel size n : Nat} (h : enlarge loadFactor count fuel size = .ok n) : size ∣ n := by
  induction fuel generalizing size with
  | zero => cases h
  | succ fuel ih =>
      rw [enlarge] at h
      split at h
      · cases h
      · split at h
        · exact (Nat.dvd_mul_left size 2).trans (ih h)
        · rw [Except.ok.inj h]

/-- It has room. -/
theorem le_capacityOf_enlarge {fuel size n : Nat} (h : enlarge loadFactor count fuel size = .ok n) :
    count ≤ capacityOf n loadFactor := by
  induction fuel generalizing size with
  | zero => cases h
  | succ fuel ih =>
      rw [enlarge] at h
      split at h
      · cases h
      · split at h
        · exact ih h
        · rename_i hroom
          rw [← Except.ok.inj h]
          exact Nat.not_lt.mp hroom

/-- Four billion buckets have room for as many entries as there can be, so the word never overflows. -/
theorem enlarge_isOk (hlf : loadFactor.IsLoad) (h : count ≤ maxBuckets) {k : Nat} (hk : k ≤ 31) :
    ∃ j, enlarge loadFactor count 64 (2 ^ k) = .ok (2 ^ j) := by
  have hroom : count ≤ capacityOf (2 ^ 32) loadFactor := h.trans (le_capacityOf_quadruple (k := 30) hlf (by decide))
  obtain ⟨j, -, -, hj⟩ := enlarge_of_le hroom (by decide) 64 (hk.trans (by decide)) (by omega)
  exact ⟨j, hj⟩

/-! ## Settings -/

/-- What settings that are accepted say. -/
theorem Settings.check_iff {settings : Settings} :
    settings.check = .ok () ↔ settings.loadFactor.IsLoad ∧ settings.maxChain ≠ 0 ∧
      settings.expectedSize.toNat ≤ capacityOf maxBuckets settings.loadFactor := by
  rw [check]
  by_cases hload : settings.loadFactor.IsLoad
  · rw [if_neg (by rw [Bool.not_eq_true', Bool.not_eq_false, Bool.and_eq_true]; exact hload)]
    by_cases hchain : settings.maxChain = 0
    · rw [if_pos hchain]
      exact ⟨nofun, fun h => absurd hchain h.2.1⟩
    · have hsize : settings.wantedBuckets.atMost (.ofNat maxBuckets) = true ↔
          settings.expectedSize.toNat ≤ capacityOf maxBuckets settings.loadFactor :=
        ⟨le_capacityOf_of_quotient hload, quotient_atMost_of_le hload⟩
      rw [if_neg hchain, and_iff_right hload, and_iff_right hchain, ← hsize]
      cases settings.wantedBuckets.atMost (.ofNat maxBuckets) <;> simp
  · rw [if_pos (by rw [Bool.not_eq_true', Bool.and_eq_false_iff]; simpa [Binary64.IsLoad, imp_iff_not_or] using hload)]
    exact ⟨nofun, fun h => absurd h.1 hload⟩

/-- Settings that pass have an accepted load factor, allow chains, and expect no more entries than the largest table
    has room for. -/
theorem Settings.of_check {settings : Settings} (h : settings.check = .ok ()) :
    settings.loadFactor.IsLoad ∧ settings.maxChain.toNat ≠ 0 ∧
      settings.expectedSize.toNat ≤ capacityOf maxBuckets settings.loadFactor := by
  obtain ⟨hlf, hchain, hsize⟩ := check_iff.mp h
  exact ⟨hlf, fun hzero => hchain (UInt64.toNat_inj.mp hzero), hsize⟩

end DenseHash
