import Mathlib.Data.Set.Card
import Mathlib.Order.Interval.Set.Nat
import DenseHash.Proofs.Table.Load

/-!
# What mixing loses

A hash is folded to 32 bits and the folded word is *spread* over its low bits, by two odd factors and a rotation between
them. Each of the three steps can be undone among the words:

* **Spreading loses nothing** (`spread_bijective`), so two hashes are stored alike exactly where folding makes them one.
* **Every bucket gets its share** (`ncard_received`). The bucket is read off the low bits of the spread word, and the
  words with the same low bits differ in the others, which may be any (`bijOn_high_bits`).
-/

namespace DenseHash

/-! ## Rotating -/

/-- Two shifts that make up a rotation: the low bits go up, and the high ones come in below them. -/
theorem shiftLeft_or_shiftRight {n a b : Nat} (h : n < 2 ^ (a + b)) :
    n <<< a % 2 ^ (a + b) ||| n >>> b = n % 2 ^ b * 2 ^ a + n / 2 ^ b := by
  have hhigh : n / 2 ^ b < 2 ^ a := Nat.div_lt_of_lt_mul (by rwa [← Nat.pow_add, Nat.add_comm])
  have hlow : n * 2 ^ a % 2 ^ (a + b) = n % 2 ^ b * 2 ^ a := by
    rw [Nat.pow_add, Nat.mul_comm (2 ^ a), Nat.mul_mod_mul_right]
  rw [Nat.shiftLeft_eq, hlow, Nat.shiftRight_eq_div_pow, ← Nat.shiftLeft_eq, ← Nat.shiftLeft_add_eq_or_of_lt hhigh]

/-- The low part of the word becomes the high one. -/
theorem rotate15_toNat (x : UInt32) : (rotate15 x).toNat = x.toNat % 2 ^ 17 * 2 ^ 15 + x.toNat / 2 ^ 17 := by
  rw [rotate15, UInt32.toNat_or, UInt32.toNat_shiftLeft, UInt32.toNat_shiftRight]
  exact shiftLeft_or_shiftRight (a := 15) (b := 17) x.toNat_lt

/-- Rotates a word to the left by 17 bits, which completes a rotation by 15. -/
def rotate17 (x : UInt32) : UInt32 := (x <<< 17) ||| (x >>> 15)

theorem rotate17_toNat (x : UInt32) : (rotate17 x).toNat = x.toNat % 2 ^ 15 * 2 ^ 17 + x.toNat / 2 ^ 15 := by
  rw [rotate17, UInt32.toNat_or, UInt32.toNat_shiftLeft, UInt32.toNat_shiftRight]
  exact shiftLeft_or_shiftRight (a := 17) (b := 15) x.toNat_lt

/-- The two rotations make a full turn. -/
theorem rotate17_rotate15 (x : UInt32) : rotate17 (rotate15 x) = x := by
  have hx := x.toNat_lt
  apply UInt32.toNat_inj.mp
  rw [rotate17_toNat, rotate15_toNat]
  omega

/-- The two rotations make a full turn in the other order too. -/
theorem rotate15_rotate17 (x : UInt32) : rotate15 (rotate17 x) = x := by
  have hx := x.toNat_lt
  apply UInt32.toNat_inj.mp
  rw [rotate15_toNat, rotate17_toNat]
  omega

/-! ## Mixing a folded hash -/

/-- What mixing does to a hash that is folded. -/
def spread (word : UInt32) : UInt32 := 0x1b873593 * rotate15 (word * 0xcc9e2d51)

/-- Mixing folds a hash and spreads the word that comes out. -/
theorem mix_eq_spread (hash : UInt64) : mix hash = spread (fold hash) := rfl

/-- The word that is spread to a given one: the factors are odd, so each has an inverse among the words. -/
def unspread (word : UInt32) : UInt32 := rotate17 (0x56ed309b * word) * 0xdee13bb1

/-- Each of the steps can be undone, so spreading can. -/
theorem unspread_spread (word : UInt32) : unspread (spread word) = word := by
  have h1 : (0xcc9e2d51 : UInt32) * 0xdee13bb1 = 1 := by decide
  have h2 : (0x56ed309b : UInt32) * 0x1b873593 = 1 := by decide
  rw [unspread, spread, ← UInt32.mul_assoc, h2, UInt32.one_mul, rotate17_rotate15, UInt32.mul_assoc, h1, UInt32.mul_one]

/-- Every word is spread from one. -/
theorem spread_unspread (word : UInt32) : spread (unspread word) = word := by
  have h1 : (0xdee13bb1 : UInt32) * 0xcc9e2d51 = 1 := by decide
  have h2 : (0x1b873593 : UInt32) * 0x56ed309b = 1 := by decide
  rw [spread, unspread, UInt32.mul_assoc, h1, UInt32.mul_one, rotate15_rotate17, ← UInt32.mul_assoc, h2, UInt32.one_mul]

/-- Spreading loses nothing. -/
theorem spread_bijective : Function.Bijective spread :=
  ⟨Function.LeftInverse.injective unspread_spread, Function.RightInverse.surjective spread_unspread⟩

/-! ## Folding -/

/-- A hash without a high word is its own fold. -/
theorem fold_of_lt {hash : UInt64} (h : hash.toNat < 2 ^ 32) : fold hash = hash.toUInt32 := by
  have hhigh : hash >>> 32 = 0 := by
    apply UInt64.toNat_inj.mp
    rw [UInt64.toNat_shiftRight]
    exact (Nat.shiftRight_eq_div_pow _ _).trans (Nat.div_eq_of_lt h)
  rw [fold, hhigh, UInt64.xor_zero]

/-- A hash that fits into half of the bits is not changed by folding. -/
theorem fold_toUInt64 (word : UInt32) : fold word.toUInt64 = word := by
  rw [fold_of_lt, UInt32.toUInt32_toUInt64]
  rw [UInt32.toNat_toUInt64]
  exact word.toNat_lt

/-! ## Counting -/

/-- The words with the same low bits are told apart by the others, which may be any. -/
theorem bijOn_high_bits {j b : Nat} (hj : j ≤ 32) (hb : b < 2 ^ j) :
    Set.BijOn (fun word : UInt32 => word.toNat / 2 ^ j) {word | bucketIndex (2 ^ j) word = b}
      (Set.Iio (2 ^ (32 - j))) := by
  have hwords : 2 ^ 32 = 2 ^ j * 2 ^ (32 - j) := by rw [← Nat.pow_add, Nat.add_sub_cancel' hj]
  refine ⟨?_, ?_, ?_⟩
  · intro word _
    have hword := word.toNat_lt
    rw [hwords] at hword
    exact Nat.div_lt_of_lt_mul hword
  · intro word hlow word' hlow' hhigh
    have hhigh : word.toNat / 2 ^ j = word'.toNat / 2 ^ j := hhigh
    rw [Set.mem_ofPred_eq, bucketIndex_two_pow] at hlow hlow'
    apply UInt32.toNat_inj.mp
    rw [← Nat.div_add_mod word.toNat (2 ^ j), hhigh, hlow, ← hlow', Nat.div_add_mod]
  -- high and low bits make up a word
  · intro q hq
    have hlt : 2 ^ j * q + b < 2 ^ 32 := by
      have hstep : 2 ^ j * (q + 1) ≤ 2 ^ j * 2 ^ (32 - j) := Nat.mul_le_mul_left _ hq
      rw [hwords]
      rw [Nat.mul_succ] at hstep
      omega
    have hnat : (UInt32.ofNat (2 ^ j * q + b)).toNat = 2 ^ j * q + b := UInt32.toNat_ofNat_of_lt' hlt
    refine ⟨UInt32.ofNat (2 ^ j * q + b), ?_, ?_⟩
    · rw [Set.mem_ofPred_eq, bucketIndex_two_pow, hnat, Nat.mul_add_mod, Nat.mod_eq_of_lt hb]
    · show (UInt32.ofNat (2 ^ j * q + b)).toNat / 2 ^ j = q
      rw [hnat, Nat.mul_add_div (Nat.two_pow_pos j), Nat.div_eq_of_lt hb, Nat.add_zero]

/-- The folded hashes that a bucket receives. -/
def received (buckets bucket : Nat) : Set UInt32 :=
  {word | ∃ hash, fold hash = word ∧ bucketIndex buckets (mix hash) = bucket}

/-- A bucket receives the words that are spread into it. -/
theorem received_eq_preimage (buckets bucket : Nat) :
    received buckets bucket = Set.preimage spread {word | bucketIndex buckets word = bucket} := by
  ext word
  constructor
  · rintro ⟨hash, rfl, hbucket⟩
    exact hbucket
  · intro hbucket
    refine ⟨word.toUInt64, fold_toUInt64 word, ?_⟩
    rw [mix_eq_spread, fold_toUInt64]
    exact hbucket

/-- Every bucket receives the same number of folded hashes. -/
theorem ncard_received {j b : Nat} (hj : j ≤ 32) (hb : b < 2 ^ j) : (received (2 ^ j) b).ncard = 2 ^ (32 - j) := by
  have hrange : {word | bucketIndex (2 ^ j) word = b} ⊆ Set.range spread := by
    rw [spread_bijective.surjective.range_eq]
    exact Set.subset_univ _
  rw [received_eq_preimage, Set.ncard_preimage_of_injective_subset_range spread_bijective.injective hrange,
    (bijOn_high_bits hj hb).ncard_eq, Set.ncard_Iio_nat]

/-- Among the hashes without a high word, folding loses nothing either. -/
theorem mix_bijOn : Set.BijOn mix {hash | hash.toNat < 2 ^ 32} Set.univ := by
  refine ⟨?_, ?_, ?_⟩
  · intro x _
    exact Set.mem_univ (mix x)
  · intro x hx y hy hmix
    have hfold : fold x = fold y := spread_bijective.injective hmix
    rw [fold_of_lt hx, fold_of_lt hy] at hfold
    have hnat := congrArg UInt32.toNat hfold
    rw [UInt64.toNat_toUInt32, UInt64.toNat_toUInt32, Nat.mod_eq_of_lt hx, Nat.mod_eq_of_lt hy] at hnat
    exact UInt64.toNat_inj.mp hnat
  · intro word _
    refine ⟨(unspread word).toUInt64, ?_, ?_⟩
    · rw [Set.mem_ofPred_eq, UInt32.toNat_toUInt64]
      exact (unspread word).toNat_lt
    · rw [mix_eq_spread, fold_toUInt64, spread_unspread]

/-- Mixing tells apart what folding tells apart. Every word comes of a hash without a high word, and of one only, and
    every bucket gets the same share of the folded hashes. -/
theorem mix_loses_only_fold :
    (∀ x y, mix x = mix y ↔ fold x = fold y) ∧ Set.BijOn mix {hash | hash.toNat < 2 ^ 32} Set.univ ∧
      ∀ j ≤ 30, ∀ b < 2 ^ j, (∃ hash, bucketIndex (2 ^ j) (mix hash) = b) ∧
        (received (2 ^ j) b).ncard = 2 ^ (32 - j) := by
  refine ⟨?_, mix_bijOn, ?_⟩
  · intro x y
    rw [mix_eq_spread, mix_eq_spread]
    exact spread_bijective.injective.eq_iff
  · intro j hj b hb
    have hcard := ncard_received (hj.trans (by decide)) hb
    have hpos : 0 < (received (2 ^ j) b).ncard := hcard ▸ Nat.two_pow_pos _
    obtain ⟨word, hash, -, hbucket⟩ := Set.nonempty_of_ncard_ne_zero hpos.ne'
    exact ⟨⟨hash, hbucket⟩, hcard⟩

/-- Two hashes with one fold, and the last of 64 buckets. -/
theorem mix_loses_only_fold_sixty_four :
    (0x0000000100000000 : UInt64) ≠ 1 ∧ mix 0x0000000100000000 = mix 1 ∧
      6 ≤ 30 ∧ 63 < 2 ^ 6 ∧ (∃ hash, bucketIndex (2 ^ 6) (mix hash) = 63) ∧ (received (2 ^ 6) 63).ncard = 2 ^ 26 := by
  obtain ⟨hfold, -, hshare⟩ := mix_loses_only_fold
  exact ⟨by decide, (hfold _ _).mpr (by decide), by decide, by decide, hshare 6 (by decide) 63 (by decide)⟩

end DenseHash
