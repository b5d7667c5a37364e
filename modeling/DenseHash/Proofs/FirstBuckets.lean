import DenseHash.Proofs.FloodGuard
import DenseHash.Proofs.Requests
import DenseHash.Proofs.Table.Buckets

/-!
# The first buckets

Settings are checked before there are any buckets, with a quotient that is rounded; the first buckets are counted later,
from the same quotient rounded up to a power of two. The two agree at every expected size and every load factor:

* **Settings** whose load factor and chain limit are in order are accepted if and only if the largest table has room for
  the expected size, and that is when sizing finds a number of buckets for it.
* **The first buckets** are the least power of two, from four on, with room for the expected size. So the first insertion
  into a new container returns, and it makes no more buckets than that. It does so after any history, as long as nobody
  has asked for more room than any table has.
-/

namespace DenseHash

/-- The first buckets have room for one entry. -/
theorem one_le_capacityOf {loadFactor : Binary64} (hlf : loadFactor.IsLoad) {n : Nat} (hmin : minBuckets ≤ n)
    {k : Nat} (hk : n = 2 ^ k) (hmax : k ≤ 63) : 1 ≤ capacityOf n loadFactor := by
  subst hk
  have hk2 : 2 ≤ k := (Nat.pow_le_pow_iff_right (by decide)).mp (show 2 ^ 2 ≤ 2 ^ k from hmin)
  exact (le_capacityOf_quadruple (k := 0) hlf (by decide)).trans (capacityOf_mono hlf hk2 hmax)

namespace Container

variable [Backing] {K V : Type} [BEq K] [EquivBEq K] {c d : Container K V} {t t' : Table K V} {is : List Nat} {key : K}
  {value : V}

/-- The first insertion returns, and makes as many buckets as the expected entries need. -/
theorem insert_unallocated (hs : c.store = .table t) (h : t.Sound is) (hlf : t.loadFactor.IsLoad) (hb : t.buckets = 0)
    (hfits : t.expected ≤ capacityOf maxBuckets t.loadFactor) (key : K) (value : V) :
    (c.insert key value).result = .ok none ∧ ∀ t', (c.insert key value).state.store = .table t' →
      IsLeast (sizesFor t.expected t.loadFactor) t'.buckets := by
  have hsize := h.unallocated hb
  have hroom : 2 ^ 28 ≤ capacityOf maxBuckets t.loadFactor := le_capacityOf_quadruple (k := 28) hlf (by decide)
  obtain ⟨outcome, houtcome⟩ := (h.insert_isOk_iff hlf (by omega) (c.storedHash key) key value).mpr fun _ => hfits
  have hok : ∃ old, (c.insert key value).result = .ok old := by
    rw [Checked.exists_ok_iff]
    intro f herr
    rw [(insert_error_iff hs ⟨is, h⟩).mp herr] at houtcome
    cases houtcome
  have hnone : (c.insert key value).result = .ok none := by
    obtain ⟨old, hold⟩ := hok
    cases old with
    | none => exact hold
    -- no key is there
    | some old =>
        obtain ⟨moved, hupdated, -⟩ := insert_of_some hs hold
        cases ((h.insert_meets _ key value).of_ok hupdated).1 with
        | updated split found same sound content =>
            have := Table.lt_size_of_content found
            omega
  refine ⟨hnone, fun t' hs' => ?_⟩
  obtain ⟨chain, resized, hadded, rfl⟩ := insert_of_none hs hnone hs'
  have hallocated := hadded
  rw [Table.insert] at hallocated
  obtain ⟨u, hu, -⟩ := Reply.andThen_result_eq_ok hallocated
  have hfirst := Table.bucketsFor_of_allocate hb hu
  obtain ⟨-, hmax, hmin, k, hk⟩ := bucketsFor_spec hfirst
  have hk30 : k ≤ 30 := (Nat.pow_le_pow_iff_right (by decide)).mp (hk ▸ hmax)
  have hone := one_le_capacityOf hlf hmin hk (hk30.trans (by decide))
  rcases (h.insert_resizes hadded).2 with ⟨-, -, hsame⟩ | ⟨hfull, -⟩
  · rw [hsame]
    exact bucketsFor_isLeast hlf hfirst
  · omega

variable {settings : Settings} {order : Order} {hashing : Hashing K} {owner : OwnerId} {events : List Event}

/-- The first insertion into a container with any history in which no more room was asked for than there can be. -/
theorem Reaches.insert_unallocated (hreach : c.Reaches (Fits (capacityOf maxBuckets settings.loadFactor)) events d)
    (horder : order.Fresh) (hmake : make settings order hashing owner = .ok c) (hd : d.store = .table t)
    (hb : t.buckets = 0) (key : K) (value : V) :
    (d.insert key value).result = .ok none ∧ ∀ t', (d.insert key value).state.store = .table t' →
      IsLeast (sizesFor t.expected settings.loadFactor) t'.buckets := by
  obtain ⟨hlf, -, hfits⟩ := Settings.of_check (eq_of_make hmake).1
  have hexpects := hreach.expects (Container.expects_of_make horder hmake hfits) t hd
  obtain ⟨is, hsound⟩ := hexpects.intact
  have hfirst := Container.insert_unallocated hd hsound (hexpects.loadFactor.symm ▸ hlf) hb
  rw [hexpects.loadFactor] at hfirst
  exact hfirst (hexpects.expected hb) key value

/-- A chain of one entry sets off no guard. -/
theorem isFallback_insert_new (horder : order.Fresh) (hmake : make settings order hashing owner = .ok c) (key : K)
    (value : V) {old : Option V} (hok : (c.insert key value).result = .ok old) :
    (c.insert key value).state.isFallback = false := by
  have hguarded := guarded_of_make horder hmake
  obtain ⟨hcheck, hc⟩ := eq_of_make hmake
  have hs : c.store = .table (Table.empty order settings.loadFactor settings.expectedSize.toNat) :=
    congrArg Container.store hc
  obtain ⟨-, hchain, -⟩ := Settings.of_check hcheck
  have hpos : 0 < c.maxChain := hc ▸ Nat.pos_of_ne_zero hchain
  have habsent : c.contains key = .ok false :=
    contains_of_absent hs (Table.sound_empty horder.lists _ _) fun _ => rfl
  rw [(insert_warnsExactly hguarded hok).isFallback, insertAlarm?_of_absent hs habsent, Table.load_of_no_hashes rfl,
    if_neg (Nat.not_lt.mpr hpos)]
  rw [isFallback, hs]
  rfl

end Container

/-- The check of an expected size agrees with the sizing of the first buckets. -/
structure Settings.SizingLaw [Backing] (settings : Settings) : Prop where
  accepted : settings.check = .ok () ↔ settings.expectedSize.toNat ≤ ⌊(2 : ℚ) ^ 30 * settings.loadFactor.value⌋₊
  sized : settings.check = .ok () ↔ ∃ n, bucketsFor settings.expectedSize.toNat settings.loadFactor = .ok n
  /-- The quotient that is checked has been rounded twice. Rounding the exact one once tells the same. -/
  rounded : ∀ {num den : Nat}, den ≠ 0 → (num : ℚ) / den = settings.expectedSize.toNat / settings.loadFactor.value →
    (settings.check = .ok () ↔ rounded num den ≤ 2 ^ (30 : Int))
  least : ∀ {n}, bucketsFor settings.expectedSize.toNat settings.loadFactor = .ok n →
    IsLeast (sizesFor settings.expectedSize.toNat settings.loadFactor) n
  /-- The first insertion into a new container. -/
  first : ∀ {K V : Type} [BEq K] [EquivBEq K] {order : Order} {hashing : Hashing K} {owner : OwnerId} {c : Container K V},
    order.Fresh → Container.make settings order hashing owner = .ok c → ∀ key value,
      (c.insert key value).result = .ok none ∧ ∃ t, (c.insert key value).state.store = .table t ∧
        IsLeast (sizesFor settings.expectedSize.toNat settings.loadFactor) t.buckets
  /-- The first insertion after any history in which no more room was asked for than there can be. -/
  later : ∀ {K V : Type} [BEq K] [EquivBEq K] {order : Order} {hashing : Hashing K} {owner : OwnerId} {c d : Container K V}
    {events : List Event} {t : Table K V}, order.Fresh → Container.make settings order hashing owner = .ok c →
      c.Reaches (Container.Fits (capacityOf maxBuckets settings.loadFactor)) events d → d.store = .table t →
        t.buckets = 0 → ∀ key value, (d.insert key value).result = .ok none ∧
          ∀ t', (d.insert key value).state.store = .table t' →
            IsLeast (sizesFor t.expected settings.loadFactor) t'.buckets

/-- An expected size is accepted exactly if there are buckets for it, for every load factor and chain limit that are
    accepted and for every expected size. -/
theorem expected_size_law [Backing] {settings : Settings} (hlf : settings.loadFactor.IsLoad)
    (hchain : settings.maxChain ≠ 0) :
    settings.SizingLaw := by
  have hcheck : settings.check = .ok () ↔
      settings.expectedSize.toNat ≤ capacityOf maxBuckets settings.loadFactor := by
    rw [Settings.check_iff, and_iff_right hlf, and_iff_right hchain]
  refine ⟨?_, ?_, fun hden hratio => hcheck.trans (rounded_le_iff hlf hden hratio).symm, bucketsFor_isLeast hlf,
    fun horder hmake key value => ?_, fun horder hmake hreach hd hb key value => ?_⟩
  · rw [hcheck, maxBuckets_eq, capacityOf_two_pow hlf (by decide)]
  · refine hcheck.trans ⟨bucketsFor_of_le hlf, fun ⟨n, hn⟩ => Nat.not_lt.mp fun hlt => ?_⟩
    rw [bucketsFor_of_lt hlf hlt] at hn
    cases hn
  · obtain ⟨hok, hbuckets⟩ := Container.Reaches.insert_unallocated .start horder hmake
      (congrArg Container.store (Container.eq_of_make hmake).2) rfl key value
    obtain ⟨t, ht⟩ := Container.exists_table_of_isFallback
      (Container.isFallback_insert_new horder hmake key value hok)
    exact ⟨hok, t, ht, hbuckets t ht⟩
  · exact hreach.insert_unallocated horder hmake hd hb key value

/-- The default settings with the largest expected size that they can have. -/
theorem expected_size_law_largest :
    ∃ settings : Settings, settings = { expectedSize := 805306368 } ∧ settings.loadFactor.IsLoad ∧
      settings.maxChain ≠ 0 ∧ settings.SizingLaw ∧ bucketsFor 805306368 .threeQuarters = .ok (2 ^ 30) ∧
        bucketsFor 805306369 .threeQuarters = .error .capacityOverflow := by
  have hlf : Binary64.threeQuarters.IsLoad := ⟨by decide +kernel, by decide +kernel⟩
  exact ⟨{ expectedSize := 805306368 }, rfl, hlf, by decide, expected_size_law hlf (by decide), by decide +kernel,
    by decide +kernel⟩

end DenseHash
