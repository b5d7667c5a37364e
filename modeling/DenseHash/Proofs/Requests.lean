import DenseHash.Proofs.Container.Room

/-!
# Requests for room

What becomes of a request for room that no table can meet, and what it does to the insertions after it. A table with
buckets refuses such a request when it is made. A table without buckets remembers the number, and the first insertion
fails on it, however few entries there are:

* **`insert_returns_iff`**: as long as the largest table has room for one more entry, an insertion fails exactly if a
  number that is too large is remembered. It does not fail if no number like that was ever asked for.
* **`word_overflow_iff`**: the computations of sizes that leave a 64-bit word. There are two: half of the largest hint
  is not found, and above `2 ^ 63` buckets there is no power of two.
-/

namespace DenseHash

namespace Container

variable {K V : Type} [BEq K] [EquivBEq K] {settings : Settings} {order : Order} {hashing : Hashing K} {owner : OwnerId}
  {t : Table K V} {events : List Event} {loadFactor : Binary64} {bound : Nat}

section Expected

variable [Backing] {c d : Container K V}

omit [EquivBEq K] in
/-- A container that was just made expects what its settings say. -/
theorem expects_of_make (horder : order.Fresh) (hmake : make settings order hashing owner = .ok c)
    (hbound : settings.expectedSize.toNat ≤ bound) : c.Expects settings.loadFactor bound := by
  obtain ⟨-, rfl⟩ := eq_of_make hmake
  exact fun t ht => Store.table.inj ht ▸ ⟨⟨[], Table.sound_empty horder.lists _ _⟩, rfl, fun _ => hbound⟩

/-- No history makes a container expect more than a word can count. -/
theorem Reaches.expects_of_make (hreach : c.Reaches Any events d) (horder : order.Fresh)
    (hmake : make settings order hashing owner = .ok c) : d.Expects settings.loadFactor maxWord :=
  (hreach.mono fun c op _ => fits_maxWord c op).expects
    (Container.expects_of_make horder hmake (Nat.le_of_lt_succ settings.expectedSize.toNat_lt))

/-- An insertion where there is room for another entry returns exactly if the first buckets can be made. -/
theorem Expects.insert_isOk_iff (h : d.Expects loadFactor bound) (hlf : loadFactor.IsLoad) (hd : d.store = .table t)
    (hroom : d.size < capacityOf maxBuckets loadFactor) (key : K) (value : V) :
    (∃ old, (d.insert key value).result = .ok old) ↔
      (t.buckets = 0 → t.expected ≤ capacityOf maxBuckets loadFactor) := by
  obtain ⟨hintact, rfl, -⟩ := h t hd
  obtain ⟨is, hsound⟩ := id hintact
  rw [size, hd] at hroom
  rw [← hsound.insert_isOk_iff hlf hroom (d.storedHash key) key value, Checked.exists_ok_iff, Checked.exists_ok_iff]
  exact forall_congr' fun f => not_congr (insert_error_iff hd hintact)

/-- An insertion fails before the largest table is full if and only if there are no buckets yet and more entries are
    expected than the largest table has room for. That comes of requests made before there were buckets: if none of
    them was too large, no insertion fails. -/
theorem insert_returns_iff (horder : order.Fresh) (hmake : make settings order hashing owner = .ok c)
    (hreach : c.Reaches Any events d) (hd : d.store = .table t)
    (hroom : d.size < capacityOf maxBuckets settings.loadFactor) (key : K) (value : V) :
    capacityOf maxBuckets settings.loadFactor = ⌊2 ^ 30 * settings.loadFactor.value⌋₊ ∧
      ((∃ old, (d.insert key value).result = .ok old) ↔
        (t.buckets = 0 → t.expected ≤ capacityOf maxBuckets settings.loadFactor)) ∧
      (c.Reaches (Fits (capacityOf maxBuckets settings.loadFactor)) events d →
        ∃ old, (d.insert key value).result = .ok old) := by
  obtain ⟨hcheck, -⟩ := eq_of_make hmake
  obtain ⟨hlf, -, hexpected⟩ := Settings.of_check hcheck
  have hiff := (hreach.expects_of_make horder hmake).insert_isOk_iff hlf hd hroom key value
  refine ⟨capacityOf_two_pow (k := 30) hlf (by decide), hiff, fun hfits => hiff.mpr ?_⟩
  exact (hfits.expects (Container.expects_of_make horder hmake hexpected) t hd).expected

end Expected

/-- Eight billion entries are asked for. That is not refused, but the first insertion is. -/
theorem insert_returns_iff_oversized :
    ∃ (c d : Container Nat Nat) (t : Table Nat Nat),
      make {} .dense ⟨fun _ => 0, ⟨fun _ _ => 0⟩⟩ 0 = .ok c ∧ c.Reaches Any [] d ∧ d.store = .table t ∧
        d.size < capacityOf maxBuckets .threeQuarters ∧ ¬∃ old, (d.insert 1 10).result = .ok old := by
  have hreach : ((⟨⟨fun _ => 0, ⟨fun _ _ => 0⟩⟩, .table (.empty .dense .threeQuarters 0), 9, 0, 0⟩ :
      Container Nat Nat)).Reaches Any [] _ := .apply .start (.reserve 8589934592) trivial
  have hroom : 0 < capacityOf maxBuckets .threeQuarters := by decide +kernel
  have hmake : (make {} .dense ⟨fun _ => 0, ⟨fun _ _ => 0⟩⟩ 0 : Except _ (Container Nat Nat)) = .ok _ := rfl
  refine ⟨_, _, _, hmake, hreach, rfl, hroom, fun hok => ?_⟩
  have hfits := (insert_returns_iff .dense hmake hreach rfl hroom 1 10).2.1.mp hok rfl
  exact absurd hfits (by decide +kernel)

/-- The request is not refused when it is made, and the insertion after it fails in an empty container. -/
theorem oversized_request_fails_later :
    ∃ c : Container Nat Nat, make {} .dense ⟨fun _ => 0, ⟨fun _ _ => 0⟩⟩ 0 = .ok c ∧
      (c.apply (.reserve 8589934592)).result = .ok .done ∧ (c.apply (.reserve 8589934592)).state.size = 0 ∧
        ((c.apply (.reserve 8589934592)).state.insert 1 10).result = .error .capacityOverflow := by
  refine ⟨_, rfl, rfl, rfl, ?_⟩
  decide +kernel

/-! ## Words -/

section Words

variable [Backing] {c d : Container K V}

omit [BEq K] [EquivBEq K] in
/-- Half of a hint is computed from one more than the hint. -/
theorem roomFor_error_iff {hint : UInt64} {f : Fault} :
    d.roomFor hint = .error f ↔ f = .wordOverflow .addition ∧ d.size ≠ 0 ∧ hint.toNat = maxWord := by
  have hword : hint.toNat + 1 < wordValues ↔ hint.toNat ≠ maxWord := by
    have hlt : hint.toNat < 2 ^ 64 := hint.toNat_lt
    show hint.toNat + 1 < 2 ^ 64 ↔ hint.toNat ≠ 2 ^ 64 - 1
    omega
  rw [roomFor]
  by_cases hsize : d.size = 0
  · rw [if_pos hsize]
    simp [hsize]
  · rw [if_neg hsize]
    by_cases hlt : hint.toNat + 1 < wordValues
    · rw [if_pos hlt]
      simp [hword.mp hlt]
    · rw [if_neg hlt]
      rw [hword, not_not] at hlt
      simp [hsize, hlt, eq_comm]

/-- Where the computation of a size leaves a 64-bit word, for a container with any history: at one more than the
    largest hint, and at the power of two for more than `2 ^ 63` buckets. A count that the largest table has no room for
    is refused because of the capacity unless that happens. Doubling never leaves a word, and it comes to an end. -/
theorem word_overflow_iff (horder : order.Fresh) (hmake : make settings order hashing owner = .ok c)
    (hreach : c.Reaches Any events d) (hd : d.store = .table t) :
    (∀ hint f, d.roomFor hint = .error f ↔ f = .wordOverflow .addition ∧ d.size ≠ 0 ∧ hint.toNat = maxWord) ∧
      (∀ more step, (d.reserve more).result = .error (.wordOverflow step) ↔ step = .addition ∧ t.buckets ≠ 0 ∧
        2 ^ 63 < bucketsWanted (min (t.size + more.toNat) maxWord) settings.loadFactor) ∧
      (∀ key value step, (d.insert key value).result = .error (.wordOverflow step) ↔ step = .addition ∧
        t.buckets = 0 ∧ 2 ^ 63 < bucketsWanted t.expected settings.loadFactor) ∧
      (∀ count, ⌊2 ^ 30 * settings.loadFactor.value⌋₊ < count → bucketsFor count settings.loadFactor =
        .error (if bucketsWanted count settings.loadFactor ≤ 2 ^ 63 then .capacityOverflow
          else .wordOverflow .addition)) ∧
      ∀ count,
        let first := firstSize count settings.loadFactor
        let last := widen settings.loadFactor count 32 first
        (first < wordValues → last < wordValues) ∧
          (last ≤ maxBuckets → count ≤ capacityOf last settings.loadFactor) := by
  obtain ⟨hcheck, -⟩ := eq_of_make hmake
  obtain ⟨hlf, -, -⟩ := Settings.of_check hcheck
  obtain ⟨hintact, hload, -⟩ := hreach.expects_of_make horder hmake t hd
  obtain ⟨is, hsound⟩ := id hintact
  rw [← hload] at hlf ⊢
  refine ⟨fun hint f => roomFor_error_iff, fun more step => ?_, fun key value step => ?_, fun count hlt => ?_,
    fun count => ⟨widen_lt_wordValues _ _ _, widen_stops _ _ (maxBuckets_lt_firstSize_mul _ _)⟩⟩
  · rw [reserve_error_iff hd hintact]
    exact hsound.reserve_overflow_iff hlf
  · rw [insert_error_iff hd hintact]
    exact hsound.insert_overflow_iff hlf
  · refine bucketsFor_of_lt hlf ?_
    rw [maxBuckets_eq, capacityOf_two_pow hlf (by decide)]
    exact hlt

end Words

/-- The largest request, remembered by a container without buckets, overflows a word in the first insertion. -/
theorem word_overflow_iff_largest :
    ∃ (c d : Container Nat Nat) (t : Table Nat Nat),
      make {} .dense ⟨fun _ => 0, ⟨fun _ _ => 0⟩⟩ 0 = .ok c ∧ c.Reaches Any [] d ∧ d.store = .table t ∧
        (d.insert 1 10).result = .error (.wordOverflow .addition) := by
  have hreach : ((⟨⟨fun _ => 0, ⟨fun _ _ => 0⟩⟩, .table (.empty .dense .threeQuarters 0), 9, 0, 0⟩ :
      Container Nat Nat)).Reaches Any [] _ := .apply .start (.reserve 18446744073709551615) trivial
  have hmake : (make {} .dense ⟨fun _ => 0, ⟨fun _ _ => 0⟩⟩ 0 : Except _ (Container Nat Nat)) = .ok _ := rfl
  refine ⟨_, _, _, hmake, hreach, rfl, ?_⟩
  refine ((word_overflow_iff .dense hmake hreach rfl).2.2.1 1 10 .addition).mpr ⟨rfl, rfl, ?_⟩
  decide +kernel

/-- Neither the buckets for the largest count nor half of the largest hint are refused because of the capacity. -/
theorem largest_request_overflows :
    bucketsFor 18446744073709551615 .threeQuarters = .error (.wordOverflow .addition) ∧
      ∃ c : Container Nat Nat, make {} .dense ⟨fun _ => 0, ⟨fun _ _ => 0⟩⟩ 0 = .ok c ∧
        ((c.insert 1 10).state.extend 18446744073709551615 []).result = .error (.wordOverflow .addition) := by
  refine ⟨by decide +kernel, _, rfl, ?_⟩
  decide +kernel

end Container

end DenseHash
