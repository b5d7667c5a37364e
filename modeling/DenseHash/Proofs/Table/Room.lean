import DenseHash.Proofs.Table.Change

/-!
# What is refused for want of room

A table refuses an insertion in two places only. If it has no buckets yet, it is given some for as many entries as are
expected, and that is refused exactly where the largest table has no room for them (`allocate_of_lt`). A table with
buckets refuses a new key only if the largest table has no room for one more (`Sound.insertAllocated_refused`): the
number of buckets that it grows to is found before the word is full.

A refusal leaves the table as it was, but for one: a table that cannot grow has the new entry already. `Overfills` says
what it looks like then.
-/

namespace DenseHash

namespace Table

variable {K V : Type} {t : Table K V} {is : List Nat} {hash : UInt32} {key : K} {value : V} {f : Fault}

/-- Buckets within the limit can be made. -/
theorem resize_result {n : Nat} (hne : n ≠ 0) (hmax : n ≤ maxBuckets) : (t.resize n).result = .ok () := by
  rw [resize, if_neg (Nat.not_lt.mpr hmax), if_neg hne]

/-- More buckets than there can be are refused. -/
theorem resize_of_lt {n : Nat} (hmax : maxBuckets < n) : t.resize n = .fail t .capacityOverflow := by
  rw [resize, if_pos hmax]

/-- The check for storable entries passes if they are few enough. -/
theorem ensure_result {more : Nat} (h : t.size + more ≤ maxStored) : (t.ensure more).result = .ok () := by
  rw [ensure, if_neg (Nat.not_lt.mpr h)]
  rfl

theorem capacityOf_maxBuckets_le (hlf : t.loadFactor.IsLoad) : capacityOf maxBuckets t.loadFactor ≤ maxBuckets := by
  rw [maxBuckets_eq]
  exact capacityOf_le hlf (by decide)

/-- A table without buckets is refused some, and stays as it is, if the largest table has no room for what is
    expected. -/
theorem allocate_of_lt (hlf : t.loadFactor.IsLoad) (hb : t.buckets = 0)
    (hlt : capacityOf maxBuckets t.loadFactor < t.expected) :
    t.allocate = .fail t
      (if bucketsWanted t.expected t.loadFactor ≤ 2 ^ 63 then .capacityOverflow else .wordOverflow .addition) := by
  rw [allocate, if_pos hb, bucketsFor_of_lt hlf hlt]

/-- Buckets that were rebuilt are as many as were asked for. -/
theorem resize_of_ok {n : Nat} {u : Unit} (hok : (t.resize n).result = .ok u) :
    n ≠ 0 ∧ n ≤ maxBuckets ∧ (t.resize n).state.buckets = n ∧
      (t.resize n).state.capacity = capacityOf n t.loadFactor := by
  rw [resize] at hok ⊢
  by_cases hmax : maxBuckets < n
  · rw [if_pos hmax] at hok
    cases hok
  · by_cases hne : n = 0
    · rw [if_neg hmax, if_pos hne] at hok
      cases hok
    · have hbuckets : ({ t with heads := (rechain n t.entries).1, entries := (rechain n t.entries).2 } :
          Table K V).buckets = n := rechain_size n t.entries
      rw [if_neg hmax, if_neg hne]
      refine ⟨hne, Nat.not_lt.mp hmax, hbuckets, ?_⟩
      show capacity { t with heads := (rechain n t.entries).1, entries := (rechain n t.entries).2 } = _
      rw [capacity, hbuckets, if_neg hne]

/-- A table that cannot grow stays as it is. -/
theorem grow_of_error (h : t.grow.result = .error f) : t.grow.state = t := by
  rw [grow] at h ⊢
  split
  · rfl
  · rename_i hfull
    rw [if_neg hfull] at h
    cases hn : enlarge t.loadFactor t.size 64 (2 * t.buckets) with
    | error f' => rfl
    | ok n =>
        rw [hn] at h
        dsimp only at h ⊢
        cases hr : (t.resize n).result with
        | ok u =>
            rw [Reply.map_result, hr] at h
            cases h
        | error f' => exact resize_of_error hr

variable [BEq K]

/-- Without buckets, an insertion is refused if they would be too many for a table, or for a word. -/
theorem insert_of_lt (hlf : t.loadFactor.IsLoad) (hb : t.buckets = 0)
    (hlt : capacityOf maxBuckets t.loadFactor < t.expected) :
    t.insert hash key value = .fail t
      (if bucketsWanted t.expected t.loadFactor ≤ 2 ^ 63 then .capacityOverflow else .wordOverflow .addition) := by
  rw [insert, allocate_of_lt hlf hb hlt]
  rfl

/-- The key is new to a table with buckets, and the largest table has no room for it. -/
structure Refuses (t : Table K V) (hash : UInt32) (key : K) : Prop where
  allocated : t.buckets ≠ 0
  absent : ∀ i, t.holds hash key i = false
  full : capacityOf maxBuckets t.loadFactor ≤ t.size

/-- What an insertion leaves that could not grow the table: the new entry, in buckets that are too few for it. -/
structure Overfills (t : Table K V) (is : List Nat) (hash : UInt32) (key : K) (value : V) (t' : Table K V) : Prop where
  small : t.size < maxBuckets
  sound : t'.Sound (is ++ [t.size])
  content : t'.content = Function.update t.content t.size (some (hash, key, value))
  kind : t.order.SameKind t'.order
  keeps : t.Keeps t'
  buckets : t'.buckets = t.buckets

namespace Sound

/-- No table has room for more entries than the largest one. -/
theorem capacity_le (h : t.Sound is) (hlf : t.loadFactor.IsLoad) :
    t.capacity ≤ capacityOf maxBuckets t.loadFactor := by
  rw [capacity]
  split
  · exact Nat.zero_le _
  · rename_i hb
    obtain ⟨k, hk30, hk⟩ := h.exists_two_pow hb
    rw [hk, maxBuckets_eq]
    exact capacityOf_mono hlf hk30 (by decide)

/-! ## The first buckets -/

/-- The first buckets are made if no more entries are expected than the largest table has room for. -/
theorem allocate_of_le (h : t.Sound is) (hlf : t.loadFactor.IsLoad)
    (hfits : t.buckets = 0 → t.expected ≤ capacityOf maxBuckets t.loadFactor) : t.allocate.result = .ok () := by
  by_cases hb : t.buckets = 0
  · obtain ⟨n, hn⟩ := bucketsFor_of_le hlf (hfits hb)
    have hcap := capacityOf_maxBuckets_le hlf
    have hstored : maxBuckets ≤ maxStored := by decide
    have hsize := h.unallocated hb
    have hexpected := hfits hb
    rw [allocate, if_pos hb, hn]
    refine ensure_result ?_
    show t.size + t.expected ≤ maxStored
    omega
  · rw [allocate_of_ne hb]
    rfl

/-! ## More buckets -/

/-- Growing is refused only if the largest table has no room for the entries. -/
theorem grow_error (h : t.Sound is) (hb : t.buckets ≠ 0) (hlf : t.loadFactor.IsLoad)
    (herr : t.grow.result = .error f) : f = .capacityOverflow ∧ capacityOf maxBuckets t.loadFactor < t.size := by
  obtain ⟨k, hk30, hk⟩ := h.exists_two_pow hb
  have hdouble : 2 * t.buckets = 2 ^ (k + 1) := by rw [hk, Nat.pow_succ, Nat.mul_comm]
  obtain ⟨j, hj⟩ := enlarge_isOk hlf h.small (k := k + 1) (by omega)
  rw [grow] at herr
  split at herr
  · cases herr
  · rename_i hfull
    rw [hdouble, hj] at herr
    dsimp only at herr
    by_cases hmax : maxBuckets < 2 ^ j
    · rw [resize_of_lt hmax] at herr
      refine ⟨(Except.error.inj herr).symm, Nat.not_le.mp fun hroom => ?_⟩
      -- the size that has room is met on the way to the largest one
      have hne : k ≠ 30 := by
        rintro rfl
        rw [capacity, if_neg hb, hk, ← maxBuckets_eq] at hfull
        exact hfull hroom
      obtain ⟨i, -, hi, henlarge⟩ := enlarge_of_le (maxBuckets_eq ▸ hroom) (by decide) 64
        (show k + 1 ≤ 30 by omega) (by omega)
      have heq : 2 ^ j = 2 ^ i := Except.ok.inj (hj.symm.trans henlarge)
      have hle : 2 ^ i ≤ 2 ^ 30 := Nat.pow_le_pow_right two_pos hi
      rw [heq, maxBuckets_eq] at hmax
      omega
    · have hok := resize_result (t := t) (Nat.ne_of_gt (Nat.two_pow_pos j)) (Nat.not_lt.mp hmax)
      rw [Reply.map_result, hok] at herr
      cases herr

/-- A table that has grown, or did not have to, is not too full. -/
theorem grow_of_ok (h : t.Sound is) (hb : t.buckets ≠ 0) {resized : Bool} (hok : t.grow.result = .ok resized) :
    t.grow.state.size ≤ t.grow.state.capacity := by
  rw [size_congr (h.grow_leaves hb).1.content]
  rw [grow] at hok ⊢
  split
  · assumption
  · rename_i hfull
    rw [if_neg hfull] at hok
    cases hn : enlarge t.loadFactor t.size 64 (2 * t.buckets) with
    | error f =>
        rw [hn] at hok
        cases hok
    | ok n =>
        rw [hn] at hok
        obtain ⟨u, hu, -⟩ := Reply.map_result_eq_ok hok
        show t.size ≤ (t.resize n).state.capacity
        rw [(resize_of_ok hu).2.2.2]
        exact le_capacityOf_enlarge hn

section Allocated

variable [EquivBEq K]

/-- A table with buckets refuses an insertion only if the largest table is full. If it has as many entries as there can
    be it stays as it is, and otherwise the entry is there before it turns out that it should not be. -/
theorem insertAllocated_refused (h : t.Sound is) (hb : t.buckets ≠ 0) (hlf : t.loadFactor.IsLoad)
    (herr : (t.insertAllocated hash key value).result = .error f) :
    f = .capacityOverflow ∧ t.Refuses hash key ∧
      (maxBuckets ≤ t.size ∧ (t.insertAllocated hash key value).state = t ∨
        t.Overfills is hash key value (t.insertAllocated hash key value).state) := by
  obtain ⟨chains, hch⟩ := h.chained
  rcases hch.insertAllocated_cases hb hash key value with ⟨i, hi, heq⟩ | ⟨hnew, heq⟩
  · obtain ⟨stored, old, hc, -⟩ := holds_iff.mp hi
    obtain ⟨as, bs, rfl⟩ := List.append_of_mem (h.mem_of_content hc)
    obtain ⟨t', ht', -⟩ := h.update_eq hc value
    rw [heq, ht'] at herr
    cases herr
  · rw [heq] at herr ⊢
    by_cases hfull : maxBuckets ≤ t.size
    · rw [if_pos hfull] at herr ⊢
      exact ⟨(Except.error.inj herr).symm, ⟨hb, hnew, (capacityOf_maxBuckets_le hlf).trans hfull⟩, .inl ⟨hfull, rfl⟩⟩
    · rw [if_neg hfull] at herr ⊢
      have hsmall := Nat.not_le.mp hfull
      obtain ⟨t₁, ht₁, hkind, hb₁, hsound, hcontent⟩ := h.append_eq hb hsmall hnew value
      obtain ⟨hkeeps, hbuckets, -⟩ := append_keeps ht₁
      rw [ht₁] at herr ⊢
      dsimp only at herr ⊢
      rw [Reply.map_result] at herr
      cases hgrow : t₁.grow.result with
      | ok resized =>
          rw [hgrow] at herr
          cases herr
      | error f' =>
          rw [hgrow] at herr
          obtain rfl : f' = f := Except.error.inj herr
          obtain ⟨hf, hlt⟩ := hsound.grow_error hb₁ (hkeeps.loadFactor ▸ hlf) hgrow
          rw [hkeeps.loadFactor, h.size_of_listed hsound] at hlt
          refine ⟨hf, ⟨hb, hnew, Nat.le_of_lt_succ hlt⟩, .inr ?_⟩
          show t.Overfills is hash key value t₁.grow.state
          rw [grow_of_error hgrow]
          exact ⟨hsmall, hsound, hcontent, hkind, hkeeps, hbuckets⟩

/-- A table that has taken a new key is not too full. -/
theorem insertAllocated_room (h : t.Sound is) (hb : t.buckets ≠ 0) {chain : Nat} {resized : Bool}
    (hok : (t.insertAllocated hash key value).result = .ok (.added chain resized)) :
    (t.insertAllocated hash key value).state.size ≤ (t.insertAllocated hash key value).state.capacity := by
  obtain ⟨-, t₁, -, hb₁, hsound, hgrown, hstate⟩ := h.insertAllocated_appends hb hok
  rw [hstate]
  exact hsound.grow_of_ok hb₁ hgrown

/-- If the largest table is full, a table with buckets refuses every new key. -/
theorem insertAllocated_full (h : t.Sound is) (hlf : t.loadFactor.IsLoad) (hrefuses : t.Refuses hash key) :
    (t.insertAllocated hash key value).result = .error .capacityOverflow := by
  obtain ⟨hb, hnew, hfull⟩ := hrefuses
  cases hresult : (t.insertAllocated hash key value).result with
  | error f => rw [(h.insertAllocated_refused hb hlf hresult).1]
  | ok outcome =>
      cases ((h.insertAllocated_meets hb hash key value).of_ok hresult).1 with
      | updated split found same sound content =>
          have hholds := holds_iff.mpr ⟨_, _, found, same⟩
          exact absurd ((hnew _).symm.trans hholds) Bool.false_ne_true
      | added absent sound content =>
          -- a table that took the key would not be too full, and no table has room for that many
          have hroom := h.insertAllocated_room hb hresult
          have hkeeps := t.insertAllocated_keeps hash key value
          have hcapacity := sound.capacity_le (hkeeps.loadFactor ▸ hlf)
          rw [h.size_of_listed sound] at hroom
          rw [hkeeps.loadFactor] at hcapacity
          omega

end Allocated

/-! ## Insertions -/

section Insert

variable [EquivBEq K]

/-- Where the first buckets can be made, an insertion is refused only by a table that is as full as any table can
    be. -/
theorem insert_error (h : t.Sound is) (hlf : t.loadFactor.IsLoad)
    (hfits : t.buckets = 0 → t.expected ≤ capacityOf maxBuckets t.loadFactor)
    (herr : (t.insert hash key value).result = .error f) :
    f = .capacityOverflow ∧ capacityOf maxBuckets t.loadFactor ≤ t.size := by
  have hok := h.allocate_of_le hlf hfits
  obtain ⟨halike, hsound, hb⟩ := h.allocate_meets.of_ok hok
  have hkeeps := t.allocate_keeps
  have hsize : t.allocate.state.size = t.size := size_congr halike.content
  rw [insert, Reply.andThen_of_ok hok] at herr
  obtain ⟨hf, hrefuses, -⟩ := hsound.insertAllocated_refused hb (hkeeps.loadFactor ▸ hlf) herr
  exact ⟨hf, hkeeps.loadFactor ▸ hsize ▸ hrefuses.full⟩

/-- A table without buckets that refuses an insertion stays as it is. -/
theorem insert_refused_unallocated (h : t.Sound is) (hlf : t.loadFactor.IsLoad) (hb : t.buckets = 0)
    (herr : (t.insert hash key value).result = .error f) : (t.insert hash key value).state = t := by
  by_cases hfits : t.expected ≤ capacityOf maxBuckets t.loadFactor
  -- then there would be buckets, and they would be full
  · have hfull := (h.insert_error hlf (fun _ => hfits) herr).2
    have hroom : 2 ^ 28 ≤ capacityOf maxBuckets t.loadFactor := le_capacityOf_quadruple (k := 28) hlf (by decide)
    have hsize := h.unallocated hb
    omega
  · rw [insert_of_lt hlf hb (Nat.not_le.mp hfits)]
    rfl

/-- As long as the largest table has room, an insertion is refused only because of what is expected. -/
theorem insert_isOk_iff (h : t.Sound is) (hlf : t.loadFactor.IsLoad)
    (hroom : t.size < capacityOf maxBuckets t.loadFactor) (hash : UInt32) (key : K) (value : V) :
    (∃ outcome, (t.insert hash key value).result = .ok outcome) ↔
      (t.buckets = 0 → t.expected ≤ capacityOf maxBuckets t.loadFactor) := by
  rw [Checked.exists_ok_iff]
  constructor
  · intro hok hb
    refine Nat.not_lt.mp fun hlt => ?_
    exact hok _ (congrArg Reply.result (insert_of_lt hlf hb hlt))
  · intro hfits f herr
    have hfull := (h.insert_error hlf hfits herr).2
    omega

/-- The only word that an insertion can overflow is the one that the first buckets are counted in. -/
theorem insert_overflow_iff (h : t.Sound is) (hlf : t.loadFactor.IsLoad) {step : SizeStep} :
    (t.insert hash key value).result = .error (.wordOverflow step) ↔
      step = .addition ∧ t.buckets = 0 ∧ 2 ^ 63 < bucketsWanted t.expected t.loadFactor := by
  by_cases hfits : t.buckets = 0 → t.expected ≤ capacityOf maxBuckets t.loadFactor
  · constructor
    · intro herr
      cases (h.insert_error hlf hfits herr).1
    · rintro ⟨-, hb, hlarge⟩
      have := bucketsWanted_le_maxBuckets hlf (hfits hb)
      omega
  · rw [Classical.not_imp, Nat.not_le] at hfits
    obtain ⟨hb, hlt⟩ := hfits
    rw [insert_of_lt hlf hb hlt, Reply.fail, Except.error.injEq, refusal_overflow_iff, and_iff_right hb]

end Insert

/-! ## Requests -/

/-- A table with buckets refuses more than the largest table has room for, and stays as it is. -/
theorem reserve_of_lt (h : t.Sound is) (hlf : t.loadFactor.IsLoad) (hb : t.buckets ≠ 0) {more : Nat}
    (hlt : capacityOf maxBuckets t.loadFactor < min (t.size + more) maxWord) :
    t.reserve more = .fail t
      (if bucketsWanted (min (t.size + more) maxWord) t.loadFactor ≤ 2 ^ 63 then .capacityOverflow
        else .wordOverflow .addition) := by
  rw [reserve]
  dsimp only
  rw [if_neg hb, if_pos ((h.capacity_le hlf).trans_lt hlt), bucketsFor_of_lt hlf hlt]
  rfl

/-- It refuses nothing else: there is a size for what is wanted, and storage. -/
theorem reserve_of_le (h : t.Sound is) (hlf : t.loadFactor.IsLoad) {more : Nat}
    (hle : min (t.size + more) maxWord ≤ capacityOf maxBuckets t.loadFactor) : (t.reserve more).result = .ok () := by
  by_cases hb : t.buckets = 0
  · rw [reserve_unallocated hb]
    rfl
  · have hstored : capacityOf maxBuckets t.loadFactor ≤ maxStored :=
      (capacityOf_maxBuckets_le hlf).trans (by decide)
    have hword : maxStored < maxWord := by decide
    have hfits {t' : Table K V} (halike : t.Alike t') : (t'.ensure more).result = .ok () := by
      refine ensure_result ?_
      rw [size_congr halike.content]
      omega
    rw [reserve]
    dsimp only
    rw [if_neg hb]
    split
    · obtain ⟨n, hn⟩ := bucketsFor_of_le hlf hle
      obtain ⟨-, hmax, -, k, rfl⟩ := bucketsFor_spec hn
      rw [hn]
      dsimp only
      rw [Reply.andThen_of_ok (resize_result (Nat.ne_of_gt (Nat.two_pow_pos k)) hmax)]
      exact hfits (h.resize_leaves k).1
    · exact hfits (.refl t)

/-- A request that is refused changes nothing. -/
theorem reserve_refused (h : t.Sound is) (hlf : t.loadFactor.IsLoad) {more : Nat}
    (herr : (t.reserve more).result = .error f) : (t.reserve more).state = t := by
  by_cases hroom : min (t.size + more) maxWord ≤ capacityOf maxBuckets t.loadFactor
  · rw [h.reserve_of_le hlf hroom] at herr
    cases herr
  · by_cases hb : t.buckets = 0
    · rw [reserve_unallocated hb] at herr
      cases herr
    · rw [h.reserve_of_lt hlf hb (Nat.not_le.mp hroom)]
      rfl

/-- The only word that a request for room can overflow is the one that the buckets are counted in. A table without
    buckets does not count any. -/
theorem reserve_overflow_iff (h : t.Sound is) (hlf : t.loadFactor.IsLoad) {more : Nat} {step : SizeStep} :
    (t.reserve more).result = .error (.wordOverflow step) ↔
      step = .addition ∧ t.buckets ≠ 0 ∧
        2 ^ 63 < bucketsWanted (min (t.size + more) maxWord) t.loadFactor := by
  by_cases hb : t.buckets = 0
  · rw [reserve_unallocated hb]
    simp [Reply.ok, hb]
  · rw [and_iff_right hb]
    by_cases hroom : min (t.size + more) maxWord ≤ capacityOf maxBuckets t.loadFactor
    · rw [h.reserve_of_le hlf hroom]
      refine iff_of_false nofun fun hlarge => ?_
      have := bucketsWanted_le_maxBuckets hlf hroom
      omega
    · rw [h.reserve_of_lt hlf hb (Nat.not_le.mp hroom), Reply.fail, Except.error.injEq, refusal_overflow_iff]

end Sound

end Table

end DenseHash
