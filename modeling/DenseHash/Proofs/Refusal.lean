import DenseHash.Proofs.FloodGuard
import DenseHash.Proofs.Requests
import DenseHash.Proofs.Table.Capacity

/-!
# What a refusal leaves

A call that is refused for want of room should leave the container as it was. Whatever the history:

* **A request for room** does. It is refused before anything is rebuilt (`reserve_refused`).
* **An insertion** does if the table has no buckets yet, and if it has as many entries as there can be.
* **Otherwise** the table is the largest one and full, below as many entries as buckets. Then the entry is stored, and
  only after that it turns out that there are no more buckets: the insertion is refused, and the container is
  `Overfilled`. The generation did not change, so cursors go on as if nothing had happened.

The last case needs `2 ^ 28` entries at least, so no run reaches it that could be written out. That there is one is shown
by induction on the number of entries: every distinct key is taken until the largest table is full (`exists_filled`).
-/

namespace DenseHash

/-- Every operation keeps a table roomy. -/
theorem Table.roomy_invariant [Backing] {K V : Type} [BEq K] [EquivBEq K] :
    Table.Invariant Container.Any fun t : Table K V => t.Roomy where
  intact := fun h => h.intact
  addsNothing := fun h hadds => h.of_addsNothing hadds
  insert := fun h => h.insert
  room := fun _ _ _ => trivial
  reserve := fun _ h _ => h.reserve _
  shrink := fun h => h.shrink

namespace Container

section Refused

variable [Backing] {K V : Type} [BEq K] [EquivBEq K] {settings : Settings} {order : Order} {hashing : Hashing K}
  {owner : OwnerId}
  {c d : Container K V} {t : Table K V} {slots : List Slot} {ps : List (K × V)} {events : List Event} {key : K}
  {value : V} {f : Fault} {more : UInt64}

omit [EquivBEq K] in
/-- A new container has no buckets, and no entries for which there could be too few. -/
theorem roomy_of_make (horder : order.Fresh) (hmake : make settings order hashing owner = .ok c) :
    c.OnTable Table.Roomy := by
  obtain ⟨hcheck, rfl⟩ := eq_of_make hmake
  intro t ht
  obtain rfl := Store.table.inj ht
  exact ⟨⟨[], Table.sound_empty horder.lists _ _⟩, (Settings.of_check hcheck).1, fun _ => Nat.zero_le _⟩

/-- The table of a container, whatever its history, is roomy and has the load factor that it was made with. -/
theorem Reaches.roomy (hreach : c.Reaches Any events d) (horder : order.Fresh)
    (hmake : make settings order hashing owner = .ok c) (hd : d.store = .table t) :
    t.Roomy ∧ t.loadFactor = settings.loadFactor :=
  ⟨(invariant_onTable Table.roomy_invariant).reaches hreach (roomy_of_make horder hmake) t hd,
    (hreach.expects_of_make horder hmake t hd).loadFactor⟩

/-! ## Requests -/

/-- A request that is refused leaves the container as it was. -/
theorem reserve_refused (hs : d.store = .table t) (ht : t.Roomy) (herr : (d.reserve more).result = .error f) :
    (d.reserve more).state = d := by
  obtain ⟨is, hsound⟩ := ht.intact
  have htable := (reserve_error_iff hs ht.intact).mp herr
  rw [Container.reserve]
  rw [hs]
  dsimp only
  rw [Reply.within_andThen_of_error htable, hsound.reserve_refused ht.isLoad htable, ← hs]

/-! ## Insertions -/

/-- The entry of an insertion that was refused is there all the same, beyond the capacity of the largest table. No
    cursor notices. -/
structure Overfilled (key : K) (value : V) (c c' : Container K V) : Prop where
  listed : ∃ ps, c.toList = .ok ps ∧ c'.toList = .ok (ps ++ [(key, value)])
  tables : ∃ t t', c.store = .table t ∧ c'.store = .table t' ∧ t.buckets = maxBuckets ∧ t'.buckets = maxBuckets ∧
    t'.capacity = t.capacity ∧ t.capacity ≤ t.size ∧ t'.size = t.size + 1
  generation : c'.generation = c.generation
  unnoticed : ∀ cur : Cursor, cur.check c' = cur.check c

omit [BEq K] [EquivBEq K] in
/-- It is not what it was: one more entry is listed. -/
theorem Overfilled.ne {c' : Container K V} (h : c.Overfilled key value c') : c' ≠ c := by
  rintro rfl
  obtain ⟨ps, hps, hps'⟩ := h.listed
  have hlength := congrArg List.length (Except.ok.inj (hps.symm.trans hps'))
  rw [List.length_append, List.length_singleton] at hlength
  omega

omit [EquivBEq K] in
/-- What the table has left is what the container shows. -/
theorem Shows.overfilled {is : List Nat} {t' : Table K V} (h : c.Shows (is.map .index) ps) (hs : c.store = .table t)
    (ht : t.Roomy) (hsound : t.Sound is) (hhash : t.Hashed c.hashing.stored)
    (hrefuses : t.Refuses (c.storedHash key) key) (hover : t.Overfills is (c.storedHash key) key value t') :
    c.Overfilled key value { c with store := .table t' } := by
  obtain ⟨slots', hshows', -⟩ := h.becomes_added_table hs hsound hhash hover.kind hover.sound hover.content
  have hlargest := ht.buckets_eq hrefuses
  have hcapacity : t'.capacity = t.capacity := by
    rw [Table.capacity, Table.capacity, hover.buckets, hover.keeps.loadFactor]
  refine ⟨⟨ps, h.toList_eq, hshows'.toList_eq⟩, ⟨t, t', hs, rfl, hlargest, hover.buckets.trans hlargest, hcapacity, ?_,
    hsound.size_of_listed hover.sound⟩, rfl, fun cur => rfl⟩
  rw [Table.capacity, if_neg hrefuses.allocated, hlargest]
  exact hrefuses.full

/-- The state is the one that the table has left. -/
theorem insert_state_of_error (hs : d.store = .table t) (ht : t.Intact)
    (herr : (d.insert key value).result = .error f) :
    (d.insert key value).state = { d with store := .table (t.insert (d.storedHash key) key value).state } := by
  have htable := (insert_error_iff hs ht).mp herr
  rw [Container.insert]
  rw [hs]
  dsimp only
  rw [Reply.within_andThen_of_error htable]

/-- An insertion that is refused leaves the container as it was, or overfilled. -/
theorem Shows.insert_refused (h : d.Shows slots ps) (hs : d.store = .table t) (ht : t.Roomy)
    (herr : (d.insert key value).result = .error f) :
    (t.buckets = 0 ∨ maxBuckets ≤ t.size) ∧ (d.insert key value).state = d ∨
      (t.buckets ≠ 0 ∧ t.size < maxBuckets) ∧ f = .capacityOverflow ∧
        d.Overfilled key value (d.insert key value).state := by
  obtain ⟨is, rfl, hsound, hhash⟩ := h.sound.exists_indices hs
  have htable := (insert_error_iff hs ht.intact).mp herr
  rw [insert_state_of_error hs ht.intact herr]
  by_cases hb : t.buckets = 0
  · refine .inl ⟨.inl hb, ?_⟩
    rw [hsound.insert_refused_unallocated ht.isLoad hb htable, ← hs]
  · rw [Table.insert, Table.allocate_of_ne hb] at htable ⊢
    obtain ⟨hf, hrefuses, ⟨hmax, hstate⟩ | hover⟩ := hsound.insertAllocated_refused hb ht.isLoad htable
    · refine .inl ⟨.inr hmax, ?_⟩
      show { d with store := .table (t.insertAllocated (d.storedHash key) key value).state } = d
      rw [hstate, ← hs]
    · exact .inr ⟨⟨hb, hover.small⟩, hf, h.overfilled hs ht hsound hhash hrefuses hover⟩

/-- A table with buckets refuses a key if and only if it is new and the largest table has no room for it. -/
theorem insert_refused_iff (hs : d.store = .table t) (ht : t.Roomy) (hb : t.buckets ≠ 0) :
    (∃ f, (d.insert key value).result = .error f) ↔
      d.contains key = .ok false ∧ capacityOf maxBuckets t.loadFactor ≤ t.size := by
  obtain ⟨is, hsound⟩ := ht.intact
  constructor
  · rintro ⟨f, herr⟩
    have htable := (insert_error_iff hs ht.intact).mp herr
    rw [Table.insert, Table.allocate_of_ne hb] at htable
    have hrefuses := (hsound.insertAllocated_refused hb ht.isLoad htable).2.1
    exact ⟨contains_of_absent hs hsound hrefuses.absent, hrefuses.full⟩
  · rintro ⟨habsent, hfull⟩
    refine ⟨.capacityOverflow, (insert_error_iff hs ht.intact).mpr ?_⟩
    rw [Table.insert, Table.allocate_of_ne hb]
    refine hsound.insertAllocated_full ht.isLoad ⟨hb, fun i => Bool.eq_false_iff.mpr fun hi => ?_, hfull⟩
    cases habsent.symm.trans (contains_of_holds hs hsound hi)

/-- What refused calls leave, in any container with any history. A request for room that is refused changes nothing. An
    insertion that is refused changes nothing if and only if there are no buckets yet or as many entries as there can
    be; in any other case the entry is there. A table with buckets refuses a key if and only if it is new and the
    largest table has no room for it, so the other case is met by every load factor below 1. -/
theorem refused_call_leaves (horder : order.Fresh) (hr : hashing.Respects)
    (hmake : make settings order hashing owner = .ok c) (hreach : c.Reaches Any events d) (hd : d.store = .table t) :
    (∀ more f, (d.reserve more).result = .error f → (d.reserve more).state = d) ∧
      (∀ key value f, (d.insert key value).result = .error f →
        ((d.insert key value).state = d ↔ t.buckets = 0 ∨ maxBuckets ≤ t.size) ∧
          (t.buckets ≠ 0 → t.size < maxBuckets →
            f = .capacityOverflow ∧ d.Overfilled key value (d.insert key value).state)) ∧
      ∀ key value, t.buckets ≠ 0 → ((∃ f, (d.insert key value).result = .error f) ↔
        d.contains key = .ok false ∧ ⌊2 ^ 30 * settings.loadFactor.value⌋₊ ≤ t.size) := by
  obtain ⟨-, slots, ps, hshows⟩ := hreach.shows_of_make horder hr hmake
  obtain ⟨hroomy, hlf⟩ := hreach.roomy horder hmake hd
  refine ⟨?_, ?_, ?_⟩
  · intro more f herr
    exact reserve_refused hd hroomy herr
  · intro key value f herr
    rcases hshows.insert_refused hd hroomy herr with ⟨hsafe, hstate⟩ | ⟨hroom, hf, hover⟩
    · refine ⟨iff_of_true hstate hsafe, ?_⟩
      intro hb hsmall
      exact absurd hsafe (not_or.mpr ⟨hb, Nat.not_le.mpr hsmall⟩)
    · have hnot : ¬(t.buckets = 0 ∨ maxBuckets ≤ t.size) := not_or.mpr ⟨hroom.1, Nat.not_le.mpr hroom.2⟩
      refine ⟨iff_of_false hover.ne hnot, ?_⟩
      intro _ _
      exact ⟨hf, hover⟩
  · intro key value hb
    rw [← capacityOf_two_pow (hlf ▸ hroomy.isLoad) (by decide), ← hlf]
    exact insert_refused_iff hd hroomy hb

end Refused

/-- A container with one entry is asked for room for a trillion more. -/
theorem refused_call_leaves_request :
    ∃ c d : Container Nat Nat, make {} .dense ⟨fun _ => 0, ⟨fun _ _ => 0⟩⟩ 0 = .ok c ∧ c.Reaches Any [] d ∧
      (d.reserve 1099511627776).result = .error .capacityOverflow ∧ (d.reserve 1099511627776).state = d := by
  have hreach : ((⟨⟨fun _ => 0, ⟨fun _ _ => 0⟩⟩, .table (.empty .dense .threeQuarters 0), 9, 0, 0⟩ :
      Container Nat Nat)).Reaches Any [] _ := .apply .start (.insert 1 10) trivial
  have hmake : (make {} .dense ⟨fun _ => 0, ⟨fun _ _ => 0⟩⟩ 0 : Except _ (Container Nat Nat)) = .ok _ := rfl
  refine ⟨_, _, hmake, hreach, by decide +kernel, ?_⟩
  exact (refused_call_leaves .dense ⟨fun _ => rfl, fun _ _ _ _ => rfl⟩ hmake hreach rfl).1 _ .capacityOverflow
    (by decide +kernel)

/-! ## The largest table gets full -/

section Fill

variable [Backing] {K V : Type} [BEq K] {settings : Settings} {order : Order} {hashing : Hashing K} {owner : OwnerId}
  {c d : Container K V} {events : List Event} {ps : List (K × V)} {key : K}

/-- An operation that returns and asks for no more than that. -/
def Modest (bound : Nat) (c : Container K V) (op : Operation K V) : Prop := Returns c op ∧ c.Fits bound op

omit [BEq K] in
theorem capacity?_of_table {t : Table K V} (hs : c.store = .table t) : c.capacity? = some t.capacity := by
  rw [capacity?]
  rw [hs]

variable [EquivBEq K]

/-- A key that is not listed sets off no alarm, if chains may be as long as there will be entries. -/
theorem Shows.insertAlarm?_eq_none {slots : List Slot} (h : d.Shows slots ps) (hr : d.hashing.Respects)
    (hnew : ∀ p ∈ ps, (p.1 == key) = false) (hlong : ps.length < d.maxChain) : d.insertAlarm? key = none := by
  cases hs : d.store with
  | fallback f =>
      rw [insertAlarm?]
      rw [hs]
  | table t =>
      have hload := t.load_le_size (bucketIndex t.buckets (d.storedHash key))
      rw [h.size_of_table hs] at hload
      rw [insertAlarm?_of_absent hs (h.contains_eq_false hr hnew), if_neg (by omega)]

/-- It is taken, if the largest table has room for it. -/
theorem Reaches.take (hreach : c.Reaches (Modest (capacityOf maxBuckets settings.loadFactor)) events d)
    (horder : order.Fresh) (hr : hashing.Respects) (hmake : make settings order hashing owner = .ok c)
    (hlong : maxBuckets ≤ settings.maxChain.toNat) (hd : d.isFallback = false) (hps : d.toList = .ok ps)
    (hnew : ∀ p ∈ ps, (p.1 == key) = false) (hroom : ps.length < capacityOf maxBuckets settings.loadFactor) (value : V) :
    ∃ events' d', c.Reaches (Modest (capacityOf maxBuckets settings.loadFactor)) events' d' ∧
      d'.isFallback = false ∧ d'.toList = .ok (ps ++ [(key, value)]) := by
  obtain ⟨hrd, slots, ps', hshows⟩ := hreach.shows_of_make horder hr hmake
  obtain rfl : ps' = ps := Except.ok.inj (hshows.toList_eq.symm.trans hps)
  obtain ⟨hmax, hguarded, -⟩ := (hreach.mono fun _ _ h => h.1).guarded (guarded_of_make horder hmake)
    (by obtain ⟨-, rfl⟩ := eq_of_make hmake; rfl)
  obtain ⟨t, hs⟩ := exists_table_of_isFallback hd
  obtain ⟨hcheck, hc⟩ := eq_of_make hmake
  obtain ⟨hlf, -, hexpected⟩ := Settings.of_check hcheck
  have hexpects := (hreach.mono fun _ _ h => h.2).expects (Container.expects_of_make horder hmake hexpected)
  obtain ⟨old, hok⟩ := (hexpects.insert_isOk_iff hlf hs (hshows.size_eq ▸ hroom) key value).mpr (hexpects t hs).expected
  obtain ⟨-, slots', hshows', -⟩ := (hshows.insert_meets hrd key value).of_ok hok
  rw [(Listing.insert_absent (l := d.listingOf ps') hnew value).1] at hshows'
  have hpermitted : Modest (capacityOf maxBuckets settings.loadFactor) d (.insert key value) :=
    ⟨⟨.value old, congrArg (Except.map Answer.value) hok⟩, fun _ _ _ => Nat.zero_le _⟩
  refine ⟨_, _, .apply hreach (.insert key value) hpermitted, ?_, hshows'.toList_eq⟩
  have hnoAlarm : d.insertAlarm? key = none := by
    have hle : capacityOf maxBuckets settings.loadFactor ≤ maxBuckets := by
      rw [maxBuckets_eq]
      exact capacityOf_le hlf (by decide)
    refine hshows.insertAlarm?_eq_none hrd hnew ?_
    rw [hmax, hc]
    exact hroom.trans_le (hle.trans hlong)
  exact (insert_warnsExactly hguarded hok).isFallback.trans (by rw [hd, hnoAlarm]; rfl)

omit [Backing] [EquivBEq K] in
/-- Keys that are counted up are new each time. -/
theorem next_key_new {key : Nat → K} (hkey : ∀ i j, (key i == key j) = true → i = j) (value : Nat → V) (n : Nat) :
    ∀ p ∈ (List.range n).map fun i => (key i, value i), (p.1 == key n) = false := by
  intro p hp
  obtain ⟨i, hi, rfl⟩ := List.mem_map.mp hp
  refine Bool.eq_false_iff.mpr fun heq => ?_
  exact absurd (hkey i n heq) (Nat.ne_of_lt (List.mem_range.mp hi))

/-- Any number of distinct keys that the largest table has room for. -/
theorem exists_filled (horder : order.Fresh) (hr : hashing.Respects) (hmake : make settings order hashing owner = .ok c)
    (hlong : maxBuckets ≤ settings.maxChain.toNat) {key : Nat → K} (hkey : ∀ i j, (key i == key j) = true → i = j)
    (value : Nat → V) {n : Nat} (hn : n ≤ capacityOf maxBuckets settings.loadFactor) :
    ∃ events d, c.Reaches (Modest (capacityOf maxBuckets settings.loadFactor)) events d ∧ d.isFallback = false ∧
      d.toList = .ok ((List.range n).map fun i => (key i, value i)) := by
  induction n with
  | zero =>
      refine ⟨[], c, .start, ?_, (shows_of_make horder hmake).toList_eq⟩
      obtain ⟨-, rfl⟩ := eq_of_make hmake
      rfl
  | succ n ih =>
      obtain ⟨events, d, hreach, hd, hps⟩ := ih (Nat.le_of_succ_le hn)
      obtain ⟨events', d', hreach', hd', hps'⟩ := hreach.take horder hr hmake hlong hd hps (next_key_new hkey value n)
        (by rwa [List.length_map, List.length_range]) (value n)
      refine ⟨events', d', hreach', hd', ?_⟩
      rw [hps', List.range_succ, List.map_append]
      rfl

/-- So with a load factor below 1 there is a history after which an insertion leaves the container overfilled. -/
theorem exists_overfilled (horder : order.Fresh) (hr : hashing.Respects)
    (hmake : make settings order hashing owner = .ok c) (hlong : maxBuckets ≤ settings.maxChain.toNat)
    (hload : ⌊2 ^ 30 * settings.loadFactor.value⌋₊ < maxBuckets) {key : Nat → K}
    (hkey : ∀ i j, (key i == key j) = true → i = j) (value : Nat → V) :
    let n := ⌊2 ^ 30 * settings.loadFactor.value⌋₊
    ∃ events d, c.Reaches Returns events d ∧ d.toList = .ok ((List.range n).map fun i => (key i, value i)) ∧
      (d.insert (key n) (value n)).result = .error .capacityOverflow ∧
        d.Overfilled (key n) (value n) (d.insert (key n) (value n)).state := by
  intro n
  obtain ⟨hlf, -, -⟩ := Settings.of_check (eq_of_make hmake).1
  have hcapacity : capacityOf maxBuckets settings.loadFactor = n := by
    rw [maxBuckets_eq, capacityOf_two_pow hlf (by decide)]
  obtain ⟨events, d, hmodest, hd, hps⟩ := exists_filled horder hr hmake hlong hkey value hcapacity.ge
  have hreach : c.Reaches Returns events d := hmodest.mono fun _ _ h => h.1
  obtain ⟨hrd, slots, ps', hshows⟩ := hreach.shows_of_make horder hr hmake
  obtain rfl := Except.ok.inj (hshows.toList_eq.symm.trans hps)
  obtain ⟨t, hs⟩ := exists_table_of_isFallback hd
  obtain ⟨hroomy, ht⟩ := (hreach.mono fun _ _ _ => trivial).roomy horder hmake hs
  have hsize : t.size = n := by rw [hshows.size_of_table hs, List.length_map, List.length_range]
  have hpositive : 2 ^ 28 ≤ n := hcapacity ▸ le_capacityOf_quadruple (k := 28) hlf (by decide)
  have hb : t.buckets ≠ 0 := by
    obtain ⟨is, hsound⟩ := hroomy.intact
    intro hzero
    have hempty := hsound.unallocated hzero
    omega
  have habsent := hshows.contains_eq_false hrd (next_key_new hkey value n)
  obtain ⟨f, herr⟩ : ∃ f, (d.insert (key n) (value n)).result = .error f :=
    (insert_refused_iff hs hroomy hb).mpr ⟨habsent, by rw [ht, hcapacity, hsize]⟩
  refine ⟨events, d, hreach, hps, ?_⟩
  rcases hshows.insert_refused hs hroomy herr with ⟨hzero | hfull, -⟩ | ⟨-, rfl, hover⟩
  · exact absurd hzero hb
  · omega
  · exact ⟨herr, hover⟩

end Fill

/-- At a load factor of a quarter: with `2 ^ 28` entries the largest table refuses one more and has it nevertheless,
    beyond its capacity and under the same generation. -/
theorem largest_table_keeps_refused_entry :
    ∃ (c d : Container Nat Nat) (events : List Event),
      make { loadFactor := .quarter, maxChain := 18446744073709551615 } .dense ⟨fun _ => 0, ⟨fun _ _ => 0⟩⟩ 0 = .ok c ∧
        c.Reaches Returns events d ∧ (d.insert (2 ^ 28) 0).result = .error .capacityOverflow ∧
          (d.size = 2 ^ 28 ∧ d.capacity? = some (2 ^ 28)) ∧
            ((d.insert (2 ^ 28) 0).state.size = 2 ^ 28 + 1 ∧ (d.insert (2 ^ 28) 0).state.capacity? = some (2 ^ 28)) ∧
              (d.insert (2 ^ 28) 0).state.generation = d.generation ∧ (d.insert (2 ^ 28) 0).state ≠ d := by
  have hr : Hashing.Respects (⟨fun _ => 0, ⟨fun _ _ => 0⟩⟩ : Hashing Nat) := ⟨fun _ => rfl, fun _ _ _ _ => rfl⟩
  have hmake : (make { loadFactor := .quarter, maxChain := 18446744073709551615 } .dense ⟨fun _ => 0, ⟨fun _ _ => 0⟩⟩ 0 :
      Except _ (Container Nat Nat)) = .ok _ := rfl
  have hquarter : ⌊2 ^ 30 * Binary64.quarter.value⌋₊ = 2 ^ 28 := by
    rw [Binary64.value_quarter]
    norm_num
  have hkey : ∀ i j : Nat, (id i == id j) = true → i = j := fun i j => eq_of_beq
  obtain ⟨events, d, hreach, hps, herr, hover⟩ := exists_overfilled .dense hr hmake (by decide)
    (hquarter.trans_lt (by decide)) hkey fun _ => 0
  obtain ⟨-, slots, ps, hshows⟩ := hreach.shows_of_make .dense hr hmake
  have hd : d.size = 2 ^ 28 := by
    rw [hshows.size_eq, Except.ok.inj (hshows.toList_eq.symm.trans hps), List.length_map, List.length_range, ← hquarter]
  rw [hquarter, id_eq] at herr hover
  obtain ⟨t, t', hs, hs', hb, hb', hcapacity, -, hsize⟩ := hover.tables
  have ht : t.capacity = 2 ^ 28 := by
    have hload := ((hreach.mono fun _ _ _ => trivial).roomy .dense hmake hs).2
    rw [Table.capacity, hb, hload, maxBuckets_eq, if_neg (by decide),
      capacityOf_two_pow (Settings.of_check (eq_of_make hmake).1).1 (by decide), hquarter]
  have hd' : (d.insert (2 ^ 28) 0).state.size = 2 ^ 28 + 1 := by
    rw [size, hs] at hd
    rw [size, hs', Store.size, hsize]
    exact congrArg (· + 1) hd
  refine ⟨_, d, events, hmake, hreach, herr, ⟨hd, ?_⟩, ⟨hd', ?_⟩, hover.generation, hover.ne⟩
  · rw [capacity?_of_table hs, ht]
  · rw [capacity?_of_table hs', hcapacity, ht]

end Container

end DenseHash
