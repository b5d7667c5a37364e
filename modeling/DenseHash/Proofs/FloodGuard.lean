import DenseHash.Proofs.Container.Stored

/-!
# The law of the flood guard

A container of any kind is made with settings that are accepted and goes through any operations that return, removals
through cursors and copies. `FloodLaw` says what the guard sees to on the way:

* **Chains.** As long as the entries are in a table, no chain is longer than the limit.
* **The switch.** An operation moves the entries to the fallback if and only if `alarm?` says so, from the state before
  the operation. It then logs the one warning of the alarm; no other operation logs a warning.
* **The order.** The entries are afterwards what the operation makes of them without a switch.
* **For good.** A fallback stays a fallback, and there is at most one warning for a container.
-/

namespace DenseHash

namespace Container

section Flooding

variable [Backing] {K V : Type} [BEq K]

/-- What holds of a container that operations have led to, which logged these events, and of the next operation. -/
structure FloodLaw (limit : Nat) (hashing : Hashing K) (events : List Event) (c : Container K V) : Prop where
  maxChain : c.maxChain = limit
  short : ∀ {t}, c.store = .table t → ∃ n, t.longestChain = .ok n ∧ n ≤ limit
  /-- The loads that an alarm compares with the limit are lengths of chains. -/
  loads : ∀ {t}, c.store = .table t → (∀ b < t.buckets, ∃ is, t.chain b = .ok is ∧ is.length = t.load b) ∧
    t.shrink.state.longestChain = .ok t.shrink.state.peak
  switches : ∀ {op a}, (c.apply op).result = .ok a →
    (c.apply op).state.isFallback = (c.isFallback || (c.alarm? op).isSome)
  warns : ∀ {op a}, (c.apply op).result = .ok a → warnings (c.apply op).events = (c.alarm? op).toList
  cursors : ∀ cur : Cursor, (cur.remove c).state.1.isFallback = c.isFallback ∧ (cur.remove c).events = []
  once : (warnings events).length = c.isFallback.toNat
  stays : ∀ {events' c'}, c.isFallback = true → c.Reaches Any events' c' →
    c'.isFallback = true ∧ warnings events' = []
  traversal : hashing.Respects → ∀ {op a}, (c.apply op).result = .ok a →
    ∃ l, c.listing = .ok l ∧ (c.apply op).state.toList = .ok (l.apply op).2.pairs

variable {settings : Settings} {order : Order} {hashing : Hashing K} {owner : OwnerId} {c d : Container K V}
  {events : List Event}

/-- A container that was just made is guarded: it has no chains. -/
theorem guarded_of_make (horder : order.Fresh) (hmake : make settings order hashing owner = .ok c) : c.Guarded := by
  obtain ⟨hcheck, rfl⟩ := eq_of_make hmake
  exact guarded_table rfl
    ⟨⟨[], Table.sound_empty horder.lists _ _⟩, (Settings.of_check hcheck).1, fun b => Nat.zero_le _⟩

/-- The longest chain of a guarded table is within the limit. -/
theorem Guarded.longestChain (h : c.Guarded) {t : Table K V} (hs : c.store = .table t) :
    ∃ n, t.longestChain = .ok n ∧ n ≤ c.maxChain := by
  obtain ⟨⟨is, hsound⟩, -, hshort⟩ := h t hs
  exact ⟨t.peak, hsound.longestChain_eq_peak, hsound.peak_le_iff.mpr hshort⟩

/-- Each chain is as long as the load of its bucket says, and after shrinking the longest one is the peak. -/
theorem Guarded.loads (h : c.Guarded) {t : Table K V} (hs : c.store = .table t) :
    (∀ b < t.buckets, ∃ is, t.chain b = .ok is ∧ is.length = t.load b) ∧
      t.shrink.state.longestChain = .ok t.shrink.state.peak := by
  obtain ⟨is, hsound⟩ := (h t hs).intact
  obtain ⟨chains, hch⟩ := hsound.chained
  exact ⟨fun b hb => ⟨chains b, hch.chain_eq hb, hch.length_eq_load hb⟩,
    Table.Sound.longestChain_eq_peak hsound.shrink_leaves.2⟩

/-- The flood guard, over every run of operations that return, for every kind of container, every hash function and
    all settings that are accepted. That the order of the entries survives the switch asks of the hash functions what
    is asked of them anyway: equal keys have equal hashes. -/
theorem flood_guard_law [EquivBEq K] (horder : order.Fresh) (hmake : make settings order hashing owner = .ok c)
    (hreach : c.Reaches Returns events d) : d.FloodLaw settings.maxChain.toNat hashing events := by
  have hc := guarded_of_make horder hmake
  obtain ⟨slots, ps, hshows⟩ : ∃ slots ps, c.Shows slots ps := ⟨[], [], shows_of_make horder hmake⟩
  obtain ⟨-, rfl⟩ := eq_of_make hmake
  obtain ⟨hmax, hguarded, hwarned⟩ := hreach.guarded hc rfl
  replace hmax : d.maxChain = settings.maxChain.toNat := hmax
  refine ⟨hmax, fun hs => hmax ▸ hguarded.longestChain hs, hguarded.loads, fun hok => ?_, fun hok => ?_,
    fun cur => ?_, hwarned, fun hf hreach' => ?_, fun hr op a hok => ?_⟩
  · exact (apply_warnsExactly hguarded hok).isFallback
  · exact (apply_warnsExactly hguarded hok).warnings
  · have hform := cursor_remove_keepsForm hguarded.intact cur
    exact ⟨hform.form.isFallback, hform.events⟩
  · obtain ⟨f, hf⟩ := exists_fallback_of_isFallback hf
    obtain ⟨⟨f', hf'⟩, hnoWarning⟩ := hreach'.fallback hf
    exact ⟨by rw [isFallback, hf']; rfl, hnoWarning⟩
  · obtain ⟨hhashing, hstored⟩ := hreach.stored ⟨slots, hshows.sound⟩
    obtain ⟨slots', ps', hshows'⟩ := hstored.shows
    obtain ⟨-, slots'', hshows'', -⟩ := (hshows'.apply_meets (hhashing ▸ hr) op).of_ok hok
    exact ⟨_, hshows'.listing_eq, hshows''.toList_eq⟩

end Flooding

/-- Three keys that collide, two of which are let pass. -/
theorem flood_guard_law_colliding :
    ∃ c d : Container Nat Nat,
      make { maxChain := 2 } .dense ⟨fun _ => 0, ⟨fun _ _ => 0⟩⟩ 0 = .ok c ∧
        c.Reaches Returns [.flooded 3 2 3] d ∧ d.isFallback = true ∧ d.toList = .ok [(1, 10), (2, 20), (3, 30)] ∧
          d.FloodLaw 2 ⟨fun _ => 0, ⟨fun _ _ => 0⟩⟩ [.flooded 3 2 3] := by
  have hreach : ((⟨⟨fun _ => 0, ⟨fun _ _ => 0⟩⟩, .table (.empty .dense .threeQuarters 0), 2, 0, 0⟩ :
      Container Nat Nat)).Reaches Returns [.flooded 3 2 3] _ :=
    .apply (.apply (.apply .start (.insert 1 10) ⟨.value none, rfl⟩) (.insert 2 20) ⟨.value none, rfl⟩)
      (.insert 3 30) ⟨.value none, rfl⟩
  have hmake : (make { maxChain := 2 } .dense ⟨fun _ => 0, ⟨fun _ _ => 0⟩⟩ 0 : Except _ (Container Nat Nat)) = .ok _ := rfl
  exact ⟨_, _, rfl, hreach, rfl, rfl, flood_guard_law .dense hmake hreach⟩

end Container

end DenseHash
