import DenseHash.Proofs.Container.SameEntries
import DenseHash.Proofs.Container.Watched
import DenseHash.Proofs.Refusal
import DenseHash.Proofs.Store.Places

/-!
# Maintenance shows nowhere

A request for room and shrinking rebuild all chains, and what was asked of a container before can be asked again with the
same answer. Whatever the history:

* **The entries** are the same, from either end, and every key is found with the same value, even if shrinking moves
  them to the fallback (`ShowsAlike`).
* **The places** are the same as well unless they were moved: the generation, the slot of every key, and what a cursor
  makes of the container (`InPlace`). A request for room never moves them, since it splits chains that were short.
* **A table that was shrunk** has as many buckets as its entries need, and shrinking it again changes nothing.
-/

namespace DenseHash

/-- The table has as few buckets as there can be for its entries: none, if there are no entries. -/
def Table.LeastBuckets {K V : Type} (loadFactor : Binary64) (t : Table K V) : Prop :=
  if t.size = 0 then t.buckets = 0 else IsLeast (sizesFor t.size loadFactor) t.buckets

/-- A proper table that was shrunk. -/
theorem Table.Proper.shrink_leastBuckets {K V : Type} [BEq K] {t : Table K V} (h : t.Proper)
    (hok : t.shrink.result = .ok ()) : t.shrink.state.LeastBuckets t.loadFactor := by
  obtain ⟨is, hs⟩ := h.intact
  rw [LeastBuckets, size_congr hs.shrink_leaves.1.content]
  split
  · rename_i hsize
    rw [shrink_empty hsize]
    rfl
  · rename_i hsize
    exact bucketsFor_isLeast h.isLoad (h.shrink_buckets hsize hok)

namespace Container

section Maintained

variable [Backing] {K V : Type} [BEq K] {c c' d : Container K V} {t t' : Table K V} {is is' : List Nat} {key : K}

/-! ## What is the same -/

/-- Both have the same entries, read from either end, and every lookup of a key gives the same in both. -/
structure ShowsAlike (c c' : Container K V) : Prop where
  size : c'.size = c.size
  iterates : ∃ ps, c.Iterates ps ∧ c'.Iterates ps
  entry : ∀ key, c'.entry? key = c.entry? key
  peek : ∀ key, c'.peek key = c.peek key
  contains : ∀ key, c'.contains key = c.contains key
  get : ∀ key, (c'.get key).result = (c.get key).result

/-- Every slot means the same in both, every key is in the same one, and no cursor notices a difference. -/
structure InPlace (c c' : Container K V) : Prop where
  isFallback : c'.isFallback = c.isFallback
  generation : c'.generation = c.generation
  places : c.store.SamePlaces c'.store
  find : ∀ key, c'.find key = c.find key
  check : ∀ cur : Cursor, cur.check c' = cur.check c
  next : ∀ cur : Cursor, cur.next c' = cur.next c

theorem InPlace.refl (c : Container K V) : c.InPlace c :=
  ⟨rfl, rfl, .refl _, fun _ => rfl, fun _ => rfl, fun _ => rfl⟩

section Alike

variable [EquivBEq K]

/-- A lookup that counts as a use tells what the listing says. -/
theorem Shows.get_result {slots : List Slot} {ps : List (K × V)} (h : c.Shows slots ps) (hr : c.hashing.Respects)
    (key : K) : (c.get key).result = .ok ((Listing.locate? (c.listingOf ps) key).map fun r => r.2.2) := by
  obtain ⟨a, ha, hanswer, -⟩ := h.get_gives hr key
  rw [ha]
  rw [Listing.apply] at hanswer
  cases hfound : Listing.locate? (c.listingOf ps) key <;> rw [hfound] at hanswer <;> cases hanswer <;> rfl

/-- Containers that show the same entries cannot be told apart by reading or looking up. -/
theorem SameEntries.showsAlike (h : c.SameEntries c') : c.ShowsAlike c' := by
  obtain ⟨slots, slots', ps, hshows, hshows'⟩ := h.shows
  have hentry (key : K) : c'.entry? key = c.entry? key := by
    rw [hshows.entry?_eq h.respects, hshows'.entry?_eq h.respects']
    rfl
  refine ⟨h.size, ⟨ps, hshows.iterates, hshows'.iterates⟩, hentry, h.peek, fun key => ?_, fun key => ?_⟩
  · rw [hshows.contains_eq h.respects, hshows'.contains_eq h.respects']
    rfl
  · rw [hshows.get_result h.respects, hshows'.get_result h.respects']
    rfl

/-- Rebuilding the buckets leaves everything in place. -/
theorem inPlace_of_alike (hs : c.store = .table t) (ht : t.Sound is) (ht' : t'.Sound is') (halike : t.Alike t') :
    c.InPlace { c with store := .table t' } := by
  have hplaces : c.store.SamePlaces (.table t') := hs ▸ halike.samePlaces
  have hfind (key : K) : t'.find (c.storedHash key) key = t.find (c.storedHash key) key :=
    ht.find_congr ht' (Table.holds_congr halike.content (c.storedHash key) key)
  refine ⟨?_, rfl, hplaces, fun key => ?_, fun cur => rfl, fun cur => ?_⟩
  · rw [isFallback, isFallback, hs]
    rfl
  · show ((t'.find (c.storedHash key) key : Checked (Option Nat)) >>= fun i => pure (i.map Slot.index)) = c.find key
    rw [hfind, find, hs]
  · rw [Cursor.next, Cursor.next, show cur.check { c with store := .table t' } = cur.check c from rfl]
    simp only [hplaces.next, hplaces.pair]

end Alike

/-! ## Room -/

section Room

variable [EquivBEq K] {limit : Nat}

/-- A request for room rebuilds the buckets at most. -/
theorem Watched.reserve_inPlace (h : c.Watched limit) (more : UInt64) : c.InPlace (c.reserve more).state := by
  cases hs : c.store with
  | fallback f =>
      rw [Container.reserve]
      rw [hs]
      exact .refl c
  | table t =>
      obtain ⟨is, hsound⟩ := (h.table t hs).intact
      obtain ⟨halike, hsound'⟩ := hsound.reserve_leaves more.toNat
      rw [h.reserve_eq hs]
      exact inPlace_of_alike hs hsound hsound' halike

/-- A request for room that is refused leaves everything as it was. -/
theorem Watched.reserve_refused (h : c.Watched limit) {more : UInt64} {f : Fault}
    (herr : (c.reserve more).result = .error f) : (c.reserve more).state = c := by
  cases hs : c.store with
  | fallback f =>
      rw [Container.reserve]
      rw [hs]
  | table t => exact Container.reserve_refused hs (h.table t hs).toRoomy herr

end Room

/-! ## Shrinking -/

/-- What shrinking can do to a container. -/
inductive Shrinks (c : Container K V) : Reply (Container K V) Unit → Prop where
  /-- A fallback has no buckets. -/
  | fallback (hc : c.isFallback = true) : Shrinks c (.ok c ())
  /-- There are more entries than any table has room for. -/
  | refused {t : Table K V} (hs : c.store = .table t) {f : Fault} (refused : t.shrink.result = .error f)
      (events : List Event) : Shrinks c ⟨c, events, .error f⟩
  /-- The entries stay, and the chains are short enough. -/
  | rebuilt {t : Table K V} (hs : c.store = .table t) (returned : t.shrink.result = .ok ())
      (short : t.shrink.state.peak ≤ c.maxChain) (events : List Event) :
      Shrinks c ⟨{ c with store := .table t.shrink.state }, events, .ok ()⟩
  /-- A chain has become too long. -/
  | moved {t : Table K V} (hs : c.store = .table t) (returned : t.shrink.result = .ok ()) {c' : Container K V}
      (moved : c'.isFallback = true) (events : List Event) : Shrinks c ⟨c', events, .ok ()⟩

/-- Shrinking a container with a proper table, or with none, can do nothing else. -/
theorem OnTable.shrinks [EquivBEq K] (h : c.OnTable Table.Proper) : c.Shrinks c.shrink := by
  rw [shrink]
  cases hs : c.store with
  | fallback f =>
      refine .fallback ?_
      rw [isFallback, hs]
      rfl
  | table t =>
      obtain ⟨is, hsound⟩ := (h t hs).intact
      dsimp only
      cases hresult : t.shrink.result with
      | error f =>
          rw [Reply.within_andThen_of_error hresult, Table.shrink_of_error hresult, ← hs]
          exact .refused hs hresult _
      | ok u =>
          let c₁ : Container K V := { c with store := .table t.shrink.state }
          have hok : (t.shrink.within fun t => ({ c with store := .table t } : Container K V)).result = .ok u := hresult
          have hintact : t.shrink.state.Intact := ⟨is, hsound.shrink_leaves.2⟩
          rw [Reply.andThen_of_ok hok]
          show c.Shrinks (c₁.inspect.after _)
          rw [inspect_eq (c := c₁) rfl hintact]
          split
          · obtain ⟨f, -, hf, -⟩ := flood_eq (c := c₁) rfl hintact t.shrink.state.peak
            rw [hf]
            exact .moved hs hresult rfl _
          · rename_i hshort
            exact .rebuilt hs hresult (Nat.not_lt.mp hshort) _

namespace Shrinks

variable {r : Reply (Container K V) Unit}

omit [BEq K] in
/-- A refusal changes nothing. -/
theorem refused_state (h : c.Shrinks r) {f : Fault} (herr : r.result = .error f) : r.state = c := by
  cases h with
  | refused hs hrefused events => rfl
  | fallback hc => cases herr
  | rebuilt hs hok hshort events => cases herr
  | moved hs hok hmoved events => cases herr

/-- Without the move to the fallback, everything stays in place. -/
theorem inPlace [EquivBEq K] (h : c.Shrinks r) (hc : c.OnTable Table.Proper)
    (hkind : r.state.isFallback = c.isFallback) :
    c.InPlace r.state := by
  cases h with
  | fallback hc => exact .refl c
  | refused hs hrefused events => exact .refl c
  | rebuilt hs hok hshort events =>
      obtain ⟨is, hsound⟩ := (hc _ hs).intact
      obtain ⟨halike, hsound'⟩ := hsound.shrink_leaves
      exact inPlace_of_alike hs hsound hsound' halike
  | moved hs hok hmoved events =>
      rw [isFallback, isFallback, hs] at hkind
      cases hkind.symm.trans hmoved

/-- It returns unless there are more entries than any table has room for. -/
theorem isOk_iff (h : c.Shrinks r) (hc : c.OnTable Table.Proper) {loadFactor : Binary64}
    (hlf : ∀ t, c.store = .table t → t.loadFactor = loadFactor) :
    r.result = .ok () ↔ c.isFallback = true ∨ c.size ≤ capacityOf maxBuckets loadFactor := by
  have hroom {t : Table K V} (hs : c.store = .table t) :
      t.shrink.result = .ok () ↔ c.size ≤ capacityOf maxBuckets loadFactor := by
    rw [(hc t hs).shrink_isOk_iff, hlf t hs, size, hs]
    rfl
  cases h with
  | fallback hf => exact iff_of_true rfl (.inl hf)
  | rebuilt hs hok hshort events => exact iff_of_true rfl (.inr ((hroom hs).mp hok))
  | moved hs hok hmoved events => exact iff_of_true rfl (.inr ((hroom hs).mp hok))
  | refused hs hrefused events =>
      refine iff_of_false (fun hok => by cases hok) ?_
      rintro (hf | hle)
      · rw [isFallback, hs] at hf
        cases hf
      · cases hrefused.symm.trans ((hroom hs).mpr hle)

/-- A table that comes out of it has as few buckets as there can be. -/
theorem leastBuckets (h : c.Shrinks r) (hc : c.OnTable Table.Proper) (hok : r.result = .ok ())
    (hs' : r.state.store = .table t') : ∃ t, c.store = .table t ∧ t'.LeastBuckets t.loadFactor := by
  cases h with
  | fallback hf =>
      rw [isFallback, show c.store = .table t' from hs'] at hf
      cases hf
  | refused hs hrefused events => cases hok
  | rebuilt hs hreturned hshort events =>
      obtain rfl := Store.table.inj hs'
      exact ⟨_, hs, (hc _ hs).shrink_leastBuckets hreturned⟩
  | moved hs hreturned hmoved events =>
      rw [isFallback, hs'] at hmoved
      cases hmoved

/-- Shrinking once more gives the same result and changes nothing. -/
theorem shrink_state (h : c.Shrinks r) (hc : c.OnTable Table.Proper) (hr : r = c.shrink) :
    r.state.shrink.result = r.result ∧ r.state.shrink.state = r.state := by
  have hnothing {c : Container K V} (hc : c.isFallback = true) : c.shrink = .ok c () := by
    obtain ⟨f, hs⟩ := exists_fallback_of_isFallback hc
    rw [shrink]
    rw [hs]
  cases h with
  | fallback hf => exact ⟨congrArg Reply.result hr.symm, congrArg Reply.state hr.symm⟩
  | refused hs hrefused events => exact ⟨congrArg Reply.result hr.symm, congrArg Reply.state hr.symm⟩
  | @rebuilt t hs hok hshort events =>
      have hproper := hc t hs
      let c₁ : Container K V := { c with store := .table t.shrink.state }
      have hagain : (t.shrink.state.shrink.within fun t => ({ c₁ with store := .table t } : Container K V)) =
          ⟨c₁, [.shrunk t.shrink.state.buckets t.size], .ok ()⟩ := by
        rw [hproper.shrink_shrink hok]
        rfl
      -- the chains were measured before, and they are the same
      have hinspect : c₁.inspect = .ok c₁ () := by
        rw [inspect_eq (c := c₁) rfl hproper.shrink.intact, if_neg (Nat.not_lt.mpr hshort)]
      show c₁.shrink.result = _ ∧ c₁.shrink.state = c₁
      rw [shrink]
      dsimp only [c₁]
      rw [hagain]
      show (Reply.after _ c₁.inspect).result = _ ∧ (Reply.after _ c₁.inspect).state = c₁
      rw [hinspect]
      exact ⟨rfl, rfl⟩
  | moved hs hok hmoved events =>
      dsimp only
      rw [hnothing hmoved]
      exact ⟨rfl, rfl⟩

end Shrinks

/-! ## Any history -/

section Reached

variable [EquivBEq K] {settings : Settings} {order : Order} {hashing : Hashing K} {owner : OwnerId}
  {events : List Event}
  {slots : List Slot} {ps : List (K × V)} {n : Nat}

omit [EquivBEq K] in
/-- A new container is watched. -/
theorem watched_of_make (horder : order.Fresh) (hmake : make settings order hashing owner = .ok c) :
    c.Watched settings.maxChain.toNat := by
  have hroomy := roomy_of_make horder hmake
  obtain ⟨-, rfl⟩ := eq_of_make hmake
  refine ⟨rfl, fun t ht => ?_⟩
  obtain rfl := Store.table.inj ht
  exact ⟨⟨hroomy _ rfl, fun hb => absurd rfl hb⟩, fun _ b => Nat.zero_le _⟩

omit [EquivBEq K] in
/-- What shows the same entries afterwards. -/
theorem Becomes.sameEntries (h : c.Becomes n slots ps c') (hshows : c.Shows slots ps) (hr : c.hashing.Respects) :
    c.SameEntries c' := by
  obtain ⟨slots', hshows', hev⟩ := h
  exact ⟨hr, hev.hashing ▸ hr, slots, slots', ps, hshows, hshows'⟩

/-- An operation that shows the same entries if it returns, and changes nothing if it does not, cannot be noticed. -/
theorem Shows.showsAlike {r : Reply (Container K V) Unit} (h : c.Shows slots ps) (hr : c.hashing.Respects)
    (hmeets : r.Meets fun _ c' => c.Becomes 0 slots ps c') (hrefused : ∀ f, r.result = .error f → r.state = c) :
    c.ShowsAlike r.state := by
  cases hresult : r.result with
  | ok u => exact ((hmeets.of_ok hresult).sameEntries h hr).showsAlike
  | error f =>
      rw [hrefused f hresult]
      exact (h.becomes_self.sameEntries h hr).showsAlike

/-- Nobody can tell that room was asked for, and nobody can tell that a container was shrunk if its entries have not
    moved. This holds for every kind of container and every history, whatever was refused in it. A refused call changes
    nothing; a table that was shrunk has as few buckets as there can be, and shrinking again changes nothing. -/
theorem maintenance_is_invisible (horder : order.Fresh) (hr : hashing.Respects)
    (hmake : make settings order hashing owner = .ok c) (hreach : c.Reaches Any events d) :
    (∀ more, d.ShowsAlike (d.reserve more).state ∧ d.InPlace (d.reserve more).state ∧
        ∀ f, (d.reserve more).result = .error f → (d.reserve more).state = d) ∧
      (d.ShowsAlike d.shrink.state ∧ (d.shrink.state.isFallback = d.isFallback → d.InPlace d.shrink.state) ∧
        ∀ f, d.shrink.result = .error f → d.shrink.state = d) ∧
        (d.shrink.result = .ok () ↔ d.isFallback = true ∨ d.size ≤ ⌊2 ^ 30 * settings.loadFactor.value⌋₊) ∧
          (d.shrink.result = .ok () → ∀ t, d.shrink.state.store = .table t → t.LeastBuckets settings.loadFactor) ∧
            d.shrink.state.shrink.result = d.shrink.result ∧ d.shrink.state.shrink.state = d.shrink.state := by
  obtain ⟨hhashing, slots, ps, hshows⟩ := hreach.exists_shows horder hmake
  have hrd : d.hashing.Respects := hhashing ▸ hr
  have hwatched : d.Watched settings.maxChain.toNat := hreach.watched (watched_of_make horder hmake)
  have hproper : d.OnTable Table.Proper := fun t ht => (hwatched.table t ht).toProper
  have hlf (t : Table K V) (ht : d.store = .table t) : t.loadFactor = settings.loadFactor :=
    (hreach.roomy horder hmake ht).2
  have hbound : capacityOf maxBuckets settings.loadFactor = ⌊2 ^ 30 * settings.loadFactor.value⌋₊ :=
    capacityOf_two_pow (k := 30) (Settings.of_check (eq_of_make hmake).1).1 (by decide)
  have hshrinks := hproper.shrinks
  refine ⟨fun more => ?_, ⟨?_, hshrinks.inPlace hproper, fun f => hshrinks.refused_state⟩, ?_, ?_,
    hshrinks.shrink_state hproper rfl⟩
  · exact ⟨hshows.showsAlike hrd (hshows.reserve_meets hrd more) fun f => hwatched.reserve_refused,
      hwatched.reserve_inPlace more, fun f => hwatched.reserve_refused⟩
  · exact hshows.showsAlike hrd (hshows.shrink_meets hrd) fun f => hshrinks.refused_state
  · rw [← hbound]
    exact hshrinks.isOk_iff hproper hlf
  · intro hok t' hs'
    obtain ⟨t, hs, hleast⟩ := hshrinks.leastBuckets hproper hok hs'
    exact hlf t hs ▸ hleast

end Reached

end Maintained

/-- A table with one entry that was to have room for twelve. Shrinking leaves four of its sixteen buckets, and the entry
    where it is. -/
theorem maintenance_is_invisible_wide :
    ∃ (c d : Container Nat Nat) (t t' : Table Nat Nat),
      make { expectedSize := 12 } .dense ⟨fun _ => 0, ⟨fun _ _ => 0⟩⟩ 0 = .ok c ∧ c.Reaches Any [] d ∧
        d.store = .table t ∧ t.buckets = 16 ∧ d.shrink.result = .ok () ∧ d.shrink.state.store = .table t' ∧
          t'.LeastBuckets .threeQuarters ∧ t'.buckets = 4 ∧ d.shrink.state.isFallback = d.isFallback ∧
            d.InPlace d.shrink.state ∧ d.InPlace (d.reserve 13).state := by
  have hr : Hashing.Respects (⟨fun _ => 0, ⟨fun _ _ => 0⟩⟩ : Hashing Nat) := ⟨fun _ => rfl, fun _ _ _ _ => rfl⟩
  have hmake : (make { expectedSize := 12 } .dense ⟨fun _ => 0, ⟨fun _ _ => 0⟩⟩ 0 :
      Except _ (Container Nat Nat)) = .ok _ := rfl
  have hreach : ((⟨⟨fun _ => 0, ⟨fun _ _ => 0⟩⟩, .table (.empty .dense .threeQuarters 12), 9, 0, 0⟩ :
      Container Nat Nat)).Reaches Any [] _ := .apply .start (.insert 1 10) trivial
  obtain ⟨hreserve, ⟨-, hplaces, -⟩, -, hleast, -⟩ := maintenance_is_invisible .dense hr hmake hreach
  exact ⟨_, _, _, _, hmake, hreach, rfl, rfl, rfl, rfl, hleast rfl _ rfl, rfl, rfl, hplaces rfl, (hreserve 13).2.1⟩

end Container

end DenseHash
