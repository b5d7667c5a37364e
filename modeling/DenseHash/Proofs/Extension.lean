import DenseHash.Proofs.Lookup
import DenseHash.Proofs.Maintenance

/-!
# Inserting many at once

Pairs can be inserted one after the other, or all at once with a hint for their number. The hint decides how many buckets
there are to begin with, and with that when the table grows, how long its chains become, and whether and when the flood
guard moves the entries. None of this shows in what is left:

* **`Container.run_inserts`:** inserting all at once is inserting one by one, with room made before and chains measured
  after.
* **`Lookup.settled`:** a key has the form that was stored first and the value that was given last.
-/

namespace DenseHash

variable {K V : Type}

/-- The operations that insert pairs one by one. -/
def Operation.inserts (pairs : List (K × V)) : List (Operation K V) := pairs.map fun p => .insert p.1 p.2

/-! ## What a key has in the end -/

namespace Lookup

variable [BEq K]

/-- What a map becomes by pairs that are inserted one after the other. A key that none of them has keeps its entry; any
    other key has its stored form, or that of the first pair with this key, and the value of the last one. -/
def settled (pairs : List (K × V)) (m : Lookup K V) : Lookup K V := fun key =>
  match pairs.filter fun p => p.1 == key with
  | [] => m key
  | p :: ps => some (((m key).map Prod.fst).getD p.1, (ps.getLast?.getD p).2)

variable [EquivBEq K] {m : Lookup K V} {key : K} {value : V}

/-- A map that does not tell equal keys apart does not do so after an insertion. -/
theorem insert_congr (hm : ∀ {k k' : K}, (k == k') = true → m k = m k') (key : K) (value : V) {k k' : K}
    (h : (k == k') = true) : insert key value m k = insert key value m k' := by
  rw [insert, insert, BEq.congr_right h, hm h]

/-- Insertions one after the other, seen from each key. -/
theorem foldl_insert_eq_settled (hm : ∀ {k k' : K}, (k == k') = true → m k = m k') (pairs : List (K × V)) :
    pairs.foldl (fun m (key, value) => insert key value m) m = settled pairs m := by
  induction pairs generalizing m with
  | nil => rfl
  | cons p pairs ih =>
      obtain ⟨key, value⟩ := p
      refine (ih (m := insert key value m) (insert_congr hm key value)).trans (funext fun k => ?_)
      rw [settled, settled]
      cases hk : key == k with
      | false =>
          -- the first pair is about another key
          have hfilter : ((key, value) :: pairs).filter (fun p => p.1 == k) = pairs.filter fun p => p.1 == k :=
            List.filter_cons_of_neg (Bool.eq_false_iff.mp hk)
          rw [hfilter, show insert key value m k = m k by rw [insert, hk]; rfl]
      | true =>
          have hfilter : ((key, value) :: pairs).filter (fun p => p.1 == k) =
              (key, value) :: pairs.filter fun p => p.1 == k := List.filter_cons_of_pos hk
          rw [hfilter, show insert key value m k = some (((m key).map Prod.fst).getD key, value) by rw [insert, hk]; rfl,
            hm hk]
          cases hrest : pairs.filter fun p => p.1 == k with
          | nil => rfl
          | cons q qs =>
              dsimp only
              rw [List.getLast?_cons]
              rfl

end Lookup

/-! ## Containers -/

namespace Container

section Repeated

variable [Backing] [BEq K] {c d : Container K V} {slots : List Slot} {ps : List (K × V)}

/-- Inserting one by one, with the answers left out. -/
theorem run_inserts (c : Container K V) (pairs : List (K × V)) :
    (c.run (Operation.inserts pairs)).map (fun _ => ()) =
      Reply.forEach (fun (key, value) c => (c.insert key value).map fun _ => ()) pairs c := by
  induction pairs generalizing c with
  | nil => rfl
  | cons p pairs ih =>
      obtain ⟨key, value⟩ := p
      rw [Reply.forEach]
      show (Reply.andThen ((c.insert key value).map Answer.value) _).map _ =
        Reply.andThen ((c.insert key value).map fun _ => ()) _
      generalize c.insert key value = r
      obtain ⟨s, events, result⟩ := r
      cases result with
      | error f => rfl
      | ok old =>
          show (((s.run (Operation.inserts pairs)).map (Answer.value old :: ·)).after events).map (fun _ => ()) =
            (Reply.forEach _ pairs s).after events
          rw [← ih]
          exact congrArg (Reply.after events) (Reply.map_map _ _ _)

/-- Containers that come from the same one and show the same entries. -/
theorem Becomes.sameEntries_of {n n' : Nat} {c₁ c₂ : Container K V} (h : c.Becomes n slots ps c₁)
    (h' : c.Becomes n' slots ps c₂) (hr : c.hashing.Respects) : c₁.SameEntries c₂ := by
  obtain ⟨slots₁, hshows₁, hev₁⟩ := h
  obtain ⟨slots₂, hshows₂, hev₂⟩ := h'
  exact ⟨hev₁.hashing ▸ hr, hev₂.hashing ▸ hr, slots₁, slots₂, ps, hshows₁, hshows₂⟩

variable [EquivBEq K]

/-- Insertions one after the other, as a run of operations, leave what they leave in the list of entries. -/
theorem Shows.run_inserts_meets (h : c.Shows slots ps) (hr : c.hashing.Respects) (pairs : List (K × V)) :
    (c.run (Operation.inserts pairs)).Meets fun _ c' =>
      c.Becomes (Listing.extendChanges pairs (c.listingOf ps)) slots
        (Listing.insertAll pairs (c.listingOf ps)).pairs c' := by
  have hall := h.forEach_insert_meets hr pairs
  rw [← run_inserts] at hall
  cases hresult : (c.run (Operation.inserts pairs)).result with
  | ok answers => exact .mk_ok hresult (hall.of_ok (a := ()) (by rw [Reply.map_result, hresult]; rfl))
  | error f => exact .mk_error hresult (hall.of_error (by rw [Reply.map_result, hresult]; rfl))

/-- What a key has after pairs were inserted. -/
theorem Shows.entry?_insertAll (h : c.Shows slots ps) (hr : c.hashing.Respects) {pairs : List (K × V)} {n : Nat}
    (hd : d.hashing.Respects) (hbecomes : c.Becomes n slots (Listing.insertAll pairs (c.listingOf ps)).pairs d)
    (key : K) : d.entry? key = .ok (Lookup.settled pairs (Lookup.ofPairs ps) key) := by
  obtain ⟨slots', hshows', -⟩ := hbecomes
  have htracks := Lookup.tracks_insertAll pairs (l := c.listingOf ps) (h.distinctKeys hr)
  rw [hshows'.entry?_eq hd]
  refine congrArg Except.ok ?_
  rw [← Lookup.foldl_insert_eq_settled (m := Lookup.ofPairs ps) (Lookup.ofPairs_congr ps)]
  exact congrFun htracks.pairs key

variable {settings : Settings} {order : Order} {hashing : Hashing K} {owner : OwnerId} {events : List Event}

/-- Whatever the history of a container, pairs that are inserted all at once leave what they leave when they are inserted
    one by one, and so the hint does not show. A key has the form that was stored first and the value that was given
    last. This holds wherever the flood guard steps in. -/
theorem extend_is_repeated_insert (horder : order.Fresh) (hr : hashing.Respects)
    (hmake : make settings order hashing owner = .ok c) (hreach : c.Reaches Any events d) (pairs : List (K × V)) :
    (∀ hint answers, (d.extend hint pairs).result = .ok () → (d.run (Operation.inserts pairs)).result = .ok answers →
        (d.run (Operation.inserts pairs)).state.ShowsAlike (d.extend hint pairs).state) ∧
      (∀ hint hint', (d.extend hint pairs).result = .ok () → (d.extend hint' pairs).result = .ok () →
        (d.extend hint pairs).state.ShowsAlike (d.extend hint' pairs).state) ∧
      (∃ m : Lookup K V, (∀ key, d.entry? key = .ok (m key)) ∧
        ∀ hint, (d.extend hint pairs).result = .ok () →
          ∀ key, (d.extend hint pairs).state.entry? key = .ok (m.settled pairs key)) ∧
      ∀ hint f, (d.extend hint pairs).result = .error f → f.IsLimit := by
  obtain ⟨hhashing, slots, ps, hshows⟩ := hreach.exists_shows horder hmake
  have hrd : d.hashing.Respects := hhashing ▸ hr
  have hextend (hint : UInt64) (hok : (d.extend hint pairs).result = .ok ()) :=
    (hshows.extend_meets hrd hint pairs).of_ok hok
  refine ⟨fun hint answers hok hok' => ?_, fun hint hint' hok hok' => ?_, ⟨Lookup.ofPairs ps, fun key => ?_, ?_⟩,
    fun hint f => (hshows.extend_meets hrd hint pairs).of_error⟩
  · exact (((hshows.run_inserts_meets hrd pairs).of_ok hok').sameEntries_of (hextend hint hok) hrd).showsAlike
  · exact ((hextend hint hok).sameEntries_of (hextend hint' hok') hrd).showsAlike
  · exact hshows.entry?_eq hrd key
  · intro hint hok key
    obtain ⟨slots', hshows', hev⟩ := hextend hint hok
    exact hshows.entry?_insertAll hrd (hev.hashing ▸ hrd) ⟨slots', hshows', hev⟩ key

end Repeated

/-- Two keys that collide among four buckets and not among thirty-two. Without a hint they make the flood guard step in,
    as they do one by one; with a hint that is too large they do not. -/
theorem extend_is_repeated_insert_colliding :
    ∃ (c d : Container Nat Nat) (pairs : List (Nat × Nat)),
      make { maxChain := 1 } (.ofMode true) ⟨fun k => k.toUInt64, ⟨fun _ k => k.toUInt64⟩⟩ 0 = .ok c ∧
        c.Reaches Any [] d ∧ d.toList = .ok [(2, 20)] ∧ pairs = [(0, 1), (4, 2), (2, 3), (0, 4)] ∧
        (d.run (Operation.inserts pairs)).result = .ok [.value none, .value none, .value (some 20), .value (some 1)] ∧
        (d.run (Operation.inserts pairs)).state.isFallback = true ∧ (d.extend 0 pairs).state.isFallback = true ∧
        (d.extend 24 pairs).state.isFallback = false ∧
        (d.run (Operation.inserts pairs)).state.ShowsAlike (d.extend 24 pairs).state ∧
        (d.extend 0 pairs).state.ShowsAlike (d.extend 24 pairs).state ∧
        (d.extend 24 pairs).state.toList = .ok [(4, 2), (2, 3), (0, 4)] := by
  have hr : Hashing.Respects (⟨fun k => k.toUInt64, ⟨fun _ k => k.toUInt64⟩⟩ : Hashing Nat) :=
    ⟨fun h => by rw [eq_of_beq h], fun _ _ _ h => by rw [eq_of_beq h]⟩
  have hmake : (make { maxChain := 1 } (.ofMode true) ⟨fun k => k.toUInt64, ⟨fun _ k => k.toUInt64⟩⟩ 0 :
      Except _ (Container Nat Nat)) = .ok _ := rfl
  have hreach : (⟨⟨fun k => k.toUInt64, ⟨fun _ k => k.toUInt64⟩⟩, .table (.empty (.ofMode true) .threeQuarters 0), 1,
      0, 0⟩ : Container Nat Nat).Reaches Any [] _ := .apply .start (.insert 2 20) trivial
  obtain ⟨hrun, hhints, -⟩ := extend_is_repeated_insert (.linked true) hr hmake hreach [(0, 1), (4, 2), (2, 3), (0, 4)]
  have hone := hrun 24 [.value none, .value none, .value (some 20), .value (some 1)] (by decide +kernel)
    (by decide +kernel)
  have htwo := hhints 0 24 (by decide +kernel) (by decide +kernel)
  exact ⟨_, _, _, hmake, hreach, rfl, rfl, by decide +kernel, by decide +kernel, by decide +kernel, by decide +kernel,
    hone, htwo, by decide +kernel⟩

end Container

end DenseHash
