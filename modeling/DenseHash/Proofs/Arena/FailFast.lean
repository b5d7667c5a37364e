import DenseHash.Limits
import DenseHash.Proofs.Arena.Sound

/-!
# Cursors fail fast

However steps of an arena are interleaved, a cursor can be in one of three situations when it is given a container.

* **Another container** is refused, and nothing changes.
* **Nothing was missed:** the cursor is as good as a position in the list of entries.
* **Something was missed:** the step is refused, and so is every later one, in the same words.

The generation is a 64-bit word, so a cursor that misses a multiple of `2 ^ 64` changes between two of its steps
does not notice. No other change goes unnoticed.
-/

namespace DenseHash

variable {K V : Type}

namespace Watched

variable [Backing]

/-- The cursor does what a position in a list would. -/
structure Exact (w : Watched K) (c : Container K V) (l : Listing K V) : Prop where
  within : w.position ≤ l.pairs.length
  hasNext : w.cursor.hasNext = decide (w.position < l.pairs.length)
  next_some : ∀ p, l.pairs[w.position]? = some p → ∃ cur, w.cursor.next c = .ok (.ok p, cur)
  next_none : l.pairs[w.position]? = none → w.cursor.next c = .ok (.error .exhausted, w.cursor)
  remove_some : ∀ key, w.last = some key → ∃ k value, w.position = k + 1 ∧ l.pairs[k]? = some (key, value) ∧
    (w.cursor.remove c).result = .ok (.ok (key, value)) ∧
      (w.cursor.remove c).state.1.listing = .ok (l.removeAt k)
  remove_none : w.last = none → w.cursor.remove c = .ok (c, w.cursor) (.error .noCurrent)

/-- The cursor's steps are refused, and it will not forget why. -/
structure Refused (w : Watched K) (c : Container K V) (e : CursorError) : Prop where
  next : w.cursor.next c = .ok (.error e, { w.cursor with poison := some e })
  remove : w.cursor.remove c = .ok (c, { w.cursor with poison := some e }) (.error e)
  repeats : ∀ e', w.cursor.poison = some e' → e' = e
  change : ∃ expected found, expected ≠ found ∧ e = .modified expected found ∧
    (w.cursor.poison = none → expected = w.cursor.expected ∧ found = c.generation)

variable {w : Watched K} {c : Container K V} {slots as bs : List Slot} {ps : List (K × V)}

/-! ## Something was missed -/

/-- A generation that came round shows no change. -/
theorem Fits.generation_eq_iff (h : w.Fits c) (hpoison : w.cursor.poison = none) :
    c.generation = w.cursor.expected ↔ w.missed % wordValues = 0 := by
  rw [h.generation hpoison]
  exact Container.add_ofNat_eq_self_iff

/-- A cursor that shows a change is refused, and stays refused. -/
theorem Fits.refused (h : w.Fits c) (hmissed : w.missed % wordValues ≠ 0 ∨ w.cursor.poison.isSome = true) :
    ∃ e, w.Refused c e := by
  cases hpoison : w.cursor.poison with
  | some e =>
      obtain ⟨-, expected, found, hne, he⟩ := h.poison e hpoison
      have hcheck := Cursor.check_poisoned h.owner hpoison
      have hself : { w.cursor with poison := some e } = w.cursor := by rw [← hpoison]
      refine ⟨e, ?_, ?_, fun e' he' => ?_, expected, found, hne, he, fun hnone => ?_⟩
      · rw [hself, Cursor.next_refused hcheck]
      · rw [hself, Cursor.remove_refused hcheck]
      · exact Option.some.inj (he'.symm.trans hpoison)
      · exact absurd (hpoison.symm.trans hnone) (Option.some_ne_none e)
  | none =>
      have hstale : c.generation ≠ w.cursor.expected := by
        intro hgen
        rcases hmissed with hmissed | hmissed
        · exact hmissed ((h.generation_eq_iff hpoison).mp hgen)
        · rw [hpoison] at hmissed
          exact Bool.false_ne_true hmissed
      have hcheck := Cursor.check_stale h.owner hpoison hstale
      refine ⟨.modified w.cursor.expected c.generation, Cursor.next_refused hcheck, Cursor.remove_refused hcheck,
        fun e' he' => ?_, w.cursor.expected, c.generation, Ne.symm hstale, rfl, fun _ => ⟨rfl, rfl⟩⟩
      exact absurd (hpoison.symm.trans he').symm (Option.some_ne_none e')

/-- A cursor is refused by its own container if a change shows, now or when it was refused before, and only
    then. -/
theorem Fits.refused_iff (h : w.Fits c) :
    (∃ e, w.Refused c e) ↔ w.missed % wordValues ≠ 0 ∨ w.cursor.poison.isSome = true := by
  refine ⟨fun ⟨e, hrefused⟩ => ?_, h.refused⟩
  cases hpoison : w.cursor.poison with
  | some e' => exact .inr rfl
  | none =>
      refine .inl fun hzero => ?_
      -- a cursor that is admitted is not poisoned by its step
      have ha : w.cursor.Admitted c := ⟨h.owner, ((h.generation_eq_iff hpoison).mpr hzero).symm, hpoison⟩
      exact absurd (ha.next_admitted hrefused.next).poison (Option.some_ne_none e)

/-! ## Nothing was missed -/

/-- A cursor that missed nothing is not refused. -/
theorem Fits.admitted (h : w.Fits c) (hzero : w.missed = 0) : w.cursor.Admitted c := by
  have hpoison : w.cursor.poison = none :=
    Option.eq_none_iff_forall_ne_some.mpr fun e he => (h.poison e he).1 hzero
  have hgen := h.generation hpoison
  rw [hzero] at hgen
  exact ⟨h.owner, (hgen.trans (UInt64.add_zero _)).symm, hpoison⟩

variable [BEq K]

/-- A container that was removed from shows what its listing became. -/
theorem listing_of_removed {c' : Container K V} {slot : Slot} {rename : Slot → Slot} {p : K × V}
    (hshows : c.Shows (as ++ slot :: bs) ps) (hp : c.store.held slot = some p)
    (hremoved : Container.Shows.Removed c as slot bs rename c') :
    c'.listing = .ok ((c.listingOf ps).removeAt (as.filterMap c.store.held).length) := by
  obtain ⟨p', hp', hps⟩ := hshows.split
  rw [hp] at hp'
  cases hp'
  rw [Listing.removeAt_length (l := c.listingOf ps) hps, hremoved.shows.listing_eq]
  simp only [Container.listingOf]
  rw [hremoved.kind.isPacked, hremoved.kind.byAccess]

/-- A cursor that missed nothing does, at each of its steps, what a position in the list of entries would. -/
theorem Fits.exact (h : w.Fits c) (hshows : c.Shows slots ps) (hzero : w.missed = 0) :
    w.Exact c (c.listingOf ps) := by
  have ha := h.admitted hzero
  obtain ⟨as, bs, hslots, hlength, hstands⟩ := h.stands hzero
  obtain rfl : slots = as ++ bs := Except.ok.inj (hshows.sound.slots_eq.symm.trans hslots)
  -- the slots passed and the slots to come split the entries at the position
  have hpassed : (as.filterMap c.store.held).length = w.position := by
    rw [hshows.length_held fun k hk => List.mem_append_left bs hk, hlength]
  have hcoming : (bs.filterMap c.store.held).length = bs.length :=
    hshows.length_held fun k hk => List.mem_append_right as hk
  have hps : ps = as.filterMap c.store.held ++ bs.filterMap c.store.held := by
    rw [← hshows.pairs, List.filterMap_append]
  have hget : (c.listingOf ps).pairs[w.position]? = (bs.filterMap c.store.held).head? := by
    show ps[w.position]? = _
    rw [hps, ← hpassed, List.getElem?_append_right (Nat.le_refl _), Nat.sub_self, List.head?_eq_getElem?]
  have hall : (c.listingOf ps).pairs.length = w.position + bs.length := by
    show ps.length = _
    rw [hps, List.length_append, hpassed, hcoming]
  refine ⟨?_, ?_, fun p hp => ?_, fun hnone => ?_, fun key hkey => ?_, fun hnone => ?_⟩
  · rw [hall]
    exact Nat.le_add_right _ _
  · rw [hall, Cursor.hasNext, ha.poison, hstands.upcoming]
    cases bs <;> simp
  · rw [hget] at hp
    cases bs with
    | nil => exact nomatch hp
    | cons slot bs =>
        obtain ⟨key, value, cur, hheld, hnext, -, -⟩ := hstands.next_cons ha hshows
        rw [List.filterMap_cons_some hheld] at hp
        cases hp
        exact ⟨cur, hnext⟩
  · rw [hget, List.head?_eq_none_iff] at hnone
    rw [hnone] at hcoming
    obtain rfl : bs = [] := List.length_eq_zero_iff.mp hcoming.symm
    exact hstands.next_nil ha
  · rw [hkey] at hstands
    obtain ⟨as', slot, value, rfl, hheld, r, hr, rfl, rename, hremoved, -, -⟩ := hstands.remove_some ha hshows
    rw [← List.append_cons] at hshows
    refine ⟨(as'.filterMap c.store.held).length, value, ?_, ?_, hr, listing_of_removed hshows hheld hremoved⟩
    · rw [← hpassed, List.filterMap_append, List.filterMap_cons_some hheld, List.length_append]
      rfl
    · obtain ⟨p, hp, hsplit⟩ := hshows.split
      rw [hheld] at hp
      cases hp
      show ps[_]? = _
      rw [hsplit, List.getElem?_append_right (Nat.le_refl _), Nat.sub_self]
      rfl
  · rw [hnone] at hstands
    exact hstands.remove_none ha

end Watched

/-! ## Every interleaving -/

variable [BEq K] [EquivBEq K]

/-- Whatever steps were made, by whichever cursors and on whichever containers: a container that did not make a
    cursor is refused by it; a cursor that missed nothing is exact; one that missed something is refused, now and
    ever after. -/
theorem cursor_fails_fast [Backing] {a : Arena K V} {i j : Nat} {c : Container K V} {w : Watched K}
    (h : a.Reachable) (hc : a.containers[i]? = some c) (hw : a.cursors[j]? = some w) :
    (i ≠ w.home → w.cursor.next c = .ok (.error .wrongContainer, w.cursor) ∧
        w.cursor.remove c = .ok (c, w.cursor) (.error .wrongContainer)) ∧
      (i = w.home → w.missed = 0 → ∃ l, c.listing = .ok l ∧ w.Exact c l) ∧
        (i = w.home → (w.missed % wordValues ≠ 0 ∨ w.cursor.poison.isSome = true ↔ ∃ e, w.Refused c e)) := by
  have hsound := h.sound
  refine ⟨fun hi => ?_, fun hi hzero => ?_, fun hi => ?_⟩
  · have hcheck := Cursor.check_foreign (hsound.foreign hc hw hi)
    exact ⟨Cursor.next_refused hcheck, Cursor.remove_refused hcheck⟩
  · subst hi
    obtain ⟨slots, ps, hshows⟩ := (hsound.soundAt hc).shows
    exact ⟨_, hshows.listing_eq, (hsound.fits_home hc hw).exact hshows hzero⟩
  · subst hi
    exact (hsound.fits_home hc hw).refused_iff.symm

/-- A cursor that returned an entry, and whose container then got a new key. -/
theorem cursor_fails_fast_after_insertion :
    ∃ (a : Arena Nat Nat) (c : Container Nat Nat) (w : Watched Nat),
      a.Reachable ∧ a.containers[0]? = some c ∧ a.cursors[0]? = some w ∧ w.position = 1 ∧ w.last = some 1 ∧
        w.missed = 1 ∧ ∃ e, w.Refused c e := by
  have hr : Hashing.Respects (⟨fun _ => 0, ⟨fun _ _ => 0⟩⟩ : Hashing Nat) := ⟨fun _ => rfl, fun _ _ _ _ => rfl⟩
  have hmake : Container.make {} .dense ⟨fun _ => 0, ⟨fun _ _ => 0⟩⟩ 0 =
      .ok (⟨⟨fun _ => 0, ⟨fun _ _ => 0⟩⟩, .table (.empty .dense .threeQuarters 0), 9, 0, 0⟩ : Container Nat Nat) := rfl
  have h₁ := Arena.Reachable.empty.step (.make (by decide) .dense hr hmake)
  have h₂ := h₁.step (@Arena.Step.apply _ _ _ _ _ 0 _ (.insert 1 10) (.value none) rfl rfl)
  have h₃ := h₂.step (@Arena.Step.cursor _ _ _ _ _ 0 _ rfl)
  have h₄ := h₃.step
    (@Arena.Step.next _ _ _ _ _ 0 0 _ _ (.ok (1, 10)) ⟨0, 1, none, some (.index 0), none⟩ rfl rfl rfl)
  have h₅ := h₄.step (@Arena.Step.apply _ _ _ _ _ 0 _ (.insert 2 20) (.value none) rfl rfl)
  refine ⟨_, _, _, h₅, rfl, rfl, rfl, rfl, rfl, ?_⟩
  exact ((cursor_fails_fast (j := 0) h₅ rfl rfl).2.2 rfl).mp (.inl (by decide))

end DenseHash
