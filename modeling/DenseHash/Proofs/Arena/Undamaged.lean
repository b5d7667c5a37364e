import DenseHash.Equality
import DenseHash.Proofs.Arena.FailFast

/-!
# Damage is never met

Every place that reads an index, a link or a slot says what it would report if the structure were broken. In an arena
that was reached without a fault, none of these reports is ever made, whichever container is asked, and whatever for:

* **By an operation:** those that may need more buckets are refused for their size at most, and all others return.
* **By a comparison** of two containers.
* **By a step of a cursor**, on its own container or on another one. The one exception is a cursor that has slept through
  a multiple of `2 ^ 64` changes: it is let through to slots that mean something else by now, or nothing.

What carries this is that a stored index is in range and that a cursor stands in a traversal. `Table.InRange` says the
former of a table as it is stored, since a write along a link does not look where it goes.
-/

namespace DenseHash

variable {K V : Type}

/-! ## Stored indices -/

/-- What leads from entry to entry leads to an entry of the table. -/
theorem Order.Lists.next_lt {o : Order} {n i : Nat} {is : List Nat} (h : o.Lists n is) (hi : i < n) :
    ∃ up, o.next i n = .ok up ∧ ∀ j, up = some j → j < n := by
  obtain ⟨as, bs, rfl⟩ := List.append_of_mem (h.mem_iff.mpr hi)
  refine ⟨_, h.next_eq, fun j hj => h.mem_iff.mp ?_⟩
  exact List.mem_append_right as (List.mem_cons_of_mem i (List.mem_of_head? hj))

theorem Order.Lists.prev_lt {o : Order} {n i : Nat} {is : List Nat} (h : o.Lists n is) (hi : i < n) :
    ∃ down, o.prev i = .ok down ∧ ∀ j, down = some j → j < n := by
  obtain ⟨as, bs, rfl⟩ := List.append_of_mem (h.mem_iff.mpr hi)
  exact ⟨_, h.prev_eq, fun j hj => h.mem_iff.mp (List.mem_append_left _ (List.mem_of_getLast? hj))⟩

namespace Table

variable {t : Table K V} {is : List Nat} {i : Nat} {a : Anchor}

/-- A place that leads somewhere is there. -/
theorem hasAnchor_of_link (h : t.link a = some i) : t.HasAnchor a := by
  cases a with
  | head b =>
      obtain ⟨head, hb, -⟩ := Option.bind_eq_some_iff.mp h
      exact (Array.getElem?_eq_some_iff.mp hb).1
  | after k =>
      obtain ⟨e, hk, -⟩ := Option.bind_eq_some_iff.mp h
      exact (Array.getElem?_eq_some_iff.mp hk).1

/-- Every index that is computed from what a table stores is an index of what it is used for. -/
structure InRange (t : Table K V) : Prop where
  /-- There are buckets if there are entries, and every hash selects one of them. -/
  allocated : t.buckets = 0 → t.size = 0
  bucket : t.buckets ≠ 0 → ∀ hash, ∃ b, t.bucketOf hash = .ok b ∧ b < t.buckets
  /-- Chains lead to entries. -/
  link : ∀ {a i}, t.link a = some i → i < t.size
  /-- A removal finds what leads to an entry, and redirects a place that is there. -/
  anchor : ∀ i < t.size, ∃ a, t.anchorOf i = .ok a ∧ t.link a = some i ∧ t.HasAnchor a
  /-- The order leads to entries, in both directions. -/
  first : ∀ i, t.first = some i → i < t.size
  last : ∀ i, t.last = some i → i < t.size
  next : ∀ i < t.size, ∃ up, t.next i = .ok up ∧ ∀ j, up = some j → j < t.size
  prev : ∀ i < t.size, ∃ down, t.prev i = .ok down ∧ ∀ j, down = some j → j < t.size

/-- A sound table has all its links in range. -/
theorem Sound.inRange [BEq K] (h : t.Sound is) : t.InRange := by
  obtain ⟨chains, hch⟩ := h.chained
  refine ⟨h.unallocated, fun hb hash => ⟨_, bucketOf_eq hb hash, bucketIndex_lt hb hash⟩, hch.link_lt h,
    fun i hi => ?_, fun i hi => ?_, fun i hi => ?_, fun i hi => h.order.next_lt hi, fun i hi => h.order.prev_lt hi⟩
  · obtain ⟨a, ha, hlink⟩ := hch.exists_anchorOf h hi
    exact ⟨a, ha, hlink, hasAnchor_of_link hlink⟩
  · rw [Table.first, h.order.first_eq] at hi
    exact h.mem_iff.mp (List.mem_of_head? hi)
  · rw [Table.last, h.order.last_eq] at hi
    exact h.mem_iff.mp (List.mem_of_getLast? hi)

end Table

/-! ## One container -/

/-- A limit of size is no damage. -/
theorem Fault.IsLimit.ne_corrupt {f : Fault} (h : f.IsLimit) (damage : Corruption) : f ≠ .corrupt damage := by
  rintro rfl
  exact h

namespace Container

variable [Backing] [BEq K]

/-- Nothing that is asked of the container reports damage. -/
structure Undamaged (c : Container K V) : Prop where
  apply : ∀ op damage, (c.apply op).result ≠ .error (.corrupt damage)
  /-- Only what may need more buckets can be refused. -/
  returns : ∀ op, ¬MayRebuild op → ∃ a, (c.apply op).result = .ok a
  retain : ∀ {σ : Type} (keep : σ → K → V → σ × V × Bool) (state : σ),
    ∃ state', (c.retain keep state).result = .ok state'
  lists : ∃ ps, c.toList = .ok ps ∧ c.entries = .ok ps
  valueOf : ∀ key, c.valueOf key = .error .missingKey ∨ ∃ value, c.valueOf key = .ok value
  /-- An index that is stored is in range. -/
  inRange : ∀ t, c.store = .table t → t.InRange

variable {c d : Container K V} {slots : List Slot} {ps : List (K × V)}

theorem Shows.inRange {t : Table K V} (h : c.Shows slots ps) (hs : c.store = .table t) : t.InRange := by
  obtain ⟨is, -, ht, -⟩ := h.sound.exists_indices hs
  exact ht.inRange

/-- A visitor of any kind is led to the end. -/
theorem Shows.retain_result {σ : Type} (h : c.Shows slots ps) (keep : σ → K → V → σ × V × Bool) (state : σ) :
    ∃ state', (c.retain keep state).result = .ok state' := by
  have hstart : c.Shows ([] ++ slots) ps := h
  have hgives : (retainFrom keep c.size slots.head? state c).Gives (Sifts keep state c [] slots) :=
    hstart.retainFrom_gives keep (Nat.le_of_eq h.sound.size_eq.symm)
  obtain ⟨state', hresult, -⟩ := hgives
  rw [retain, h.sound.first_eq]
  exact ⟨state', hresult⟩

variable [EquivBEq K]

/-- A sound container reports no damage: it answers, or refuses for a limit. -/
theorem Shows.undamaged (h : c.Shows slots ps) (hr : c.hashing.Respects) : c.Undamaged where
  apply := by
    intro op damage hresult
    exact ((h.apply_meets hr op).of_error hresult).ne_corrupt damage rfl
  returns := by
    intro op hop
    obtain ⟨a, ha, -⟩ := h.apply_gives hr hop
    exact ⟨a, ha⟩
  retain := h.retain_result
  lists := ⟨ps, h.toList_eq, by rw [entries, h.sound.pairs_eq, h.pairs]⟩
  valueOf := by
    intro key
    rw [Container.valueOf, h.peek_eq hr, Checked.ok_bind]
    cases (Listing.entry? (c.listingOf ps) key).map Prod.snd with
    | none => exact .inl rfl
    | some value => exact .inr ⟨value, rfl⟩
  inRange := fun _ hs => h.inRange hs

/-! ## Two containers -/

variable [BEq V]

/-- Looking for keys one after the other. -/
theorem Shows.includes_ok (h : c.Shows slots ps) (hr : c.hashing.Respects) (qs : List (K × V)) :
    ∃ answer, c.includes qs = .ok answer := by
  induction qs with
  | nil => exact ⟨true, rfl⟩
  | cons q qs ih =>
      obtain ⟨key, value⟩ := q
      rw [includes, h.peek_eq hr, Checked.ok_bind]
      cases (Listing.entry? (c.listingOf ps) key).map Prod.snd with
      | none => exact ⟨false, rfl⟩
      | some other =>
          dsimp only
          split
          · exact ih
          · exact ⟨false, rfl⟩

/-- Neither comparison of two containers fails. -/
structure Comparable (c d : Container K V) : Prop where
  asMaps : ∃ answer, c.sameMap d = .ok answer
  asSequences : ∃ answer, c.sameSequence d = .ok answer

/-- Two sound containers can be compared. -/
theorem Shows.comparable {slots' : List Slot} {qs : List (K × V)} (h : c.Shows slots ps) (h' : d.Shows slots' qs)
    (hr : d.hashing.Respects) : c.Comparable d where
  asMaps := by
    rw [sameMap]
    split
    · rw [h.toList_eq]
      exact h'.includes_ok hr ps
    · exact ⟨false, rfl⟩
  asSequences := by
    rw [sameSequence]
    split
    · rw [h.toList_eq, h'.toList_eq]
      exact ⟨ps == qs, rfl⟩
    · exact ⟨false, rfl⟩

end Container

/-! ## Cursors -/

namespace Watched

variable [Backing]

/-- The cursor has slept through so many changes that the generation came round. -/
def Overslept (w : Watched K) : Prop := w.cursor.poison = none ∧ w.missed ≠ 0 ∧ w.missed % wordValues = 0

variable [BEq K] {w : Watched K} {c : Container K V} {l : Listing K V}

/-- A cursor's steps are answered, be it by a refusal. -/
structure Answered (w : Watched K) (c : Container K V) : Prop where
  next : ∃ outcome, w.cursor.next c = .ok outcome
  remove : ∃ outcome, (w.cursor.remove c).result = .ok outcome

omit [BEq K] in
/-- A refused cursor has its answer. -/
theorem answered_refused {e : CursorError} {cur : Cursor} (h : w.cursor.check c = (some e, cur)) : w.Answered c where
  next := ⟨_, Cursor.next_refused h⟩
  remove := ⟨.error e, by rw [Cursor.remove_refused h]; rfl⟩

omit [BEq K] in
/-- A cursor that is as good as a position has its answers. -/
theorem Exact.answered (h : w.Exact c l) : w.Answered c where
  next := by
    cases hget : l.pairs[w.position]? with
    | none => exact ⟨_, h.next_none hget⟩
    | some p =>
        obtain ⟨cur, hcur⟩ := h.next_some p hget
        exact ⟨_, hcur⟩
  remove := by
    cases hlast : w.last with
    | none => exact ⟨.error .noCurrent, by rw [h.remove_none hlast]; rfl⟩
    | some key =>
        obtain ⟨k, value, -, -, hresult, -⟩ := h.remove_some key hlast
        exact ⟨_, hresult⟩

/-- Either nothing was missed, or the cursor is refused. -/
theorem Fits.answered {slots : List Slot} {ps : List (K × V)} (h : w.Fits c) (hshows : c.Shows slots ps)
    (hawake : ¬w.Overslept) : w.Answered c := by
  by_cases hzero : w.missed = 0
  · exact (h.exact hshows hzero).answered
  · have hrefused : w.missed % wordValues ≠ 0 ∨ w.cursor.poison.isSome = true := by
      by_contra hnot
      rw [not_or, not_not, Bool.not_eq_true, Option.isSome_eq_false_iff, Option.isNone_iff_eq_none] at hnot
      exact hawake ⟨hnot.2, hzero, hnot.1⟩
    obtain ⟨e, hrefused⟩ := h.refused hrefused
    exact ⟨⟨_, hrefused.next⟩, .error e, by rw [hrefused.remove]; rfl⟩

end Watched

/-! ## Every arena -/

variable [BEq K]

/-- Given any container of the arena, a cursor answers, unless it slept through a full turn of the generation. -/
theorem Arena.Sound.answered [Backing] {a : Arena K V} {c : Container K V} {w : Watched K} (h : a.Sound)
    (hc : c ∈ a.containers) (hw : w ∈ a.cursors) (hawake : c.owner = w.cursor.owner → ¬w.Overslept) :
    w.Answered c := by
  obtain ⟨i, hi⟩ := List.getElem?_of_mem hc
  obtain ⟨j, hj⟩ := List.getElem?_of_mem hw
  by_cases howner : c.owner = w.cursor.owner
  · have hhome : i = w.home := by
      by_contra hne
      exact h.foreign hi hj hne howner
    subst hhome
    obtain ⟨-, -, slots, ps, hshows⟩ := h.soundAt hi
    exact (h.fits_home hi hj).answered hshows (hawake howner)
  · exact Watched.answered_refused (Cursor.check_foreign howner)

/-- Whatever containers and cursors there are, and whatever was done with them, as long as no step failed: no container
    is damaged, no two of them fail to be compared, and every step of a cursor on any of them is answered, unless the
    cursor is its own and has slept through a multiple of `2 ^ 64` changes. -/
theorem reachable_undamaged [Backing] [EquivBEq K] [BEq V] {a : Arena K V} (h : a.Reachable) :
    (∀ c ∈ a.containers, c.Undamaged) ∧ (∀ c ∈ a.containers, ∀ d ∈ a.containers, c.Comparable d) ∧
      ∀ c ∈ a.containers, ∀ w ∈ a.cursors, (c.owner = w.cursor.owner → ¬w.Overslept) → w.Answered c := by
  have hsound := h.sound
  refine ⟨fun c hc => ?_, fun c hc d hd => ?_, fun c hc w hw => hsound.answered hc hw⟩
  · obtain ⟨i, hi⟩ := List.getElem?_of_mem hc
    obtain ⟨-, hrespects, slots, ps, hshows⟩ := hsound.soundAt hi
    exact hshows.undamaged hrespects
  · obtain ⟨i, hi⟩ := List.getElem?_of_mem hc
    obtain ⟨j, hj⟩ := List.getElem?_of_mem hd
    obtain ⟨-, -, slots, ps, hshows⟩ := hsound.soundAt hi
    obtain ⟨-, hrespects, slots', qs, hshows'⟩ := hsound.soundAt hj
    exact hshows.comparable hshows' hrespects

/-- Two keys that collide have moved the entries to the fallback, under a cursor that was in the table. It is refused by
    its own container and by a copy, and both are as good as new. -/
theorem reachable_undamaged_flooded :
    ∃ (a : Arena Nat Nat) (c d : Container Nat Nat) (w : Watched Nat),
      a.Reachable ∧ a.containers = [c, d] ∧ a.cursors = [w] ∧ c.isFallback = true ∧ c.Undamaged ∧ c.Comparable d ∧
        w.missed = 2 ∧ w.cursor.upcoming = some (.index 0) ∧ w.Answered c ∧ w.Answered d := by
  have hr : Hashing.Respects (⟨fun _ => 0, ⟨fun _ _ => 0⟩⟩ : Hashing Nat) := ⟨fun _ => rfl, fun _ _ _ _ => rfl⟩
  have hmake : Container.make { maxChain := 1 } .dense ⟨fun _ => 0, ⟨fun _ _ => 0⟩⟩ 0 =
      .ok (⟨⟨fun _ => 0, ⟨fun _ _ => 0⟩⟩, .table (.empty .dense .threeQuarters 0), 1, 0, 0⟩ : Container Nat Nat) := rfl
  have h₁ := Arena.Reachable.empty.step (.make (by decide) .dense hr hmake)
  have h₂ := h₁.step (@Arena.Step.apply _ _ _ _ _ 0 _ (.insert 1 10) (.value none) rfl rfl)
  have h₃ := h₂.step (@Arena.Step.cursor _ _ _ _ _ 0 _ rfl)
  have h₄ := h₃.step (@Arena.Step.apply _ _ _ _ _ 0 _ (.insert 2 20) (.value none) rfl rfl)
  have h₅ := h₄.step (@Arena.Step.copy _ _ _ _ _ 0 _ (by decide) rfl)
  obtain ⟨hundamaged, hcomparable, hanswered⟩ := reachable_undamaged h₅
  refine ⟨_, _, _, _, h₅, rfl, rfl, rfl, hundamaged _ List.mem_cons_self,
    hcomparable _ List.mem_cons_self _ (List.mem_cons_of_mem _ List.mem_cons_self), rfl, rfl, ?_, ?_⟩
  · exact hanswered _ List.mem_cons_self _ List.mem_cons_self fun _ hslept => absurd hslept.2.2 (by decide)
  · exact hanswered _ (List.mem_cons_of_mem _ List.mem_cons_self) _ List.mem_cons_self fun _ hslept =>
      absurd hslept.2.2 (by decide)

end DenseHash
