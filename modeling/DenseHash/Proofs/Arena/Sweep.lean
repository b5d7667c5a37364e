import DenseHash.Proofs.Arena.Sound
import DenseHash.Proofs.Cursor.Sweep

/-!
# Sweeps meet every entry once

A sweep of a container that some arena may hold, from the start, with any visitor.

* **Between steps:** as long as nobody else acts on the container, the cursor stands somewhere in it, so it knows
  whether there is a next entry.
* **Altogether:** the sweep comes to its end, and the order in which it meets the entries is that of a walk of the
  list of entries.
-/

namespace DenseHash

variable {K V σ : Type} [BEq K]

/-! ## Between steps -/

section Steps

variable [Backing]

/-- What a cursor and its container become while nothing else acts on the container. -/
inductive Cursor.Undisturbed (c₀ : Container K V) : Cursor → Container K V → Prop where
  | start : Undisturbed c₀ (.start c₀) c₀
  | next {c : Container K V} {cur cur' : Cursor} {outcome : Except CursorError (K × V)}
      (before : Undisturbed c₀ cur c) (returned : cur.next c = .ok (outcome, cur')) : Undisturbed c₀ cur' c
  | remove {c : Container K V} {cur : Cursor} {outcome : Except CursorError (K × V)}
      (before : Undisturbed c₀ cur c) (returned : (cur.remove c).result = .ok outcome) :
      Undisturbed c₀ (cur.remove c).state.2 (cur.remove c).state.1

/-- The cursor stands somewhere in its container. -/
structure Cursor.Placed (cur : Cursor) (c : Container K V) : Prop where
  admitted : cur.Admitted c
  stands : ∃ as bs last ps, c.Shows (as ++ bs) ps ∧ cur.Stands c as bs last

namespace Cursor.Placed

variable {c : Container K V} {cur cur' : Cursor} {outcome : Except CursorError (K × V)}

/-- It still stands there after a step forward. -/
theorem next (h : cur.Placed c) (hnext : cur.next c = .ok (outcome, cur')) : cur'.Placed c := by
  obtain ⟨ha, as, bs, last, ps, hshows, hstands⟩ := h
  cases bs with
  | nil =>
      rw [hstands.next_nil ha] at hnext
      cases hnext
      exact ⟨ha, as, [], last, ps, hshows, hstands⟩
  | cons slot bs =>
      obtain ⟨key, value, cur₁, -, hnext₁, ha₁, hstands₁⟩ := hstands.next_cons ha hshows
      rw [hnext₁] at hnext
      cases hnext
      rw [List.append_cons] at hshows
      exact ⟨ha₁, as ++ [slot], bs, some key, ps, hshows, hstands₁⟩

/-- It stands there after a removal too, even if the entries behind it moved. -/
theorem remove (h : cur.Placed c) : (cur.remove c).state.2.Placed (cur.remove c).state.1 := by
  obtain ⟨ha, as, bs, last, ps, hshows, hstands⟩ := h
  cases last with
  | none =>
      rw [hstands.remove_none ha]
      exact ⟨ha, as, bs, none, ps, hshows, hstands⟩
  | some key =>
      obtain ⟨as', slot, value, rfl, -, r, -, -, rename, hremoved, ha', hstands'⟩ := hstands.remove_some ha hshows
      have hshows' := hremoved.shows
      rw [List.map_append] at hshows'
      exact ⟨ha', _, _, none, _, hshows', hstands'⟩

/-- It knows whether there is a next entry. -/
theorem hasNext_iff (h : cur.Placed c) : cur.hasNext = true ↔ ∃ p cur', cur.next c = .ok (.ok p, cur') := by
  obtain ⟨ha, as, bs, last, ps, hshows, hstands⟩ := h
  exact hstands.hasNext_iff ha hshows

end Cursor.Placed

/-- Nothing but the cursor's own steps happened, so it stands where they led. -/
theorem Cursor.Undisturbed.placed {c₀ c : Container K V} {cur : Cursor} {slots : List Slot} {ps : List (K × V)}
    (h : c₀.Shows slots ps) (hcur : Undisturbed c₀ cur c) : cur.Placed c := by
  induction hcur with
  | start => exact ⟨⟨rfl, rfl, rfl⟩, [], slots, none, ps, h, stands_start h⟩
  | next before returned ih => exact ih.next returned
  | remove before returned ih => exact ih.remove

end Steps

/-! ## Altogether -/

/-- Every entry is met once: in order, unless removal is packed, and as a walk meets it in any case. What the
    visitor picked is gone, what it did not pick is left in the order in which it was met, and the cursor is at the
    end. All the while, the cursor knows whether there is a next entry. -/
theorem sweep_meets_each_once [Backing] [EquivBEq K] {a : Arena K V} {i : Nat} {c : Container K V}
    (h : a.Reachable) (hc : a.containers[i]? = some c) (pick : σ → K → V → σ × Bool) (state : σ) :
    ∃ l seen c' cur', c.listing = .ok l ∧ DistinctKeys l.pairs ∧ seen.Perm l.pairs ∧ seen.length = c.size ∧
      (Cursor.sweep pick state (.start c) c).result = .ok ⟨seen, (parts pick state seen).1, none⟩ ∧
      (Cursor.sweep pick state (.start c) c).state = (c', cur') ∧
      c'.listing = .ok { l with pairs := (parts pick state seen).2 } ∧
      (∃ state', l.walk (noting pick) (state, []) 0 =
        ({ l with pairs := (parts pick state seen).2 }, state', seen.reverse)) ∧
      (c.store.isPacked = false → seen = l.pairs ∧ (parts pick state seen).2.Sublist l.pairs) ∧
      cur'.hasNext = false ∧ cur'.next c' = .ok (.error .exhausted, cur') ∧
      ∀ cur c', Cursor.Undisturbed c cur c' → (cur.hasNext = true ↔ ∃ p cur', cur.next c' = .ok (.ok p, cur')) := by
  obtain ⟨-, hrespects, slots, ps, hshows⟩ := h.sound.soundAt hc
  obtain ⟨swept, hresult, rfl, hkind, ha, slots', last, hshows', hstands⟩ := Cursor.sweep_gives hshows pick state
  have hparts := Swept.parts_along c.store.isPacked pick state ps
  have hperm := Swept.along_seen_perm c.store.isPacked pick state ps
  refine ⟨c.listingOf ps, _, _, _, hshows.listing_eq, hshows.distinctKeys hrespects, hperm,
    hperm.length_eq.trans hshows.size_eq.symm, hresult.trans ?_, rfl, ?_, ?_, fun hpacked => ?_,
    hstands.hasNext_eq ha, hstands.next_nil ha, fun cur c' hcur => (hcur.placed hshows).hasNext_iff⟩
  · rw [hparts, ← Swept.along_stopped c.store.isPacked pick state ps]
  · rw [hparts, hshows'.listing_eq]
    simp only [Container.listingOf]
    rw [hkind.isPacked, hkind.byAccess]
  · rw [hparts]
    exact Swept.walk_noting pick state (c.listingOf ps)
  · have hinPlace : (Swept.along c.store.isPacked pick state ps).1.seen = ps := by
      rw [hpacked]
      exact Swept.along_seen_inPlace pick state ps
    rw [hinPlace]
    exact ⟨rfl, Swept.parts_sublist pick state ps⟩

/-- The last entry takes the place of the one that is removed, and is met next. -/
theorem sweep_meets_each_once_packed :
    ∃ (a : Arena Nat Nat) (c : Container Nat Nat) (l : Listing Nat Nat),
      a.Reachable ∧ a.containers[0]? = some c ∧ c.listing = .ok l ∧
        (Cursor.sweep (fun _ key _ => ((), key == 1)) () (.start c) c).result =
          .ok ⟨[(1, 10), (3, 30), (2, 20)], [(1, 10)], none⟩ ∧
        [(1, 10), (3, 30), (2, 20)].Perm l.pairs := by
  have hr : Hashing.Respects (⟨fun _ => 0, ⟨fun _ _ => 0⟩⟩ : Hashing Nat) := ⟨fun _ => rfl, fun _ _ _ _ => rfl⟩
  have hmake : Container.make {} .dense ⟨fun _ => 0, ⟨fun _ _ => 0⟩⟩ 0 =
      .ok (⟨⟨fun _ => 0, ⟨fun _ _ => 0⟩⟩, .table (.empty .dense .threeQuarters 0), 9, 0, 0⟩ : Container Nat Nat) := rfl
  have h₁ := Arena.Reachable.empty.step (.make (by decide) .dense hr hmake)
  have h₂ := h₁.step (@Arena.Step.apply _ _ _ _ _ 0 _ (.insert 1 10) (.value none) rfl rfl)
  have h₃ := h₂.step (@Arena.Step.apply _ _ _ _ _ 0 _ (.insert 2 20) (.value none) rfl rfl)
  have h₄ := h₃.step (@Arena.Step.apply _ _ _ _ _ 0 _ (.insert 3 30) (.value none) rfl rfl)
  obtain ⟨l, seen, c', cur', hlisting, -, hperm, -, hresult, -⟩ :=
    sweep_meets_each_once (i := 0) h₄ rfl (fun _ key _ => ((), key == 1)) ()
  have hseen : seen = [(1, 10), (3, 30), (2, 20)] := congrArg Swept.seen (Except.ok.inj hresult).symm
  subst hseen
  exact ⟨_, _, l, h₄, rfl, hlisting, hresult, hperm⟩

end DenseHash
