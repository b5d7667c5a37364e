import DenseHash.Cursor.Basic
import DenseHash.Proofs.Container.Parts

/-!
# Where a cursor stands

A cursor that has missed no change stands between two slots of the traversal: those it has passed and those that
are to come. It holds the last slot that it has passed, unless it has removed the entry there.

* **`Cursor.Stands`** says so; it does not speak of the container's identity and generation.
* **`Cursor.Admitted`** says that the container is not refused.
-/

namespace DenseHash

variable [Backing] {K V : Type}

namespace Cursor

/-! ## Being refused -/

/-- The cursor was made by the container, has met no change, and sees none. -/
structure Admitted (cur : Cursor) (c : Container K V) : Prop where
  owner : cur.owner = c.owner
  expected : cur.expected = c.generation
  poison : cur.poison = none

variable {cur : Cursor} {c : Container K V}

/-- The check of a cursor that is admitted passes. -/
theorem Admitted.check_eq (h : cur.Admitted c) : cur.check c = (none, cur) := by
  rw [check, if_neg (fun hne => hne h.owner.symm), h.poison, if_neg (fun hsome => nomatch hsome),
    if_neg (fun hne => hne h.expected.symm)]

/-- Another container is refused, and nothing changes. -/
theorem check_foreign (h : c.owner ≠ cur.owner) : cur.check c = (some .wrongContainer, cur) := if_pos h

/-- A change that was met is told again. -/
theorem check_poisoned {e : CursorError} (howner : cur.owner = c.owner) (h : cur.poison = some e) :
    cur.check c = (some e, cur) := by
  rw [check, if_neg (fun hne => hne howner.symm), h]
  rfl

/-- A change is met. -/
theorem check_stale (howner : cur.owner = c.owner) (hpoison : cur.poison = none)
    (h : c.generation ≠ cur.expected) :
    cur.check c = (some (.modified cur.expected c.generation),
      { cur with poison := some (.modified cur.expected c.generation) }) := by
  rw [check, if_neg (fun hne => hne howner.symm), hpoison, if_neg (fun hsome => nomatch hsome), if_pos h]

/-- A refused step returns the refusal, and leaves the cursor as the check does. -/
theorem next_refused {e : CursorError} {cur' : Cursor} (h : cur.check c = (some e, cur')) :
    cur.next c = .ok (.error e, cur') := by
  rw [next, h]

/-- A refused removal removes nothing. -/
theorem remove_refused {e : CursorError} {cur' : Cursor} (h : cur.check c = (some e, cur')) :
    cur.remove c = .ok (c, cur') (.error e) := by
  rw [remove, h]

/-! ## Standing -/

/-- The entry that a cursor returned last is in the last slot that it has passed. -/
inductive Holds (c : Container K V) : List Slot → Option Slot → Option K → Prop where
  | nothing (as : List Slot) : Holds c as none none
  | entry (as : List Slot) {slot : Slot} {key : K} {value : V} (held : c.store.held slot = some (key, value)) :
      Holds c (as ++ [slot]) (some slot) (some key)

namespace Holds

variable {c : Container K V} {as : List Slot} {current : Option Slot} {key : K}

/-- A cursor that returned nothing holds nothing. -/
theorem eq_none (h : Holds c as current none) : current = none := by
  cases h
  rfl

/-- A cursor that returned a key holds the slot that it passed last, and the key is there. -/
theorem split (h : Holds c as current (some key)) :
    ∃ as' slot value, as = as' ++ [slot] ∧ current = some slot ∧ c.store.held slot = some (key, value) := by
  cases h with
  | entry as' held => exact ⟨as', _, _, rfl, rfl, held⟩

end Holds

/-- The cursor has passed the slots `as`, has the slots `bs` before it, and returned the key `last` last. -/
structure Stands (cur : Cursor) (c : Container K V) (as bs : List Slot) (last : Option K) : Prop where
  upcoming : cur.upcoming = bs.head?
  current : Holds c as cur.current last

variable {slots as bs : List Slot} {slot : Slot} {ps : List (K × V)} {last : Option K} {key : K}

/-- At the end, nothing is returned. -/
theorem Stands.next_nil (h : cur.Stands c as [] last) (ha : cur.Admitted c) :
    cur.next c = .ok (.error .exhausted, cur) := by
  have hup : cur.upcoming = none := h.upcoming
  rw [next, ha.check_eq]
  dsimp only
  rw [hup]

/-- There is nothing to remove if nothing was returned, or if it has been removed. -/
theorem Stands.remove_none (h : cur.Stands c as bs none) (ha : cur.Admitted c) :
    cur.remove c = .ok (c, cur) (.error .noCurrent) := by
  rw [remove, ha.check_eq]
  dsimp only
  rw [h.current.eq_none]

/-- A cursor that is not refused is not refused after a step either, wherever it stands. -/
theorem Admitted.next_admitted {r : Except CursorError (K × V)} {cur' : Cursor} (ha : cur.Admitted c)
    (h : cur.next c = .ok (r, cur')) : cur'.Admitted c := by
  rw [next, ha.check_eq] at h
  dsimp only at h
  cases hup : cur.upcoming with
  | none =>
      rw [hup] at h
      cases h
      exact ha
  | some slot =>
      rw [hup] at h
      obtain ⟨upcoming, -, h⟩ := Checked.bind_eq_ok h
      obtain ⟨pair, -, h⟩ := Checked.bind_eq_ok h
      cases h
      exact ⟨ha.owner, ha.expected, ha.poison⟩

variable [BEq K]

/-- A new cursor stands before all slots. -/
theorem stands_start (h : c.Shows slots ps) : (start c).Stands c [] slots none where
  upcoming := h.sound.first_eq
  current := .nothing []

namespace Stands

/-- Otherwise the next entry is, and the cursor has passed its slot. -/
theorem next_cons (h : cur.Stands c as (slot :: bs) last) (ha : cur.Admitted c)
    (hshows : c.Shows (as ++ slot :: bs) ps) :
    ∃ key value cur', c.store.held slot = some (key, value) ∧ cur.next c = .ok (.ok (key, value), cur') ∧
      cur'.Admitted c ∧ cur'.Stands c (as ++ [slot]) bs (some key) := by
  obtain ⟨⟨key, value⟩, hp, -⟩ := hshows.split
  have hup : cur.upcoming = some slot := h.upcoming
  refine ⟨key, value, { cur with upcoming := bs.head?, current := some slot }, hp, ?_,
    ⟨ha.owner, ha.expected, ha.poison⟩, ⟨rfl, .entry as hp⟩⟩
  rw [next, ha.check_eq]
  dsimp only
  rw [hup]
  dsimp only
  rw [hshows.sound.next_eq, Checked.ok_bind, Store.pair_eq hp]
  rfl

/-- A removal takes out the entry that was returned last, and the cursor stands where that entry was. -/
theorem remove_some (h : cur.Stands c as bs (some key)) (ha : cur.Admitted c) (hshows : c.Shows (as ++ bs) ps) :
    ∃ as' slot value, as = as' ++ [slot] ∧ c.store.held slot = some (key, value) ∧
      (cur.remove c).Gives fun r s => r = .ok (key, value) ∧ ∃ rename,
        Container.Shows.Removed c as' slot bs rename s.1 ∧ s.2.Admitted s.1 ∧
          s.2.Stands s.1 (as'.map rename) ((closeUp c.store.isPacked bs).map rename) none := by
  obtain ⟨as', slot, value, rfl, hcurrent, hp⟩ := h.current.split
  refine ⟨as', slot, value, rfl, hp, ?_⟩
  rw [← List.append_cons] at hshows
  rw [remove, ha.check_eq]
  dsimp only
  rw [hcurrent]
  refine Reply.Gives.andThen (P := fun r s => r.1 = (key, value) ∧ s.2 = { cur with current := none } ∧
    ∃ rename, Container.Shows.Removed c as' slot bs rename s.1 ∧
      r.2 = (closeUp c.store.isPacked bs).head?.map rename) ?_ ?_
  · refine Reply.Gives.within ((hshows.removeSlot_gives hp (.inr h.upcoming)).imp fun r c' hr => ?_)
    obtain ⟨hpair, rename, hremoved, hresume⟩ := hr
    exact ⟨hpair, rfl, rename, hremoved, hresume h.upcoming⟩
  · rintro ⟨pair, resume⟩ ⟨c', cur'⟩ ⟨rfl, rfl, rename, hremoved, rfl⟩
    refine Reply.gives_ok ⟨rfl, rename, hremoved, ⟨?_, rfl, ha.poison⟩, ⟨?_, .nothing _⟩⟩
    · exact ha.owner.trans hremoved.evolves.owner.symm
    · rw [List.head?_map]

end Stands

/-- A cursor that is not refused removes some entry, or none. -/
theorem Admitted.remove_admitted {r : Except CursorError (K × V)} (ha : cur.Admitted c) (hshows : c.Shows slots ps)
    (h : (cur.remove c).result = .ok r) :
    (∃ e, r = .error e ∧ (cur.remove c).state = (c, cur)) ∨
      ∃ p as slot bs rename, r = .ok p ∧ slots = as ++ slot :: bs ∧
        Container.Shows.Removed c as slot bs rename (cur.remove c).state.1 ∧
          (cur.remove c).state.2.Admitted (cur.remove c).state.1 := by
  rw [remove, ha.check_eq] at h ⊢
  dsimp only at h ⊢
  cases hcurrent : cur.current with
  | none =>
      rw [hcurrent] at h
      cases h
      exact .inl ⟨_, rfl, rfl⟩
  | some slot =>
      rw [hcurrent] at h
      obtain ⟨⟨pair, resume⟩, hrem, hr, hstate⟩ := Reply.andThen_result_eq_ok h
      obtain ⟨as, bs, rename, hslots, -, hremoved⟩ := hshows.removeSlot_of_ok hrem
      dsimp only
      rw [hstate]
      cases hr
      exact .inr ⟨pair, as, slot, bs, rename, rfl, hslots, hremoved,
        ha.owner.trans hremoved.evolves.owner.symm, rfl, ha.poison⟩

end Cursor

end DenseHash
