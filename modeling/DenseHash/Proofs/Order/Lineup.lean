import DenseHash.Order.Change
import DenseHash.Proofs.Order

/-!
# Orders simulate lists of indices

A *lineup* is the list of all indices in the order of traversal. Each change of a linked order has its counterpart on
lineups, which knows nothing of links: a new index comes last, a use takes an index out and puts it at the end, a
removal takes one out and renames the last index to it.

* **One change** (`Lists.change_eq`): the order lists, afterwards, what the lineup has become.
* **A run** (`Lists.changeAll_eq`) follows by induction on its changes. What can be seen at its end (`Follows`) are both
  walks, and where a traversal goes on after a removal.
* **In dense order** there is nothing to keep. After a removal the entry to go on with is the first one, by index, that
  had not been passed before (`dense_resume`).
-/

namespace DenseHash

/-! ## Lineups -/

/-- All indices of some entries, in the order of traversal. -/
abbrev Lineup := List Nat

namespace Lineup

/-- What a change makes of a lineup, and whether a use moved its entry. Nothing is said of an index that is not there,
    or of a new one that no link can hold. -/
def apply (byAccess : Bool) (is : Lineup) : Order.Change → Option (Bool × Lineup)
  | .push => if is.length < maxLinked then some (false, is ++ [is.length]) else none
  | .access i =>
    if i < is.length then
      if byAccess ∧ is.getLast? ≠ some i then some (true, is.erase i ++ [i]) else some (false, is)
    else none
  | .erase i => if i < is.length then some (false, (is.erase i).map (reindex i (is.length - 1))) else none
  | .clear => some (false, [])

/-- What changes make of a lineup, one after the other. -/
def run (byAccess : Bool) : List Order.Change → Lineup → Option (List Bool × Lineup)
  | [], is => some ([], is)
  | c :: cs, is => do
    let (moved, is) ← apply byAccess is c
    let (moves, is) ← run byAccess cs is
    pure (moved :: moves, is)

variable {is as bs : Lineup} {i : Nat}

/-- Erasing an index takes it out of the place where it stands. -/
theorem erase_middle (h : (as ++ i :: bs).Nodup) : (as ++ i :: bs).erase i = as ++ bs := by
  have hnot : i ∉ as := fun hi => (List.nodup_middle.mp h).notMem (List.mem_append_left bs hi)
  rw [List.erase_append_right _ hnot, List.erase_cons_head]

/-- An index is the last one if nothing is behind it. -/
theorem getLast?_middle_iff (h : (as ++ i :: bs).Nodup) : (as ++ i :: bs).getLast? = some i ↔ bs = [] := by
  rcases List.eq_nil_or_concat' bs with rfl | ⟨init, k, rfl⟩
  · simp
  · have hki : k ≠ i := by
      rintro rfl
      exact (List.nodup_middle.mp h).notMem (by simp)
    rw [← List.cons_append, ← List.append_assoc, List.getLast?_concat]
    simp [hki]

end Lineup

namespace Order

open Lineup

/-! ## One change -/

section Step

variable {o : Order} {is is' : Lineup} {i : Nat} {moved : Bool} {c : Change}

/-- A new entry is put at the end, if there is room. -/
theorem Lists.push_lineup (h : o.Lists is.length is) (hroom : is.length < maxLinked) :
    ∃ o', o.push = .ok o' ∧ o.SameKind o' ∧ o'.Lists (is ++ [is.length]).length (is ++ [is.length]) := by
  obtain ⟨o', ho', hkind, hlists⟩ := h.push hroom
  refine ⟨o', ho', hkind, ?_⟩
  rw [List.length_append]
  exact hlists

/-- A use moves its entry to the end, if the order is by use and it is not there yet. -/
theorem Lists.access_lineup (h : o.Lists is.length is) (hi : i < is.length) :
    ∃ o', o.access i = .ok (decide (o.byAccess ∧ is.getLast? ≠ some i), o') ∧ o.SameKind o' ∧
      o'.Lists is.length (if o.byAccess ∧ is.getLast? ≠ some i then is.erase i ++ [i] else is) := by
  obtain ⟨as, bs, rfl⟩ := List.append_of_mem (h.mem_iff.mpr hi)
  obtain ⟨o', ho', hkind, hlists⟩ := h.access
  have hmoves : (o.byAccess = true ∧ (as ++ i :: bs).getLast? ≠ some i) ↔ (o.byAccess && !bs.isEmpty) = true := by
    rw [Ne, getLast?_middle_iff h.nodup, Bool.and_eq_true, Bool.not_eq_true', List.isEmpty_eq_false_iff]
  refine ⟨o', ?_, hkind, ?_⟩
  · simp only [ho', hmoves, Bool.decide_eq_true]
  · simp only [hmoves, erase_middle h.nodup]
    cases bs with
    | nil => simpa using hlists
    | cons k bs => simpa using hlists

/-- A use that does not move its entry changes no link. -/
theorem eq_of_access {o' : Order} (h : o.access i = .ok (false, o')) : o' = o := by
  cases o with
  | dense => exact (Prod.mk.inj (Except.ok.inj h)).2.symm
  | linked byAccess t =>
      rw [access] at h
      split at h
      · obtain ⟨t₁, -, h⟩ := Checked.bind_eq_ok h
        obtain ⟨t₂, -, h⟩ := Checked.bind_eq_ok h
        cases h
      · exact (Prod.mk.inj (Except.ok.inj h)).2.symm

/-- A removal takes an index out, and the last index gets the name that became free. -/
theorem Lists.erase_lineup (hlinked : o.isDense = false) (h : o.Lists is.length is) (hi : i < is.length) :
    ∃ o', o.erase i (is.length - 1) = .ok o' ∧ o.SameKind o' ∧
      o'.Lists (is.length - 1) ((is.erase i).map (reindex i (is.length - 1))) := by
  obtain ⟨as, bs, rfl⟩ := List.append_of_mem (h.mem_iff.mpr hi)
  obtain ⟨o', ho', hkind, hlists⟩ := h.erase
  refine ⟨o', ho', hkind, ?_⟩
  rw [erase_middle h.nodup]
  rw [hlinked] at hlists
  exact hlists

/-- A change that a lineup knows is made, and the order lists what the lineup becomes. -/
theorem Lists.change_eq (hlinked : o.isDense = false) (h : o.Lists is.length is)
    (happly : Lineup.apply o.byAccess is c = some (moved, is')) :
    ∃ o', change c o is.length = .ok (moved, o', is'.length) ∧ o.SameKind o' ∧ o'.Lists is'.length is' := by
  cases c with
  | push =>
      obtain ⟨hroom, heq⟩ := Option.ite_none_right_eq_some.mp happly
      obtain ⟨rfl, rfl⟩ := Prod.mk.inj (Option.some.inj heq)
      obtain ⟨o', ho', hkind, hlists⟩ := h.push_lineup hroom
      refine ⟨o', ?_, hkind, hlists⟩
      rw [change, ho', List.length_append]
      rfl
  | access i =>
      obtain ⟨hi, heq⟩ := Option.ite_none_right_eq_some.mp happly
      obtain ⟨o', ho', hkind, hlists⟩ := h.access_lineup hi
      have hlength : is'.length = is.length ∧ o'.Lists is.length is' ∧
          moved = decide (o.byAccess ∧ is.getLast? ≠ some i) := by
        by_cases hmoves : o.byAccess ∧ is.getLast? ≠ some i
        · rw [if_pos hmoves] at heq hlists
          obtain ⟨rfl, rfl⟩ := Prod.mk.inj (Option.some.inj heq)
          exact ⟨hlists.length_eq, hlists, (decide_eq_true hmoves).symm⟩
        · rw [if_neg hmoves] at heq hlists
          obtain ⟨rfl, rfl⟩ := Prod.mk.inj (Option.some.inj heq)
          exact ⟨rfl, hlists, (decide_eq_false hmoves).symm⟩
      obtain ⟨hlength, hlists, rfl⟩ := hlength
      refine ⟨o', ?_, hkind, hlength.symm ▸ hlists⟩
      rw [change, ho', hlength]
      rfl
  | erase i =>
      obtain ⟨hi, heq⟩ := Option.ite_none_right_eq_some.mp happly
      obtain ⟨rfl, rfl⟩ := Prod.mk.inj (Option.some.inj heq)
      obtain ⟨o', ho', hkind, hlists⟩ := h.erase_lineup hlinked hi
      refine ⟨o', ?_, hkind, hlists.length_eq.symm ▸ hlists⟩
      rw [change, ho', hlists.length_eq]
      rfl
  | clear =>
      obtain ⟨rfl, rfl⟩ := Prod.mk.inj (Option.some.inj happly)
      exact ⟨o.cleared, rfl, cleared_sameKind o, lists_cleared o⟩

/-- Any number of changes. -/
theorem Lists.changeAll_eq {changes : List Change} {moves : List Bool} (hlinked : o.isDense = false)
    (h : o.Lists is.length is) (hrun : Lineup.run o.byAccess changes is = some (moves, is')) :
    ∃ o', changeAll changes o is.length = .ok (moves, o', is'.length) ∧ o.SameKind o' ∧ o'.Lists is'.length is' := by
  induction changes generalizing o is moves with
  | nil =>
      obtain ⟨rfl, rfl⟩ := Prod.mk.inj (Option.some.inj hrun)
      exact ⟨o, rfl, .refl o, h⟩
  | cons c changes ih =>
      obtain ⟨⟨moved, is₁⟩, happly, hrun⟩ := Option.bind_eq_some_iff.mp hrun
      dsimp only at hrun
      obtain ⟨⟨rest, is₂⟩, hrest, heq⟩ := Option.bind_eq_some_iff.mp hrun
      obtain ⟨rfl, rfl⟩ := Prod.mk.inj (Option.some.inj heq)
      obtain ⟨o₁, ho₁, hkind, hlists⟩ := h.change_eq hlinked happly
      rw [← hkind.1] at hrest
      obtain ⟨o', ho', hkind', hlists'⟩ := ih (hkind.2.trans hlinked) hlists hrest
      refine ⟨o', ?_, ⟨hkind'.1.trans hkind.1, hkind'.2.trans hkind.2⟩, hlists'⟩
      rw [changeAll, ho₁, Checked.ok_bind]
      dsimp only
      rw [ho']
      rfl

end Step

/-! ## Runs -/

/-- What can be seen of an order that traverses a lineup. -/
structure Follows (o : Order) (is : Lineup) : Prop where
  perm : is.Perm (List.range is.length)
  forward : o.forward is.length = .ok is
  backward : o.backward is.length = .ok is.reverse
  /-- A use that does not move its entry leaves the order as it is. -/
  still : ∀ {i}, i < is.length → ¬(o.byAccess ∧ is.getLast? ≠ some i) → o.access i = .ok (false, o)
  /-- A traversal that has come to an index goes on with the next one, and still does, by its new name, when the entry
      at that index is removed. -/
  resume : ∀ {as r bs}, is = as ++ r :: bs → o.next r is.length = .ok bs.head? ∧
    o.resume bs.head? r (is.length - 1) = bs.head?.map (reindex r (is.length - 1))

/-- An order that traverses a lineup shows it from both ends. -/
theorem Lists.follows {o : Order} {is : Lineup} (hlinked : o.isDense = false) (h : o.Lists is.length is) :
    o.Follows is where
  perm := h.perm
  forward := h.forward_eq
  backward := h.backward_eq
  still := by
    intro i hi hstill
    obtain ⟨o', ho', -⟩ := h.access_lineup hi
    rw [decide_eq_false hstill] at ho'
    rw [ho', eq_of_access ho']
  resume := by
    rintro as r bs rfl
    have hresume := h.resume_eq
    rw [hlinked] at hresume
    exact ⟨h.next_eq, hresume⟩

/-- The entries that a traversal in dense order has not passed when it comes to `r`, by the names that they have once
    the entry at `r` is removed. -/
def unpassed (r n : Nat) : List Nat := ((List.range n).filter (r < ·)).map (reindex r (n - 1))

/-- What has not been passed are the entries behind the removed one, under their new names. -/
theorem mem_unpassed {n r k : Nat} : k ∈ unpassed r n ↔ ∃ m, r < m ∧ m < n ∧ reindex r (n - 1) m = k := by
  simp only [unpassed, List.mem_map, List.mem_filter, List.mem_range, decide_eq_true_eq]
  exact ⟨fun ⟨m, ⟨hn, hr⟩, hk⟩ => ⟨m, hr, hn, hk⟩, fun ⟨m, hr, hn, hk⟩ => ⟨m, ⟨hn, hr⟩, hk⟩⟩

/-- The least of these names is the one that became free, if it was taken over. -/
theorem min?_unpassed {n r : Nat} (hr : r < n) : (unpassed r n).min? = if r = n - 1 then none else some r := by
  split
  · next hlast =>
    rw [List.min?_eq_none_iff, List.eq_nil_iff_forall_not_mem]
    intro k hk
    obtain ⟨m, hrm, hmn, -⟩ := mem_unpassed.mp hk
    omega
  · next hlast =>
    -- the last entry has come to `r`, and all others stand behind it
    refine List.min?_eq_some_iff.mpr ⟨mem_unpassed.mpr ⟨n - 1, by omega, by omega, reindex_last r _⟩, ?_⟩
    intro k hk
    obtain ⟨m, hrm, hmn, rfl⟩ := mem_unpassed.mp hk
    by_cases hm : m = n - 1
    · exact Nat.le_of_eq (by rw [hm, reindex_last])
    · rw [reindex_of_ne hm]
      exact Nat.le_of_lt hrm

/-- In dense order a traversal goes on with the entry that took the place of the removed one, if there is one, and that
    is the next that it has not passed. -/
theorem dense_resume {n r : Nat} (hr : r < n) :
    ∃ upcoming, dense.next r n = .ok upcoming ∧
      dense.resume upcoming r (n - 1) = (if r = n - 1 then none else some r) ∧
      dense.resume upcoming r (n - 1) = (unpassed r n).min? := by
  have hresume : dense.resume (if r + 1 < n then some (r + 1) else none) r (n - 1) =
      if r = n - 1 then none else some r := by
    rw [resume]
    split
    · exact if_neg (by omega)
    · rfl
  exact ⟨_, rfl, hresume, hresume.trans (min?_unpassed hr).symm⟩

/-- However a linked order came about, it traverses what the lineup has become, and a removal in the middle of a
    traversal leaves the rest of it. A dense order needs no links for that. -/
theorem run_follows_lineup :
    (∀ {byAccess : Bool} {changes : List Change} {moves : List Bool} {is : Lineup},
      Lineup.run byAccess changes [] = some (moves, is) →
        ∃ o, changeAll changes (ofMode byAccess) 0 = .ok (moves, o, is.length) ∧ o.byAccess = byAccess ∧
          o.isDense = false ∧ o.Follows is) ∧
      ∀ {n r : Nat}, r < n → ∃ upcoming, dense.next r n = .ok upcoming ∧
        dense.resume upcoming r (n - 1) = (if r = n - 1 then none else some r) ∧
        dense.resume upcoming r (n - 1) = (unpassed r n).min? := by
  constructor
  · intro byAccess changes moves is hrun
    have hempty : (ofMode byAccess).Lists ([] : Lineup).length [] := (Fresh.linked byAccess).lists
    obtain ⟨o, ho, hkind, hlists⟩ := hempty.changeAll_eq rfl hrun
    exact ⟨o, ho, hkind.1, hkind.2, hlists.follows hkind.2⟩
  · intro n r hr
    exact dense_resume hr

/-- A use moves the first of five entries to the end, and a removal from the middle renames it there. The fourth entry
    of a traversal is then the one to go on with after the third is removed, whatever comes after. -/
theorem run_follows_lineup_renamed :
    Lineup.run true [.push, .push, .push, .push, .push, .access 0, .erase 1, .access 0] [] =
        some ([false, false, false, false, false, true, false, false], [2, 3, 1, 0]) ∧
      (∃ o, changeAll [.push, .push, .push, .push, .push, .access 0, .erase 1, .access 0] (ofMode true) 0 =
          .ok ([false, false, false, false, false, true, false, false], o, 4) ∧ o.Follows [2, 3, 1, 0] ∧
        o.next 2 4 = .ok (some 3) ∧ o.resume (some 3) 2 3 = some 2) ∧
      2 < 4 ∧ ∃ upcoming, dense.next 2 4 = .ok upcoming ∧ dense.resume upcoming 2 3 = some 2 := by
  obtain ⟨hlinked, hdense⟩ := run_follows_lineup
  have hrun : Lineup.run true [.push, .push, .push, .push, .push, .access 0, .erase 1, .access 0] [] =
      some ([false, false, false, false, false, true, false, false], [2, 3, 1, 0]) := by decide
  obtain ⟨o, ho, -, -, hfollows⟩ := hlinked hrun
  obtain ⟨hnext, hresume⟩ := hfollows.resume (show [2, 3, 1, 0] = [] ++ 2 :: [3, 1, 0] from rfl)
  obtain ⟨upcoming, hupcoming, hresume', -⟩ := hdense (show 2 < 4 by decide)
  exact ⟨hrun, ⟨o, ho, hfollows, hnext, hresume⟩, by decide, upcoming, hupcoming, hresume'⟩

end Order

end DenseHash
