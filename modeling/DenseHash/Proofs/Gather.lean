import DenseHash.Gather
import DenseHash.Proofs.Outcome

/-!
# What gathering finds

An order that visits every place once finds in each what was there at the start: when a place is taken from, no later one is
affected.
-/

namespace DenseHash

variable {ι α σ : Type}

/-- Gathering finds what is in each place, which `g` tells, if taking from one does not affect the others. -/
theorem gather_eq {take : ι → σ → Checked (α × σ)} {g : σ → ι → Option α}
    (htake : ∀ {i a places}, g places i = some a →
      ∃ places', take i places = .ok (a, places') ∧ ∀ j ≠ i, g places' j = g places j)
    {is : List ι} (hnodup : is.Nodup) {places : σ} (hall : ∀ i ∈ is, (g places i).isSome) :
    gather take is places = .ok (is.filterMap (g places)) := by
  induction is generalizing places with
  | nil => rfl
  | cons i is ih =>
      obtain ⟨hi, hnodup⟩ := List.nodup_cons.mp hnodup
      obtain ⟨a, ha⟩ := Option.isSome_iff_exists.mp (hall i List.mem_cons_self)
      obtain ⟨places', htaken, hothers⟩ := htake ha
      have hsame : ∀ j ∈ is, g places' j = g places j := by
        intro j hj
        exact hothers j fun heq => hi (heq ▸ hj)
      have hrest : gather take is places' = .ok (is.filterMap (g places')) := by
        refine ih hnodup fun j hj => ?_
        rw [hsame j hj]
        exact hall j (List.mem_cons_of_mem i hj)
      rw [gather, htaken, Checked.ok_bind]
      dsimp only
      rw [hrest, List.filterMap_congr hsame, List.filterMap_cons_some ha]
      rfl

/-- Taking what is in a place empties this place, and no other. -/
theorem takePlace_eq {i : Nat} {a : α} {places : Array (Option α)} (h : places[i]?.join = some a) :
    ∃ places', takePlace i places = .ok (a, places') ∧ ∀ j ≠ i, places'[j]?.join = places[j]?.join := by
  refine ⟨places.setIfInBounds i none, ?_, fun j hj => ?_⟩
  · rw [takePlace, Option.join_eq_some_iff.mp h]
  · rw [Array.getElem?_setIfInBounds, if_neg (Ne.symm hj)]

/-- Gathering from an array that has something for every index. -/
theorem gather_places {places : Array (Option α)} {is : List Nat} (hnodup : is.Nodup)
    (hall : ∀ i ∈ is, (places[i]?.join).isSome) :
    gather takePlace is places = .ok (is.filterMap fun i => places[i]?.join) :=
  gather_eq (fun h => takePlace_eq h) hnodup hall

end DenseHash
