import DenseHash.Cursor.Basic
import DenseHash.Proofs.Lookup
import DenseHash.Proofs.Sift

/-!
# Which keys are there

Which keys are there after an operation follows from which keys were there before and from what the operation
answered: an insertion adds its key, a removal takes out its key or the one that it returned, and a visitor decides
about the entries that it was shown. `Operation.presence` says so without a look at any list. `Listing.present_apply`
is that it is right about listings that close up in place.
-/

namespace DenseHash

variable {K V : Type} [BEq K]

/-! ## Before and after -/

/-- The keys that were there, without one. -/
def without (present : K → Bool) (key : K) : K → Bool := fun k => present k && !(key == k)

/-- What a visitor that is shown these entries, one after the other, lets stay. -/
def spared (keep : List (K × V) → K → V → V × Bool) (shown : List (K × V)) : List (K × V) :=
  (Listing.sift false (fun seen key value => ((key, value) :: seen, keep seen key value)) [] shown).1

/-- The keys that are there after an operation with this answer, where some keys were there before. -/
def Operation.presence (present : K → Bool) : Operation K V → Answer K V → K → Bool
  | .insert key _, _ => fun k => present k || key == k
  | .extend _ pairs, _ => fun k => present k || pairs.any fun p => p.1 == k
  | .remove key, _ => without present key
  | .popFirst, .pair (some p) | .popLast, .pair (some p) => without present p.1
  | .retain keep, .pairs shown => fun k => (spared keep shown).any fun p => p.1 == k
  | .drain, _ | .clear, _ => fun _ => false
  | _, _ => present

/-- The keys that are there after a removal through a cursor that ended like this. -/
def presenceRemoved (present : K → Bool) : Checked (Except CursorError (K × V)) → K → Bool
  | .ok (.ok p) => without present p.1
  | _ => present

/-! ## The keys of a listing -/

namespace Listing

/-- Whether a key is listed. -/
def present (l : Listing K V) (key : K) : Bool := l.pairs.any fun p => p.1 == key

variable {l l' : Listing K V} {as bs : List (K × V)} {p : K × V} {stored key : K} {value : V}

/-- A key that no entry has is not present. -/
theorem present_of_missing (h : ∀ p ∈ l.pairs, (p.1 == key) = false) : l.present key = false := by
  simpa [present] using h

/-- A key that some entry has is present. -/
theorem present_of_split (hl : l.pairs = as ++ (stored, value) :: bs) (hkey : (stored == key) = true) :
    l.present key = true := by
  simp [present, hl, hkey]

/-- A key is listed if the listing has an entry for it. -/
theorem present_eq (l : Listing K V) : l.present = fun key => (Lookup.ofPairs l.pairs key).isSome := by
  funext key
  rw [present, Lookup.ofPairs, List.isSome_find?]

/-- Values do not matter. -/
theorem present_of_keys (h : l'.pairs.map Prod.fst = l.pairs.map Prod.fst) : l'.present = l.present := by
  funext key
  have hany (ps : List (K × V)) : (ps.any fun p => p.1 == key) = (ps.map Prod.fst).any fun k => k == key := by
    rw [List.any_map]
    rfl
  rw [present, present, hany, hany, h]

omit [BEq K] in
/-- Revising changes values. -/
theorem revise_keys (change : K → V → V) (moves : List Move) (ps : List (K × V)) :
    (revise change moves ps).2.map Prod.fst = ps.map Prod.fst := by
  induction moves generalizing ps with
  | nil => rfl
  | cons move moves ih =>
      cases move with
      | front =>
          cases ps with
          | nil => exact ih []
          | cons p rest => exact congrArg (p.1 :: ·) (ih rest)
      | back =>
          rcases List.eq_nil_or_concat' ps with rfl | ⟨front, p, rfl⟩
          · exact ih []
          · rw [revise, List.getLast?_concat, List.dropLast_concat]
            simp [ih front]
      | length => exact ih ps
      | bounds => exact ih ps
      | copy => exact ih ps
      | rest => simp [revise, Function.comp_def]

omit [BEq K] in
/-- Where nothing closes up, a visitor sees the entries in their order. -/
theorem sift_shown (keep : List (K × V) → K → V → V × Bool) (seen ps : List (K × V)) :
    (sift false (fun seen key value => ((key, value) :: seen, keep seen key value)) seen ps).2 =
      ps.reverse ++ seen := by
  induction seen, ps using sift_induction false
    fun seen key value => ((key, value) :: seen, keep seen key value) with
  | nil seen => rw [sift, List.reverse_nil, List.nil_append]
  | stays seen key value seen' value' rest hvisit ih =>
      rw [sift_keep hvisit]
      dsimp only
      rw [ih, ← (Prod.mk.inj hvisit).1, List.reverse_cons, List.append_assoc]
      rfl
  | goes seen key value seen' value' rest hvisit ih =>
      rw [sift_drop hvisit, ih, ← (Prod.mk.inj hvisit).1, List.reverse_cons, List.append_assoc]
      rfl

/-! ## One operation -/

/-- An entry is used. -/
theorem present_use (hl : l.pairs = as ++ (stored, value) :: bs) (new : V) :
    (l.use as.length (stored, new)).present = l.present := by
  funext key
  rw [use_length hl, present, (used_perm l.byAccess as (stored, new) bs).any_eq, present, hl]
  simp

variable [EquivBEq K]

/-- One entry is taken out, and the others stay, in whatever order. -/
theorem present_removed (hd : DistinctKeys l.pairs) (hl : l.pairs = as ++ (stored, value) :: bs) (packed : Bool)
    (hkey : (stored == key) = true) (hl' : l'.pairs = as ++ closeUp packed bs) : l'.present = without l.present key := by
  rw [hl] at hd
  rw [present_eq, present_eq, (Lookup.tracks_removed packed hd hkey hl').pairs, hl]
  funext k
  rw [without, Lookup.erase]
  cases key == k <;> simp

/-- After an insertion the key is there, and otherwise the same keys are. -/
theorem present_insert (hd : DistinctKeys l.pairs) (key : K) (value : V) :
    (l.insert key value).2.present = fun k => l.present k || key == k := by
  rw [present_eq, present_eq, (Lookup.tracks_insert hd key value).1.pairs]
  funext k
  rw [Lookup.insert]
  cases key == k <;> simp

/-- After a bulk load, its keys are present besides those that were. -/
theorem present_insertAll (hd : DistinctKeys l.pairs) (pairs : List (K × V)) :
    (insertAll pairs l).present = fun k => l.present k || pairs.any fun p => p.1 == k := by
  induction pairs generalizing l with
  | nil => simp [insertAll]
  | cons p pairs ih =>
      have hnext := ih (Lookup.tracks_insert hd p.1 p.2).1.distinct
      rw [present_insert hd] at hnext
      show (insertAll pairs (l.insert p.1 p.2).2).present = _
      rw [hnext]
      simp [Bool.or_assoc]

/-- A removal at the position of an entry. -/
theorem present_removeAt (hd : DistinctKeys l.pairs) (hl : l.pairs = as ++ (stored, value) :: bs)
    (hkey : (stored == key) = true) : (l.removeAt as.length).present = without l.present key :=
  present_removed hd hl l.packed hkey (congrArg pairs (removeAt_length hl))

/-- One step: the answer of an operation says which keys are there after it. -/
theorem present_apply (hd : DistinctKeys l.pairs) (hpacked : l.packed = false) (op : Operation K V) :
    (l.apply op).2.present = op.presence l.present (l.apply op).1 := by
  cases op with
  | insert key value => exact present_insert hd key value
  | get key =>
      rcases locate?_cases hd key with ⟨as, stored, value, bs, hl, -, hlocate⟩ | ⟨-, hlocate⟩
      · rw [apply, hlocate]
        exact present_use hl value
      · rw [apply, hlocate]
        rfl
  | modify key change =>
      rcases locate?_cases hd key with ⟨as, stored, value, bs, hl, -, hlocate⟩ | ⟨-, hlocate⟩
      · rw [apply, hlocate]
        exact present_use hl (change value)
      · rw [apply, hlocate]
        rfl
  | remove key =>
      rcases locate?_cases hd key with ⟨as, stored, value, bs, hl, hkey, hlocate⟩ | ⟨hmissing, hlocate⟩
      · rw [apply, hlocate]
        exact present_removeAt hd hl hkey
      · -- a key that is not there can be taken out without a change
        rw [apply, hlocate]
        funext k
        rw [Operation.presence, without]
        cases hk : key == k with
        | false => simp
        | true =>
            rw [present_of_missing fun p hp => (BEq.congr_right hk).symm.trans (hmissing p hp)]
            rfl
  | popFirst =>
      rw [apply]
      cases hl : l.pairs with
      | nil =>
          rw [removeAt_nil hl]
          rfl
      | cons p rest =>
          have hfirst : l.pairs = [] ++ p :: rest := hl
          exact present_removeAt hd hfirst BEq.rfl
  | popLast =>
      rw [apply]
      rcases List.eq_nil_or_concat' l.pairs with hl | ⟨front, p, hl⟩
      · rw [removeAt_nil hl, hl]
        rfl
      · have hlast : l.pairs.length - 1 = front.length := by rw [hl, List.length_append]; rfl
        rw [hlast, hl, List.getLast?_concat]
        exact present_removeAt hd hl BEq.rfl
  | retain keep =>
      rw [apply, hpacked]
      dsimp only
      rw [sift_shown, List.append_nil, List.reverse_reverse]
      rfl
  | extend hint pairs => exact present_insertAll hd pairs
  | revise moves change => exact present_of_keys (revise_keys change moves l.pairs)
  | _ => rfl

end Listing

end DenseHash
