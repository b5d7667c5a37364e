import DenseHash.Proofs.Listing

/-!
# Visiting a list that shrinks

`Listing.sift` takes one entry after the other from the front of a list. `Listing.walk` stays at a position of a
listing instead: an entry that is kept is passed, one that is dropped is removed where it stands. They are the
same, for removal that is packed and for removal in place.
-/

namespace DenseHash

namespace Listing

variable {K V σ : Type}

/-! ## Sifting -/

section Sift

variable {packed : Bool} {keep : σ → K → V → σ × V × Bool} {state state' : σ} {key : K} {value value' : V}
  {rest : List (K × V)}

/-- An entry that is kept stays with the value that it got. -/
theorem sift_keep (h : keep state key value = (state', value', true)) :
    sift packed keep state ((key, value) :: rest) =
      ((key, value') :: (sift packed keep state' rest).1, (sift packed keep state' rest).2) := by
  rw [sift, h]
  rfl

/-- An entry that is not kept goes, and the rest closes up. -/
theorem sift_drop (h : keep state key value = (state', value', false)) :
    sift packed keep state ((key, value) :: rest) = sift packed keep state' (closeUp packed rest) := by
  rw [sift, h]
  rfl

/-- Closing up keeps the number of entries. -/
theorem length_closeUp {α : Type} (packed : Bool) (as : List α) : (closeUp packed as).length = as.length :=
  (closeUp_perm packed as).length_eq

/-- A sift sees one entry and goes on with the others, which close up if the entry goes. -/
theorem sift_induction {P : σ → List (K × V) → Prop} (packed : Bool) (keep : σ → K → V → σ × V × Bool)
    (nil : ∀ state, P state [])
    (stays : ∀ state key value state' value' rest, keep state key value = (state', value', true) →
      P state' rest → P state ((key, value) :: rest))
    (goes : ∀ state key value state' value' rest, keep state key value = (state', value', false) →
      P state' (closeUp packed rest) → P state ((key, value) :: rest))
    (state : σ) (ps : List (K × V)) : P state ps := by
  induction hn : ps.length generalizing state ps with
  | zero =>
      obtain rfl := List.length_eq_zero_iff.mp hn
      exact nil state
  | succ n ih =>
      obtain ⟨⟨key, value⟩, rest, rfl⟩ := List.exists_cons_of_length_eq_add_one hn
      replace hn : rest.length = n := Nat.succ.inj hn
      obtain ⟨state', value', kept, hkeep⟩ : ∃ a b c, keep state key value = (a, b, c) := ⟨_, _, _, rfl⟩
      cases kept with
      | true => exact stays state key value state' value' rest hkeep (ih state' rest hn)
      | false =>
          have hlength : (closeUp packed rest).length = n := (length_closeUp packed rest).trans hn
          exact goes state key value state' value' rest hkeep (ih state' _ hlength)

end Sift

/-! ## Walking -/

/-- A removal takes one entry away. -/
theorem length_removeAt {l : Listing K V} {i : Nat} (hi : i < l.pairs.length) :
    (l.removeAt i).pairs.length + 1 = l.pairs.length := by
  obtain ⟨as, p, bs, hl, rfl⟩ : ∃ as p bs, l.pairs = as ++ p :: bs ∧ as.length = i :=
    ⟨l.pairs.take i, l.pairs[i], l.pairs.drop (i + 1), by simp, by simp; omega⟩
  rw [removeAt_length hl, hl, List.length_append, length_closeUp, List.length_append, List.length_cons]
  rfl

/-- Visits the entries from a position on, where the ones that are dropped are removed. -/
def walk (keep : σ → K → V → σ × V × Bool) (state : σ) (i : Nat) (l : Listing K V) : Listing K V × σ :=
  if h : i < l.pairs.length then
    let (key, value) := l.pairs[i]
    let (state, value, stays) := keep state key value
    if stays then walk keep state (i + 1) { l with pairs := l.pairs.set i (key, value) }
    else walk keep state i (l.removeAt i)
  else (l, state)
termination_by l.pairs.length - i
decreasing_by
  · rw [List.length_set]
    omega
  · have := length_removeAt h
    omega

/-- What was passed stays, and behind it is what a sift leaves of the rest. -/
theorem walk_eq_sift (keep : σ → K → V → σ × V × Bool) (state : σ) {l : Listing K V} {as bs : List (K × V)}
    (hl : l.pairs = as ++ bs) :
    walk keep state as.length l =
      ({ l with pairs := as ++ (sift l.packed keep state bs).1 }, (sift l.packed keep state bs).2) := by
  obtain ⟨packed, hpacked⟩ : ∃ packed, l.packed = packed := ⟨_, rfl⟩
  rw [hpacked]
  induction state, bs using sift_induction packed keep generalizing l as with
  | nil state =>
      have hend : ¬ as.length < l.pairs.length := by simp [hl]
      rw [walk, dif_neg hend, sift, ← hl, ← hpacked]
  | stays state key value state' value' rest hkeep ih =>
      have hin : as.length < l.pairs.length := by simp [hl]
      have hget : l.pairs[as.length] = (key, value) := by simp [hl]
      have hset : l.pairs.set as.length (key, value') = (as ++ [(key, value')]) ++ rest := by simp [hl]
      -- the entry that stays joins those passed
      have hnext := ih (l := { l with pairs := l.pairs.set as.length (key, value') }) hset hpacked
      rw [List.length_append, List.length_singleton, List.append_assoc] at hnext
      rw [walk, dif_pos hin, hget]
      dsimp only
      rw [hkeep]
      dsimp only
      rw [if_pos rfl, hnext, sift_keep hkeep]
      rfl
  | goes state key value state' value' rest hkeep ih =>
      have hin : as.length < l.pairs.length := by simp [hl]
      have hget : l.pairs[as.length] = (key, value) := by simp [hl]
      have hclosed : l.removeAt as.length = { l with pairs := as ++ closeUp packed rest } :=
        hpacked ▸ removeAt_length hl
      have hnext := ih (l := { l with pairs := as ++ closeUp packed rest }) rfl hpacked
      rw [walk, dif_pos hin, hget]
      dsimp only
      rw [hkeep]
      dsimp only
      rw [if_neg Bool.false_ne_true, hclosed, hnext, sift_drop hkeep]

/-- Retaining is a walk from the start, with a visitor that sees all it has seen before. -/
theorem apply_retain [BEq K] (keep : List (K × V) → K → V → V × Bool) (l : Listing K V) :
    l.apply (.retain keep) =
      (.pairs (l.walk (fun seen key value => ((key, value) :: seen, keep seen key value)) [] 0).2.reverse,
        (l.walk (fun seen key value => ((key, value) :: seen, keep seen key value)) [] 0).1) := by
  have hwalk := walk_eq_sift (fun seen key value => ((key, value) :: seen, keep seen key value)) []
    (List.nil_append l.pairs).symm
  rw [List.length_nil] at hwalk
  rw [hwalk]
  rfl

end Listing

end DenseHash
