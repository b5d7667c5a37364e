import DenseHash.Listing
import DenseHash.Proofs.Entries
import DenseHash.Proofs.Order

/-!
# Listings, split at an entry

A listing says where an entry is by its position. The proofs say it by what stands before it and what stands
behind it, and the lemmas here lead from one to the other.

`Listing.changes` counts the changes of structure that an operation makes, as far as they can be seen in a
listing: a new key, a removal, a move in the order of use, emptying.
-/

namespace DenseHash

variable {K V : Type}

/-! ## At a position -/

section Split

variable {l : Listing K V} {as bs : List (K × V)} {p : K × V}

/-- A removal in the middle: what is behind the gap closes up. -/
theorem Listing.removeAt_length (hl : l.pairs = as ++ p :: bs) :
    l.removeAt as.length = { l with pairs := as ++ closeUp l.packed bs } := by
  have hdrop : as.drop (as.length + 1) = [] := List.drop_eq_nil_of_le (Nat.le_succ _)
  rw [removeAt, closeUp]
  cases l.packed with
  | true =>
      rw [if_pos rfl, if_pos rfl, hl, List.take_left' rfl, List.drop_append, hdrop]
      simp
  | false =>
      rw [if_neg Bool.false_ne_true, if_neg Bool.false_ne_true, hl, List.eraseIdx_append_of_length_le
        (Nat.le_refl _)]
      simp

theorem Listing.removeAt_nil (hl : l.pairs = []) (i : Nat) : l.removeAt i = l := by
  obtain ⟨pairs, packed, byAccess⟩ := l
  obtain rfl : pairs = [] := hl
  cases packed <;> simp [removeAt, lastFirst]

/-- A use of an entry in the middle. -/
theorem Listing.use_length (hl : l.pairs = as ++ p :: bs) (p' : K × V) :
    l.use as.length p' = { l with pairs := used l.byAccess as p' bs } := by
  rw [use, used]
  cases l.byAccess with
  | true =>
      rw [if_pos rfl, if_pos rfl, hl, List.eraseIdx_append_of_length_le (Nat.le_refl _)]
      simp
  | false =>
      rw [if_neg Bool.false_ne_true, if_neg Bool.false_ne_true, hl]
      simp

/-- A use of the entry at a position changes the structure if the entry moves. -/
def Listing.useChanges (l : Listing K V) (i : Nat) : Nat := (l.byAccess && i + 1 != l.pairs.length).toNat

/-- A use changes something if the order is by use and something is behind the entry. -/
theorem Listing.useChanges_length (hl : l.pairs = as ++ p :: bs) :
    l.useChanges as.length = (l.byAccess && !bs.isEmpty).toNat := by
  rw [useChanges]
  rw [hl, List.length_append, List.length_cons]
  cases bs with
  | nil => simp
  | cons b bs =>
      have hne : (as.length + 1 != as.length + ((b :: bs).length + 1)) = true := by simp
      rw [hne]
      cases l.byAccess <;> rfl

end Split

/-! ## How a listing removes and uses -/

namespace Listing

/-- Both remove and use in the same way. -/
structure SameKind (l l' : Listing K V) : Prop where
  packed : l'.packed = l.packed
  byAccess : l'.byAccess = l.byAccess

theorem SameKind.refl (l : Listing K V) : l.SameKind l := ⟨rfl, rfl⟩

theorem SameKind.trans {l l' l'' : Listing K V} (h : l.SameKind l') (h' : l'.SameKind l'') : l.SameKind l'' :=
  ⟨h'.packed.trans h.packed, h'.byAccess.trans h.byAccess⟩

theorem sameKind_removeAt (l : Listing K V) (i : Nat) : l.SameKind (l.removeAt i) := by
  rw [removeAt]
  split <;> exact ⟨rfl, rfl⟩

/-- An insertion leaves the kind of listing as it is. -/
theorem sameKind_insert [BEq K] (l : Listing K V) (key : K) (value : V) :
    l.SameKind (l.insert key value).2 := by
  rw [insert]
  cases l.locate? key <;> exact ⟨rfl, rfl⟩

end Listing

/-! ## Looking up -/

variable [BEq K]

/-- Either some entry has a key, or none has. -/
theorem split_or_missing (ps : List (K × V)) (key : K) :
    (∃ as stored value bs, ps = as ++ (stored, value) :: bs ∧ (stored == key) = true) ∨
      ∀ p ∈ ps, (p.1 == key) = false := by
  cases hfind : ps.find? fun p => p.1 == key with
  | some p =>
      obtain ⟨hkey, as, bs, rfl, -⟩ := List.find?_eq_some_iff_append.mp hfind
      exact .inl ⟨as, p.1, p.2, bs, rfl, hkey⟩
  | none => exact .inr fun p hp => Bool.eq_false_iff.mpr (List.find?_eq_none.mp hfind p hp)

namespace DistinctKeys

variable [EquivBEq K] {as bs : List (K × V)} {stored key : K} {value : V}

/-- If an entry has a key, none before it has. -/
theorem before (h : DistinctKeys (as ++ (stored, value) :: bs)) (hkey : (stored == key) = true) :
    ∀ p ∈ as, (p.1 == key) = false := by
  intro p hp
  refine Bool.eq_false_iff.mpr fun hpk => ?_
  have hne := (List.pairwise_append.mp h).2.2 p hp _ List.mem_cons_self
  rw [BEq.trans hpk (BEq.symm hkey)] at hne
  exact nomatch hne

/-- Where keys are distinct, searching from the front finds the entry that has the key. -/
theorem find?_eq (h : DistinctKeys (as ++ (stored, value) :: bs)) (hkey : (stored == key) = true) :
    (as ++ (stored, value) :: bs).find? (fun p => p.1 == key) = some (stored, value) := by
  refine List.find?_eq_some_iff_append.mpr ⟨hkey, as, bs, rfl, fun p hp => ?_⟩
  rw [h.before hkey p hp]
  rfl

/-- Searching for the place finds the one where the key stands. -/
theorem findIdx?_eq (h : DistinctKeys (as ++ (stored, value) :: bs)) (hkey : (stored == key) = true) :
    (as ++ (stored, value) :: bs).findIdx? (fun p => p.1 == key) = some as.length := by
  have hnone : as.findIdx? (fun p => p.1 == key) = none :=
    List.findIdx?_eq_none_iff.mpr fun p hp => h.before hkey p hp
  rw [List.findIdx?_append, hnone, List.findIdx?_cons, if_pos hkey]
  simp

end DistinctKeys

namespace Listing

variable {l : Listing K V} {as bs : List (K × V)} {stored key : K} {value : V}

section Present

variable [EquivBEq K]

theorem entry?_eq_some (hd : DistinctKeys l.pairs) (hl : l.pairs = as ++ (stored, value) :: bs)
    (hkey : (stored == key) = true) : l.entry? key = some (stored, value) := by
  rw [hl] at hd
  rw [Listing.entry?, hl, hd.find?_eq hkey]

/-- A key that some entry has is located there. -/
theorem locate?_eq_some (hd : DistinctKeys l.pairs) (hl : l.pairs = as ++ (stored, value) :: bs)
    (hkey : (stored == key) = true) : l.locate? key = some (as.length, stored, value) := by
  rw [hl] at hd
  rw [locate?, hl, hd.findIdx?_eq hkey]
  simp

end Present

theorem entry?_eq_none (h : ∀ p ∈ l.pairs, (p.1 == key) = false) : l.entry? key = none := by
  refine List.find?_eq_none.mpr fun p hp => ?_
  rw [h p hp]
  exact Bool.false_ne_true

/-- A key that no entry has is not located. -/
theorem locate?_eq_none (h : ∀ p ∈ l.pairs, (p.1 == key) = false) : l.locate? key = none := by
  rw [locate?, List.findIdx?_eq_none_iff.mpr h]
  rfl

/-- A key is located where it stands, or is not there. -/
theorem locate?_cases [EquivBEq K] (hd : DistinctKeys l.pairs) (key : K) :
    (∃ as stored value bs, l.pairs = as ++ (stored, value) :: bs ∧ (stored == key) = true ∧
        l.locate? key = some (as.length, stored, value)) ∨
      (∀ p ∈ l.pairs, (p.1 == key) = false) ∧ l.locate? key = none := by
  rcases split_or_missing l.pairs key with ⟨as, stored, value, bs, hl, hkey⟩ | hmissing
  · exact .inl ⟨as, stored, value, bs, hl, hkey, locate?_eq_some hd hl hkey⟩
  · exact .inr ⟨hmissing, locate?_eq_none hmissing⟩

/-! ## Changes of structure -/

/-- A new key changes the structure, and so does an entry that moves. -/
def insertChanges (l : Listing K V) (key : K) : Nat :=
  match l.locate? key with
  | some (i, _) => l.useChanges i
  | none => 1

/-- The changes of structure that insertions one after the other make. -/
def extendChanges : List (K × V) → Listing K V → Nat
  | [], _ => 0
  | (key, value) :: pairs, l => l.insertChanges key + extendChanges pairs (l.insert key value).2

/-- The changes of structure that an operation makes. The move to the fallback is none of a listing's. -/
def changes (op : Operation K V) (l : Listing K V) : Nat :=
  match op with
  | .insert key _ => l.insertChanges key
  | .get key | .modify key _ =>
    match l.locate? key with
    | some (i, _) => l.useChanges i
    | none => 0
  | .remove key => if (l.entry? key).isSome then 1 else 0
  | .popFirst | .popLast => if l.pairs.isEmpty then 0 else 1
  | .retain _ => l.pairs.length - (l.apply op).2.pairs.length
  | .extend _ pairs => extendChanges pairs l
  | .drain | .clear => 1
  | _ => 0

end Listing

end DenseHash
