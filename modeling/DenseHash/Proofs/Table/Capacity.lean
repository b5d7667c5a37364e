import DenseHash.Proofs.Table.Buckets

/-!
# Entries within the capacity

A table is *roomy* if its entries are within its capacity, unless it has as many buckets as there can be. Every change
keeps it so, refused or not: what is rebuilt gets the buckets that its entries need, and only the largest table is ever
too full to grow (`Roomy.buckets_eq`), because half of its buckets would take fewer entries.
-/

namespace DenseHash

namespace Table

variable {K V : Type} [BEq K] {t t' : Table K V} {hash : UInt32} {key : K} {value : V}

/-- The table has room for its entries, unless there is no larger one. -/
structure Roomy (t : Table K V) : Prop where
  intact : t.Intact
  isLoad : t.loadFactor.IsLoad
  within : t.buckets < maxBuckets → t.size ≤ t.capacity

namespace Roomy

/-- Only the largest table refuses a key. -/
theorem buckets_eq (h : t.Roomy) (hrefuses : t.Refuses hash key) : t.buckets = maxBuckets := by
  obtain ⟨hb, -, hfull⟩ := hrefuses
  obtain ⟨is, hs⟩ := h.intact
  obtain ⟨k, hk30, hk⟩ := hs.exists_two_pow hb
  by_contra hne
  have hlt : t.buckets < maxBuckets := Nat.lt_of_le_of_ne hs.bounded hne
  have hk29 : k < 30 := (Nat.pow_lt_pow_iff_right (by decide)).mp (hk ▸ hlt)
  have hwithin := h.within hlt
  have hmono := capacityOf_mono h.isLoad (Nat.le_of_lt_succ hk29) (by decide)
  have hdouble : capacityOf (2 ^ 29) t.loadFactor < capacityOf (2 ^ 30) t.loadFactor :=
    capacityOf_lt_double h.isLoad (by decide) (by decide)
  rw [capacity, if_neg hb, hk] at hwithin
  rw [maxBuckets_eq] at hfull
  omega

/-- What happens at single entries. -/
theorem of_addsNothing (h : t.Roomy) (ht : t.AddsNothing t') : t'.Roomy where
  intact := ht.intact
  isLoad := ht.keeps.loadFactor ▸ h.isLoad
  within := by
    intro hlt
    have hcapacity : t'.capacity = t.capacity := by rw [capacity, capacity, ht.buckets, ht.keeps.loadFactor]
    rw [hcapacity]
    exact ht.size_le.trans (h.within (ht.buckets ▸ hlt))

/-! ## Rebuilding -/

/-- A table that was rebuilt for its entries has room for them. -/
theorem refits (h : t.Roomy) (hrefits : t.Refits t') (halike : t.Alike t') (hkeeps : t.Keeps t')
    (hintact : t'.Intact) : t'.Roomy := by
  rcases hrefits.room (size_congr halike.content) hkeeps.loadFactor with rfl | ⟨hroom, -⟩
  · exact h
  · exact ⟨hintact, hkeeps.loadFactor ▸ h.isLoad, fun _ => hroom⟩

/-- Making room keeps a table roomy, refused or not. -/
theorem reserve (h : t.Roomy) (more : Nat) : (t.reserve more).Leaves Roomy := by
  obtain ⟨is, hs⟩ := h.intact
  by_cases hb : t.buckets = 0
  · rw [reserve_unallocated hb]
    exact ⟨⟨is, hs.expect _⟩, h.isLoad, h.within⟩
  · obtain ⟨halike, hsound⟩ := hs.reserve_leaves more
    exact h.refits (reserve_refits hs.small hb more) halike (reserve_keeps hb more) ⟨is, hsound⟩

/-- Shrinking keeps a table roomy, refused or not. -/
theorem shrink (h : t.Roomy) : t.shrink.Leaves Roomy := by
  obtain ⟨is, hs⟩ := h.intact
  obtain ⟨halike, hsound⟩ := hs.shrink_leaves
  by_cases hsize : t.size = 0
  · refine ⟨⟨is, hsound⟩, t.shrink_loadFactor ▸ h.isLoad, fun _ => ?_⟩
    rw [size_congr halike.content, hsize]
    exact Nat.zero_le _
  · exact h.refits (shrink_refits hsize) halike (shrink_keeps hsize) ⟨is, hsound⟩

/-! ## Inserting -/

variable [EquivBEq K]

/-- An insertion keeps a table roomy: it grows the table when the entries go beyond its capacity, unless it is the largest one. -/
theorem insert (h : t.Roomy) (hash : UInt32) (key : K) (value : V) : (t.insert hash key value).Leaves Roomy := by
  obtain ⟨is, hs⟩ := h.intact
  have hintact : (t.insert hash key value).state.Intact := h.intact.insert_leaves hash key value
  have hlf := (t.insert_keeps hash key value).loadFactor ▸ h.isLoad
  cases hresult : (t.insert hash key value).result with
  | error f =>
      by_cases hb : t.buckets = 0
      · rw [Reply.Leaves, hs.insert_refused_unallocated h.isLoad hb hresult]
        exact h
      · rw [Table.insert, allocate_of_ne hb] at hresult hintact hlf ⊢
        obtain ⟨-, hrefuses, ⟨-, hstate⟩ | hover⟩ := hs.insertAllocated_refused hb h.isLoad hresult
        · show Roomy (t.insertAllocated hash key value).state
          rw [hstate]
          exact h
        · have hlargest := h.buckets_eq hrefuses
          exact ⟨hintact, hlf, fun hlt => absurd (hover.buckets.trans hlargest) (Nat.ne_of_lt hlt)⟩
  | ok outcome =>
      cases outcome with
      | updated old moved => exact h.of_addsNothing (hs.insert_updated hresult)
      | added chain resized => exact ⟨hintact, hlf, fun _ => hs.insert_room hresult⟩

end Roomy

end Table

end DenseHash
