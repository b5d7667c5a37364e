import DenseHash.Proofs.Listing
import DenseHash.Proofs.Table.Buckets
import DenseHash.Table.Roster

/-!
# Tables refine rosters

A table and a roster have the same entries, by index and in traversal order (`Models`). Both lists of a roster come
about in one way: they read the entries off some indices, and these are in the order of the indices for the one and in
the order of traversal for the other. So each change of a table is followed once, along any order that lists the
indices (`Tracks`), and then used for both lists.
-/

namespace DenseHash

/-- Names are equal if the hashes are the same and the keys are equal. -/
instance equivBEqName {K : Type} [BEq K] [EquivBEq K] : EquivBEq (UInt32 × K) where
  symm := by
    rintro ⟨hash, key⟩ ⟨hash', key'⟩ h
    obtain ⟨hhash, hkey⟩ := Bool.and_eq_true_iff.mp h
    exact Bool.and_eq_true_iff.mpr ⟨BEq.symm hhash, BEq.symm hkey⟩
  trans := by
    rintro ⟨hash, key⟩ ⟨hash', key'⟩ ⟨hash'', key''⟩ h h'
    obtain ⟨hhash, hkey⟩ := Bool.and_eq_true_iff.mp h
    obtain ⟨hhash', hkey'⟩ := Bool.and_eq_true_iff.mp h'
    exact Bool.and_eq_true_iff.mpr ⟨BEq.trans hhash hhash', BEq.trans hkey hkey'⟩

namespace Table

variable {K V : Type} {t t' : Table K V} {o o' : Order} {l : Listing (UInt32 × K) V} {is js as bs : List Nat} {i : Nat}
  {hash : UInt32} {key : K} {value old : V}

/-! ## Rows -/

/-- The name and the value at an index. -/
def rowAt (t : Table K V) : Nat → Option ((UInt32 × K) × V) :=
  Option.map (fun c => ((c.1, c.2.1), c.2.2)) ∘ t.content

theorem rowAt_of_content (hc : t.content i = some (hash, key, value)) : t.rowAt i = some ((hash, key), value) := by
  simp [rowAt, hc]

theorem rowAt_congr (h : t'.content = t.content) : t'.rowAt = t.rowAt := by rw [rowAt, h]; rfl

/-- Changing the content of an index changes its row, and no other. -/
theorem rowAt_update (h : t'.content = Function.update t.content i (some (hash, key, value))) :
    t'.rowAt = Function.update t.rowAt i (some ((hash, key), value)) := by
  rw [rowAt, h, Function.comp_update]
  rfl

/-- Every index of an entry has a row. -/
theorem exists_rowAt (hi : i < t.size) : ∃ row, t.rowAt i = some row := by
  obtain ⟨c, hc⟩ := Option.isSome_iff_exists.mp (content_isSome_iff.mpr hi)
  exact ⟨_, rowAt_of_content hc⟩

/-! ## Listings of rows -/

/-- A listing has the entries of a table in an order, which lists these indices. -/
structure Tracks (t : Table K V) (o : Order) (js : List Nat) (l : Listing (UInt32 × K) V) : Prop where
  lists : o.Lists t.size js
  pairs : l.pairs = js.filterMap t.rowAt
  packed : l.packed = o.isDense
  byAccess : l.byAccess = o.byAccess

namespace Tracks

theorem exists_row (h : t.Tracks o js l) : ∀ i ∈ js, ∃ row, t.rowAt i = some row :=
  fun _ hi => exists_rowAt (h.lists.mem_iff.mp hi)

/-- As many rows as indices. -/
theorem length_filterMap (h : t.Tracks o js l) (hsub : as ⊆ js) : (as.filterMap t.rowAt).length = as.length := by
  refine List.filterMap_length_eq_length.mpr fun i hi => ?_
  obtain ⟨row, hrow⟩ := h.exists_row i (hsub hi)
  rw [hrow]
  rfl

/-- A listing of rows is as long as the table. -/
theorem length_pairs (h : t.Tracks o js l) : l.pairs.length = t.size := by
  rw [h.pairs, h.length_filterMap (List.Subset.refl js), h.lists.length_eq]

/-- A listing, split at an entry, and where the entry stands. -/
theorem split {row : (UInt32 × K) × V} (h : t.Tracks o (as ++ i :: bs) l) (hrow : t.rowAt i = some row) :
    l.pairs = as.filterMap t.rowAt ++ row :: bs.filterMap t.rowAt ∧ (as.filterMap t.rowAt).length = as.length ∧
      (bs.filterMap t.rowAt).isEmpty = bs.isEmpty := by
  refine ⟨h.pairs.trans (filterMap_append_cons hrow), h.length_filterMap (List.subset_append_left _ _), ?_⟩
  refine isEmpty_filterMap fun k hk => h.exists_row k ?_
  simp [hk]

/-- Other links, another order. -/
theorem congr (h : t.Tracks o js l) (hlists : o'.Lists t'.size js) (hkind : o.SameKind o')
    (hcontent : t'.content = t.content) : t'.Tracks o' js l where
  lists := hlists
  pairs := by rw [rowAt_congr hcontent, h.pairs]
  packed := h.packed.trans hkind.2.symm
  byAccess := h.byAccess.trans hkind.1.symm

/-- A value was replaced, and that was a use. -/
theorem use (h : t.Tracks o (as ++ i :: bs) l) (hc : t.content i = some (hash, key, old)) (hkind : o.SameKind o')
    (hcontent : t'.content = Function.update t.content i (some (hash, key, value)))
    (hlists : o'.Lists t'.size (used o.byAccess as i bs)) :
    t'.Tracks o' (used o.byAccess as i bs) (l.use as.length ((hash, key), value)) := by
  obtain ⟨hpairs, hlength, -⟩ := h.split (rowAt_of_content hc)
  have hnot : i ∉ as ++ bs := (List.nodup_middle.mp h.lists.nodup).notMem
  rw [← hlength, Listing.use_length hpairs]
  refine ⟨hlists, ?_, h.packed.trans hkind.2.symm, h.byAccess.trans hkind.1.symm⟩
  rw [rowAt_update hcontent, filterMap_used_update hnot, h.byAccess]

/-- A value was replaced in its place. -/
theorem revalue (h : t.Tracks o (as ++ i :: bs) l) (hc : t.content i = some (hash, key, old))
    (hcontent : t'.content = Function.update t.content i (some (hash, key, value)))
    (hlists : o.Lists t'.size (as ++ i :: bs)) :
    t'.Tracks o (as ++ i :: bs) { l with pairs := l.pairs.set as.length ((hash, key), value) } := by
  obtain ⟨hpairs, hlength, -⟩ := h.split (rowAt_of_content hc)
  have hnot : i ∉ as ++ bs := (List.nodup_middle.mp h.lists.nodup).notMem
  have hupdated : (as ++ i :: bs).filterMap t'.rowAt =
      as.filterMap t.rowAt ++ ((hash, key), value) :: bs.filterMap t.rowAt := by
    rw [rowAt_update hcontent]
    exact filterMap_used_update hnot false _
  refine ⟨hlists, ?_, h.packed, h.byAccess⟩
  rw [hupdated, hpairs, ← hlength]
  simp

/-- An entry was appended. -/
theorem push (h : t.Tracks o js l) (hkind : o.SameKind o')
    (hcontent : t'.content = Function.update t.content t.size (some (hash, key, value)))
    (hlists : o'.Lists t'.size (js ++ [t.size])) :
    t'.Tracks o' (js ++ [t.size]) { l with pairs := l.pairs ++ [((hash, key), value)] } := by
  have hnew : t.size ∉ js := fun hi => Nat.lt_irrefl _ (h.lists.mem_iff.mp hi)
  refine ⟨hlists, ?_, h.packed.trans hkind.2.symm, h.byAccess.trans hkind.1.symm⟩
  rw [rowAt_update hcontent, filterMap_update_append_singleton hnew, h.pairs]

/-- An entry was removed, and the last one got its index. -/
theorem removeAt (h : t.Tracks o (as ++ i :: bs) l) (hi : i < t.size) (hkind : o.SameKind o')
    (hcontent : ∀ k < t.size, k ≠ i → t'.content (reindex i (t.size - 1) k) = t.content k)
    (hlists : o'.Lists t'.size ((as ++ closeUp o.isDense bs).map (reindex i (t.size - 1)))) :
    t'.Tracks o' ((as ++ closeUp o.isDense bs).map (reindex i (t.size - 1))) (l.removeAt as.length) := by
  obtain ⟨row, hrow⟩ := exists_rowAt hi
  obtain ⟨hpairs, hlength, -⟩ := h.split hrow
  have hnot : i ∉ as ++ bs := (List.nodup_middle.mp h.lists.nodup).notMem
  have hclose : (as ++ closeUp o.isDense bs).Perm (as ++ bs) := (closeUp_perm _ bs).append_left as
  rw [← hlength, Listing.removeAt_length hpairs]
  refine ⟨hlists, ?_, h.packed.trans hkind.2.symm, h.byAccess.trans hkind.1.symm⟩
  have hrest : ∀ k ∈ as ++ closeUp o.isDense bs, (t'.rowAt ∘ reindex i (t.size - 1)) k = t.rowAt k := by
    intro k hk
    have hk' := hclose.mem_iff.mp hk
    have hlt : k < t.size := h.lists.mem_iff.mp (by simp only [List.mem_append, List.mem_cons] at hk' ⊢; tauto)
    have hne : k ≠ i := fun heq => hnot (heq ▸ hk')
    rw [Function.comp_apply, rowAt, rowAt, Function.comp_apply, hcontent k hlt hne, Function.comp_apply]
  rw [List.filterMap_map, List.filterMap_congr hrest, List.filterMap_append, h.packed,
    filterMap_closeUp fun k hk => h.exists_row k (by simp [hk])]

end Tracks

/-! ## Looking up -/

variable [BEq K]

/-- No two rows have the same hash and equal keys. -/
theorem Sound.distinctKeys (hs : t.Sound is) (h : t.Tracks o js l) : DistinctKeys l.pairs := by
  rw [DistinctKeys, h.pairs]
  refine List.Pairwise.filterMap t.rowAt ?_ h.lists.nodup
  intro j k hne row hj row' hk
  obtain ⟨⟨hash, key, value⟩, hcj, rfl⟩ := Option.map_eq_some_iff.mp hj
  obtain ⟨⟨hash', key', value'⟩, hck, rfl⟩ := Option.map_eq_some_iff.mp hk
  refine Bool.eq_false_iff.mpr fun hname => ?_
  obtain ⟨hhash, hkey⟩ := Bool.and_eq_true_iff.mp hname
  obtain rfl : hash = hash' := eq_of_beq hhash
  exact hne (hs.distinct hcj hck hkey)

namespace Tracks

/-- A key that is there is located at the place of its index. -/
theorem locate?_present [EquivBEq K] {stored : K} (h : t.Tracks o (as ++ i :: bs) l) (hs : t.Sound is)
    (hc : t.content i = some (hash, stored, value)) (hkey : (stored == key) = true) :
    l.locate? (hash, key) = some (as.length, (hash, stored), value) := by
  obtain ⟨hpairs, hlength, -⟩ := h.split (rowAt_of_content hc)
  have hname : ((hash, stored) == (hash, key)) = true := Bool.and_eq_true_iff.mpr ⟨BEq.rfl, hkey⟩
  rw [Listing.locate?_eq_some (hs.distinctKeys h) hpairs hname, hlength]

/-- A key that no index holds is not located. -/
theorem locate?_absent (h : t.Tracks o js l) (habsent : ∀ i, t.holds hash key i = false) :
    l.locate? (hash, key) = none := by
  refine Listing.locate?_eq_none fun row hrow => Bool.eq_false_iff.mpr fun hname => ?_
  rw [h.pairs] at hrow
  obtain ⟨i, -, hi⟩ := List.mem_filterMap.mp hrow
  obtain ⟨⟨hash', stored, value⟩, hc, rfl⟩ := Option.map_eq_some_iff.mp hi
  obtain ⟨hhash, hkey⟩ := Bool.and_eq_true_iff.mp hname
  obtain rfl : hash' = hash := eq_of_beq hhash
  exact Bool.eq_false_iff.mp (habsent i) (holds_iff.mpr ⟨stored, value, hc, hkey⟩)

end Tracks

end Table

end DenseHash
