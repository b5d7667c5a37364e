import DenseHash.Proofs.Table.Sound

/-!
# Removing from a table

A removal takes an entry off its chain, and the last entry gets its index. Both ways to remove come to that:
`remove` finds on the chain what led to the entry, and `removeAt` walks the chain again and finds the same.

Emptying a table and reading it off end the module.
-/

namespace DenseHash

namespace Table

variable {K V : Type} {t : Table K V} {is as bs : List Nat} {i : Nat} {hash : UInt32} {key : K} {value : V}

/-! ## Vacating an index -/

/-- The entry of a content, and where it stands on its chain. -/
theorem Chained.split {chains : Nat → List Nat} {pair : K × V} (h : t.Chained none chains)
    (hc : t.content i = some (hash, pair)) (hlt : bucketIndex t.buckets hash < t.buckets) :
    ∃ cs ds, chains (bucketIndex t.buckets hash) = cs ++ i :: ds :=
  List.append_of_mem ((h.mem_iff _ hlt i).mpr ⟨nofun, hash, pair, hc, rfl⟩)

/-- What is left of a table when an entry is on no chain any more and the last entry gets its index. -/
structure Vacated (t : Table K V) (i : Nat) (t' : Table K V) : Prop where
  buckets : t'.buckets = t.buckets
  size : t'.size = t.size - 1
  content : ∀ k, t'.content k = if k < t.size - 1 then t.content (if k = i then t.size - 1 else k) else none
  chained : ∃ chains, t'.Chained none chains

/-- An entry that is off the chains is taken out. The last entry gets its index, and what led to it is redirected.
    -/
theorem vacate_eq {chains : Nat → List Nat} {o : Order} (h : t.Chained (some i) chains) (hi : i < t.size)
    (hsmall : t.size ≤ maxBuckets) (hb : t.buckets ≠ 0) (ho : t.order.erase i (t.size - 1) = .ok o) :
    ∃ t', t.vacate i = .ok t' ∧ t'.order = o ∧ t.Vacated i t' := by
  have hne : t.size ≠ 0 := by omega
  have hch : ({ t with order := o } : Table K V).Chained (some i) chains := h.congr rfl rfl fun _ => rfl
  by_cases hlast : i = t.size - 1
  · refine ⟨{ t with order := o }.pack i, ?_, rfl, rfl, pack_size hi, pack_content hi, chains,
      hch.drop hi hlast⟩
    rw [vacate]
    dsimp only
    rw [if_neg hne, ho, Checked.ok_bind, if_pos hlast]
    rfl
  · have hlt : i < t.size - 1 := by omega
    -- the last entry moves to `i`, and the anchor that named it is redirected first
    obtain ⟨⟨last, pair⟩, hc⟩ := Option.isSome_iff_exists.mp
      (content_isSome_iff.mpr (show t.size - 1 < t.size by omega))
    have hbucket := bucketIndex_lt hb last
    obtain ⟨cs, ds, hsplit⟩ : ∃ cs ds, chains (bucketIndex t.buckets last) = cs ++ (t.size - 1) :: ds := by
      refine List.append_of_mem ((h.mem_iff _ hbucket _).mpr ⟨?_, last, pair, hc, rfl⟩)
      exact fun heq => hlast (Option.some.inj heq).symm
    have hanchor := hch.anchorOf_eq hc rfl hbucket hsplit
    have hindex : (Link.ofIndex i : ChainLink).index? = some i := by
      refine Link.index?_ofIndex (show _ < 0xFFFFFFFF from ?_)
      rw [maxBuckets] at hsmall
      omega
    let u : Table K V := { t with order := o }.redirect (tip .after (.head (bucketIndex t.buckets last)) cs)
      (.ofIndex i)
    have hsize : u.size = t.size := redirect_size _ _
    have hcontent : u.content = t.content := redirect_content _ _
    refine ⟨u.pack i, ?_, redirect_order _ _, redirect_buckets _ _, ?_, fun k => ?_, _,
      hch.fill hlt hc rfl hbucket hsplit hindex⟩
    · rw [vacate]
      dsimp only
      rw [if_neg hne, ho, Checked.ok_bind, if_neg hlast, hanchor]
      rfl
    · rw [pack_size (hsize ▸ hi), hsize]
    · rw [pack_content (hsize ▸ hi), hsize, hcontent]

/-- What an entry that stays was before a removal, by the index that it has afterwards. -/
theorem Vacated.content_reindex {t' : Table K V} (h : t.Vacated i t') (hi : i < t.size) {k : Nat}
    (hk : k < t.size) (hki : k ≠ i) : t'.content (reindex i (t.size - 1) k) = t.content k := by
  rw [h.content]
  by_cases hlast : k = t.size - 1
  · rw [hlast, reindex_last, if_pos (by omega), if_pos rfl]
  · rw [reindex_of_ne hlast, if_pos (by omega), if_neg hki]

/-! ## Removing -/

variable [BEq K]

/-- Every content after a removal was there before it, at an index of its own. -/
theorem Sound.vacated {t' : Table K V} (h : t.Sound is) (hv : t.Vacated i t')
    (hi : i < t.size) (hb : t.buckets ≠ 0) (horder : t'.order.Lists (t.size - 1) as) : t'.Sound as where
  small := by
    have hsmall := h.small
    rw [hv.size]
    omega
  width := hv.buckets ▸ h.width
  bounded := hv.buckets ▸ h.bounded
  unallocated := fun hzero => absurd (hv.buckets.symm.trans hzero) hb
  chained := hv.chained
  order := hv.size ▸ horder
  distinct := by
    intro j k hash key key' value value' hj hk hkey
    rw [hv.content] at hj hk
    split at hj
    · split at hk
      · have heq := h.distinct hj hk hkey
        split at heq <;> split at heq <;> omega
      · exact nomatch hk
    · exact nomatch hj

/-- What a removal at an index leaves. -/
structure Removes (t : Table K V) (as bs : List Nat) (i : Nat) (t' : Table K V) : Prop where
  kind : t.order.SameKind t'.order
  buckets : t'.buckets = t.buckets
  size : t'.size = t.size - 1
  sound : t'.Sound ((as ++ closeUp t.order.isDense bs).map (reindex i (t.size - 1)))
  content : ∀ k ∈ as ++ bs, t'.content (reindex i (t.size - 1) k) = t.content k

/-- An entry whose anchor is redirected behind it leaves a sound table when its index is vacated. -/
theorem Sound.vacate_redirect_eq {pair : K × V} {chains : Nat → List Nat} {cs ds : List Nat} {l : ChainLink}
    (h : t.Sound (as ++ i :: bs)) (hch : t.Chained none chains) (hc : t.content i = some (hash, pair))
    (hsplit : chains (bucketIndex t.buckets hash) = cs ++ i :: ds) (hl : l.index? = t.link (.after i)) :
    ∃ t', (t.redirect (tip .after (.head (bucketIndex t.buckets hash)) cs) l).vacate i = .ok t' ∧
      t.Removes as bs i t' := by
  have hi := lt_size_of_content hc
  have hlt := h.bucket_lt hi hash
  have hb : t.buckets ≠ 0 := by omega
  obtain ⟨o, ho, hkind, hlists⟩ := h.order.erase
  let u := t.redirect (tip .after (.head (bucketIndex t.buckets hash)) cs) l
  have husize : u.size = t.size := redirect_size _ _
  have hubuckets : u.buckets = t.buckets := redirect_buckets _ _
  have hucontent : u.content = t.content := redirect_content _ _
  have huorder : u.order = t.order := redirect_order _ _
  obtain ⟨t', ht', horder, hv⟩ := Table.vacate_eq (hch.unchain hlt hsplit hl) (husize ▸ hi)
    (husize ▸ h.small) (fun hzero => hb (hubuckets.symm.trans hzero)) (by rw [huorder, husize]; exact ho)
  -- the redirected link is not seen in what is left
  have hv' : t.Vacated i t' := by
    refine ⟨hv.buckets.trans hubuckets, by rw [hv.size, husize], fun k => ?_, hv.chained⟩
    rw [hv.content, husize, hucontent]
  refine ⟨t', ht', horder ▸ hkind, hv'.buckets, hv'.size, h.vacated hv' hi hb (horder ▸ hlists), ?_⟩
  intro k hk
  have hnot : i ∉ as ++ bs := (List.nodup_middle.mp h.order.nodup).notMem
  have hmem : k ∈ as ++ i :: bs := by
    simp only [List.mem_append, List.mem_cons] at hk ⊢
    tauto
  exact hv'.content_reindex hi (h.mem_iff.mp hmem) fun heq => hnot (heq ▸ hk)

/-- Removing at an index. -/
theorem Sound.removeAt_eq (h : t.Sound (as ++ i :: bs)) (hc : t.content i = some (hash, key, value)) :
    ∃ t', t.removeAt i = .ok ((key, value), t') ∧ t.Removes as bs i t' := by
  obtain ⟨chains, hch⟩ := h.chained
  have hlt := h.bucket_lt (lt_size_of_content hc) hash
  obtain ⟨e, he, -, hhash, rfl, rfl, hnext⟩ := entry_eq hc
  obtain ⟨cs, ds, hsplit⟩ := hch.split hc hlt
  obtain ⟨t', ht', hremoves⟩ := h.vacate_redirect_eq hch hc hsplit hnext
  refine ⟨t', ?_, hremoves⟩
  rw [removeAt, he, Checked.ok_bind, hch.anchorOf_eq hc rfl hlt hsplit, Checked.ok_bind, ht']
  rfl

/-- Removing a key removes at the index where it is found. -/
theorem Sound.remove_eq (h : t.Sound is) (hash : UInt32) (key : K) :
    t.remove hash key = t.find hash key >>= fun r =>
      match r with
      | none => .ok (none, t)
      | some i => t.removeAt i >>= fun (pair, t') => .ok (some pair, t') := by
  by_cases hb : t.buckets = 0
  · rw [remove, find, if_pos hb, if_pos hb]
    rfl
  · obtain ⟨chains, hch⟩ := h.chained
    have hlt := bucketIndex_lt hb hash
    rw [remove, find, if_neg hb, if_neg hb, bucketOf_eq hb, Checked.ok_bind, Checked.ok_bind,
      hch.chain_eq hlt, Checked.ok_bind, Checked.ok_bind]
    cases hfind : (chains (bucketIndex t.buckets hash)).find? (t.holds hash key) with
    | none =>
        rw [Anchor.locate_eq_none _ fun k hk => ?_]
        · rfl
        · exact Bool.eq_false_iff.mpr (List.find?_eq_none.mp hfind k hk)
    | some i =>
        obtain ⟨hi, cs, ds, hsplit, hcs⟩ := List.find?_eq_some_iff_append.mp hfind
        obtain ⟨stored, value, hc, -⟩ := holds_iff.mp hi
        obtain ⟨e, he, -⟩ := entry_eq hc
        have hanchor := hch.anchorOf_eq hc rfl hlt hsplit
        rw [hsplit, Anchor.locate_append_cons _ (fun k hk => by simpa using hcs k hk) hi]
        dsimp only [Checked.ok_bind, Checked.pure_eq]
        rw [removeAt, he, Checked.ok_bind, Checked.ok_bind, hanchor, Checked.ok_bind]
        cases (t.redirect (tip .after (.head (bucketIndex t.buckets hash)) cs) e.next).vacate i <;> rfl

end Table

end DenseHash
