import DenseHash.Proofs.Table.Sound

/-!
# Using and inserting

A use of an entry changes the order of traversal, and an update also a value; neither touches a chain. A new
entry gets the next index, stands at the end of the order and in front of its chain, and the buckets may be
rebuilt after that.
-/

namespace DenseHash

namespace Table

variable {K V : Type}

/-! ## Values -/

/-- The table with another entry at an index. -/
def setEntry (t : Table K V) (i : Nat) (e : Entry K V) : Table K V :=
  { t with entries := t.entries.setIfInBounds i e }

theorem setEntry_size {t : Table K V} (i : Nat) (e : Entry K V) : (t.setEntry i e).size = t.size :=
  Array.size_setIfInBounds

/-- Overwriting an entry changes the content at its index. -/
theorem setEntry_content {t : Table K V} {i : Nat} (hi : i < t.size) (e : Entry K V) :
    (t.setEntry i e).content = Function.update t.content i (some (e.hash, e.key, e.value)) := by
  funext k
  show ((t.entries.setIfInBounds i e)[k]?).map _ = _
  rw [Array.getElem?_setIfInBounds]
  by_cases hik : i = k
  · rw [if_pos hik, if_pos (show i < t.entries.size from hi), ← hik, Function.update_self]
    rfl
  · rw [if_neg hik, Function.update_of_ne (Ne.symm hik)]
    rfl

/-- Overwriting an entry with one that leads to the same place changes no link. -/
theorem setEntry_link {t : Table K V} {i : Nat} {e e' : Entry K V} (he : t.entries[i]? = some e)
    (hnext : e'.next = e.next) : (t.setEntry i e').link = t.link := by
  funext a
  cases a with
  | head b => rfl
  | after k =>
      show ((t.entries.setIfInBounds i e')[k]?).bind _ = (t.entries[k]?).bind _
      rw [Array.getElem?_setIfInBounds]
      by_cases hik : i = k
      · have hi : i < t.entries.size := (Array.getElem?_eq_some_iff.mp he).1
        rw [if_pos hik, if_pos hi, ← hik, he]
        show e'.next.index? = e.next.index?
        rw [hnext]
      · rw [if_neg hik]

variable [BEq K] {t : Table K V} {is as bs : List Nat} {i : Nat} {hash : UInt32} {key : K} {value : V}

/-- Another value at an index, and another order. -/
theorem Sound.setEntry (h : t.Sound is) {e : Entry K V} (he : t.entries[i]? = some e) (value : V)
    {o : Order} (ho : o.Lists t.size as) :
    Sound { t.setEntry i { e with value } with order := o } as := by
  have hi : i < t.size := (Array.getElem?_eq_some_iff.mp he).1
  have hlink : (t.setEntry i { e with value }).link = t.link := setEntry_link he rfl
  refine h.revalue rfl (setEntry_size _ _) hlink ho fun {k hash key value'} hc => ?_
  replace hc : (t.setEntry i { e with value }).content k = some (hash, key, value') := hc
  rw [setEntry_content hi] at hc
  by_cases hki : k = i
  · rw [hki, Function.update_self] at hc
    injection hc with hc
    injection hc with hhash hc
    injection hc with hkey _
    refine ⟨e.value, ?_⟩
    rw [hki, content, he, ← hhash, ← hkey]
    rfl
  · rw [Function.update_of_ne hki] at hc
    exact ⟨value', hc⟩

/-- Replacing a value changes that value. -/
theorem Sound.setValue_eq (h : t.Sound is) {old : V} (hc : t.content i = some (hash, key, old)) (value : V) :
    ∃ t', t.setValue i value = .ok t' ∧ t'.Sound is ∧ t'.order = t.order ∧
      t'.content = Function.update t.content i (some (hash, key, value)) := by
  obtain ⟨e, -, he, rfl, rfl, -, -⟩ := entry_eq hc
  have hi : i < t.size := lt_size_of_content hc
  refine ⟨t.setEntry i { e with value }, ?_, h.setEntry he value h.order, rfl, setEntry_content hi _⟩
  rw [setValue, if_pos hi, modify_eq_set he]
  rfl

/-- A use moves the entry in the order of use. -/
theorem Sound.touch_eq (h : t.Sound (as ++ i :: bs)) :
    ∃ t', t.touch i = .ok (t.order.byAccess && !bs.isEmpty, t') ∧ t.order.SameKind t'.order ∧
      t'.Sound (if t.order.byAccess then as ++ bs ++ [i] else as ++ i :: bs) ∧
      t'.content = t.content := by
  obtain ⟨o, ho, hkind, hlists⟩ := h.order.access
  refine ⟨{ t with order := o }, by rw [touch, ho]; rfl, hkind, ?_, rfl⟩
  exact h.revalue rfl rfl rfl hlists fun hc => ⟨_, hc⟩

/-- An update does both. -/
theorem Sound.update_eq {old : V} (h : t.Sound (as ++ i :: bs)) (hc : t.content i = some (hash, key, old))
    (value : V) :
    ∃ t', t.update i value = .ok (old, t.order.byAccess && !bs.isEmpty, t') ∧ t.order.SameKind t'.order ∧
      t'.Sound (if t.order.byAccess then as ++ bs ++ [i] else as ++ i :: bs) ∧
      t'.content = Function.update t.content i (some (hash, key, value)) := by
  obtain ⟨e, hentry, he, rfl, rfl, rfl, -⟩ := entry_eq hc
  obtain ⟨o, ho, hkind, hlists⟩ := h.order.access
  refine ⟨{ t.setEntry i { e with value } with order := o }, ?_, hkind, h.setEntry he value hlists,
    setEntry_content (lt_size_of_content hc) _⟩
  rw [update, hentry, Checked.ok_bind, ho]
  rfl

/-! ## New entries -/

/-- A key that no entry has under this hash becomes the last entry. -/
theorem Sound.enlist [EquivBEq K] {t' : Table K V} (h : t.Sound is) (hb : t.buckets ≠ 0)
    (hsmall : t.size < maxBuckets) (hnew : ∀ i, t.holds hash key i = false)
    (hbuckets : t'.buckets = t.buckets) (hsize : t'.size = t.size + 1)
    (hcontent : t'.content = Function.update t.content t.size (some (hash, key, value)))
    (horder : t'.order.Lists (t.size + 1) (is ++ [t.size])) (hchained : ∃ chains, t'.Chained none chains) :
    t'.Sound (is ++ [t.size]) where
  small := hsize ▸ hsmall
  width := hbuckets ▸ h.width
  bounded := hbuckets ▸ h.bounded
  unallocated := fun hzero => absurd (hbuckets.symm.trans hzero) hb
  chained := hchained
  order := hsize ▸ horder
  distinct := by
    intro i j hash' key₁ key₂ value₁ value₂ hi hj hkey
    -- no entry that was there has the new key
    have hother : ∀ {i key' value'}, t.content i = some (hash, key', value') → (key' == key) = false := by
      intro i key' value' hc
      refine Bool.eq_false_iff.mpr fun hkey => ?_
      have hheld := hnew i
      rw [holds_iff.mpr ⟨key', value', hc, hkey⟩] at hheld
      exact nomatch hheld
    have hlast : ∀ {k key' value'}, t'.content t.size = some (k, key', value') → hash = k ∧ key = key' := by
      intro k key' value' hc
      rw [hcontent, Function.update_self] at hc
      injection hc with hc
      injection hc with hhash hc
      injection hc with hkey _
      exact ⟨hhash, hkey⟩
    have hfront : ∀ {k}, k ≠ t.size → t'.content k = t.content k := by
      intro k hk
      rw [hcontent, Function.update_of_ne hk]
    by_cases hit : i = t.size
    · by_cases hjt : j = t.size
      · rw [hit, hjt]
      · obtain ⟨rfl, rfl⟩ := hlast (hit ▸ hi)
        have hne := hother (hfront hjt ▸ hj)
        rw [BEq.symm hkey] at hne
        exact nomatch hne
    · by_cases hjt : j = t.size
      · obtain ⟨rfl, rfl⟩ := hlast (hjt ▸ hj)
        have hne := hother (hfront hit ▸ hi)
        rw [hkey] at hne
        exact nomatch hne
      · exact h.distinct (hfront hit ▸ hi) (hfront hjt ▸ hj) hkey

/-- A new entry stands at the end of the order and in front of its chain. -/
theorem Sound.append_eq [EquivBEq K] (h : t.Sound is) (hb : t.buckets ≠ 0) (hsmall : t.size < maxBuckets)
    (hnew : ∀ i, t.holds hash key i = false) (value : V) :
    ∃ t', t.append (bucketIndex t.buckets hash) hash key value = .ok t' ∧ t.order.SameKind t'.order ∧
      t'.buckets ≠ 0 ∧ t'.Sound (is ++ [t.size]) ∧
      t'.content = Function.update t.content t.size (some (hash, key, value)) := by
  obtain ⟨l, hl, hlink⟩ := headOf_eq (bucketIndex_lt hb hash)
  obtain ⟨o, ho, hkind, hlists⟩ := h.order.push (Nat.lt_of_lt_of_le hsmall (by decide))
  obtain ⟨chains, hch⟩ := h.chained
  let e : Entry K V := ⟨key, value, hash, l⟩
  let t' : Table K V := { t.prepend (bucketIndex t.buckets hash) e with order := o }
  have hbuckets : t'.buckets = t.buckets := prepend_buckets (t := t) (bucketIndex t.buckets hash) e
  have hcontent : t'.content = Function.update t.content t.size (some (hash, key, value)) :=
    prepend_content (t := t) (bucketIndex t.buckets hash) e
  have hsize : t'.size = t.size + 1 := prepend_size (t := t) (bucketIndex t.buckets hash) e
  have hchained : t'.Chained none _ :=
    (hch.prepend (e := e) (bucketIndex_lt hb hash) hsmall rfl hlink).congr rfl rfl fun _ => rfl
  refine ⟨t', ?_, hkind, hbuckets ▸ hb, ?_, hcontent⟩
  · rw [append, hl, Checked.ok_bind, ho]
    rfl
  · exact h.enlist hb hsmall hnew hbuckets hsize hcontent hlists ⟨_, hchained⟩

/-! ## Inserting -/

/-- What an insertion does. A key that is there keeps its entry, which gets the new value and has been used; a
    new key gets the next index. -/
inductive Inserts (t : Table K V) (is : List Nat) (hash : UInt32) (key : K) (value : V) :
    Inserted V → Table K V → Prop where
  | updated {as bs : List Nat} {i : Nat} {stored : K} {old : V} {t' : Table K V}
      (split : is = as ++ i :: bs) (found : t.content i = some (hash, stored, old))
      (same : (stored == key) = true)
      (sound : t'.Sound (if t.order.byAccess then as ++ bs ++ [i] else as ++ i :: bs))
      (content : t'.content = Function.update t.content i (some (hash, stored, value))) :
      Inserts t is hash key value (.updated old (t.order.byAccess && !bs.isEmpty)) t'
  | added {chain : Nat} {resized : Bool} {t' : Table K V} (absent : ∀ i, t.holds hash key i = false)
      (sound : t'.Sound (is ++ [t.size]))
      (content : t'.content = Function.update t.content t.size (some (hash, key, value))) :
      Inserts t is hash key value (.added chain resized) t'

/-- Allocated buckets are searched first: the key is found at an index, or no entry has it and a new one is made. -/
theorem Chained.insertAllocated_cases {chains : Nat → List Nat} (h : t.Chained none chains) (hb : t.buckets ≠ 0)
    (hash : UInt32) (key : K) (value : V) :
    (∃ i, t.holds hash key i = true ∧ t.insertAllocated hash key value =
        match t.update i value with
        | .ok (old, moved, t') => .ok t' (.updated old moved)
        | .error f => .fail t f) ∨
      (∀ i, t.holds hash key i = false) ∧ t.insertAllocated hash key value =
        if maxBuckets ≤ t.size then .fail t .capacityOverflow
        else
          match t.append (bucketIndex t.buckets hash) hash key value with
          | .ok t' => t'.grow.map fun resized => .added ((chains (bucketIndex t.buckets hash)).length + 1) resized
          | .error f => .fail t f := by
  have hlt := bucketIndex_lt hb hash
  rw [insertAllocated]
  rw [bucketOf_eq hb, Checked.ok_bind, h.chain_eq hlt]
  dsimp only [Checked.ok_bind, Checked.pure_eq]
  cases hfind : (chains (bucketIndex t.buckets hash)).find? (t.holds hash key) with
  | some i => exact .inl ⟨i, List.find?_some hfind, rfl⟩
  | none =>
      refine .inr ⟨fun i => Bool.eq_false_iff.mpr fun hi => ?_, rfl⟩
      exact List.find?_eq_none.mp hfind i (h.mem_of_holds hlt hi) hi

/-- Inserting into a table with buckets: the key is found and updated, or it is new and appended. -/
theorem Sound.insertAllocated_meets [EquivBEq K] (h : t.Sound is) (hb : t.buckets ≠ 0) (hash : UInt32)
    (key : K) (value : V) :
    (t.insertAllocated hash key value).Meets fun r t' =>
      t.Inserts is hash key value r t' ∧ t.order.SameKind t'.order := by
  obtain ⟨chains, hch⟩ := h.chained
  rcases hch.insertAllocated_cases hb hash key value with ⟨i, hi, heq⟩ | ⟨hnew, heq⟩
  · obtain ⟨stored, old, hc, hsame⟩ := holds_iff.mp hi
    obtain ⟨as, bs, rfl⟩ := List.append_of_mem (h.mem_of_content hc)
    obtain ⟨t', ht', hkind, hsound, hcontent⟩ := h.update_eq hc value
    rw [heq, ht']
    exact Reply.meets_ok ⟨.updated rfl hc hsame hsound hcontent, hkind⟩
  · rw [heq]
    by_cases hfull : maxBuckets ≤ t.size
    · rw [if_pos hfull]
      exact Reply.meets_fail trivial
    · rw [if_neg hfull]
      obtain ⟨t₁, ht₁, hkind, hb₁, hsound, hcontent⟩ := h.append_eq hb (Nat.not_le.mp hfull) hnew value
      rw [ht₁]
      refine Reply.Meets.map ((hsound.grow_meets hb₁).imp fun resized t' ht' => ?_)
      obtain ⟨halike, hsound'⟩ := ht'
      refine ⟨.added hnew hsound' (halike.content.trans hcontent), ?_⟩
      rw [halike.order]
      exact hkind

/-- An insertion into any sound table. -/
theorem Sound.insert_meets [EquivBEq K] (h : t.Sound is) (hash : UInt32) (key : K) (value : V) :
    (t.insert hash key value).Meets fun r t' =>
      t.Inserts is hash key value r t' ∧ t.order.SameKind t'.order := by
  rw [insert]
  refine Reply.Meets.andThen h.allocate_meets ?_
  rintro - t₁ ⟨halike, hsound, hb⟩
  have hholds : ∀ i, t₁.holds hash key i = t.holds hash key i := holds_congr halike.content hash key
  refine (hsound.insertAllocated_meets hb hash key value).imp ?_
  rintro r t' ⟨hinserts, hkind⟩
  rw [halike.order] at hkind
  refine ⟨?_, hkind⟩
  cases hinserts with
  | updated split found same sound content =>
      rw [halike.content] at found content
      rw [halike.order] at sound ⊢
      exact .updated split found same sound content
  | added absent sound content =>
      rw [halike.content, size_congr halike.content] at content
      rw [size_congr halike.content] at sound
      exact .added (fun i => hholds i ▸ absent i) sound content

end Table

end DenseHash
