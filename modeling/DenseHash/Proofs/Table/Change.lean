import DenseHash.Proofs.Table.Load

/-!
# What a change does to the sizing

* **`Keeps`**: the load factor and the expected number of entries stay, and buckets are not given up. That holds of
  every change but a request for room and shrinking, refused or not.
* **`AddsNothing`**: what happens at single entries keeps the buckets and adds no hash, so no bucket gets fuller.
* **`Sound.insert_added`**: an insertion of a new key adds one hash. The length of chain that it tells is counted in the
  buckets that were there before the table grew, and growing does not lengthen a chain.
-/

namespace DenseHash

namespace Table

variable {K V : Type} {t t' t'' : Table K V} {is : List Nat} {i limit : Nat} {hash : UInt32} {key : K} {value : V}

/-! ## The sizing policy -/

/-- The load factor and the number of entries to expect stay, and a table with buckets has some afterwards. -/
structure Keeps (t t' : Table K V) : Prop where
  loadFactor : t'.loadFactor = t.loadFactor
  expected : t'.expected = t.expected
  allocated : t.buckets ≠ 0 → t'.buckets ≠ 0

theorem Keeps.refl (t : Table K V) : t.Keeps t := ⟨rfl, rfl, id⟩

theorem Keeps.trans (h : t.Keeps t') (h' : t'.Keeps t'') : t.Keeps t'' :=
  ⟨h'.loadFactor.trans h.loadFactor, h'.expected.trans h.expected, fun hb => h'.allocated (h.allocated hb)⟩

theorem redirect_keeps (t : Table K V) (a : Anchor) (l : ChainLink) : t.Keeps (t.redirect a l) where
  loadFactor := by cases a <;> rfl
  expected := by cases a <;> rfl
  allocated := by
    rw [redirect_buckets]
    exact id

/-- Vacating an index keeps the policy. -/
theorem vacate_keeps (h : t.vacate i = .ok t') : t.Keeps t' := by
  rw [vacate] at h
  split at h
  · cases h
  · obtain ⟨o, -, h⟩ := Checked.bind_eq_ok h
    have horder : t.Keeps { t with order := o } := ⟨rfl, rfl, id⟩
    dsimp only at h
    split at h
    · obtain rfl := Except.ok.inj h
      exact ⟨rfl, rfl, id⟩
    · obtain ⟨a, -, h⟩ := Checked.bind_eq_ok h
      obtain rfl := Except.ok.inj h
      exact (horder.trans (redirect_keeps _ a (.ofIndex i))).trans ⟨rfl, rfl, id⟩

/-- A removal keeps the policy: a table does not shrink by itself. -/
theorem removeAt_keeps {pair : K × V} (h : t.removeAt i = .ok (pair, t')) : t.Keeps t' := by
  obtain ⟨e, -, h⟩ := Checked.bind_eq_ok h
  obtain ⟨a, -, h⟩ := Checked.bind_eq_ok h
  obtain ⟨t₁, h₁, h⟩ := Checked.bind_eq_ok h
  obtain rfl := (Prod.mk.inj (Except.ok.inj h)).2
  exact (redirect_keeps t a e.next).trans (vacate_keeps h₁)

/-- An update keeps the policy and the buckets. -/
theorem update_keeps {old : V} {moved : Bool} (h : t.update i value = .ok (old, moved, t')) :
    t.Keeps t' ∧ t'.buckets = t.buckets := by
  obtain ⟨e, -, h⟩ := Checked.bind_eq_ok h
  obtain ⟨⟨moved', o⟩, -, h⟩ := Checked.bind_eq_ok h
  obtain rfl := (Prod.mk.inj (Prod.mk.inj (Except.ok.inj h)).2).2
  exact ⟨⟨rfl, rfl, id⟩, rfl⟩

/-- A new entry brings its hash, and no bucket. -/
theorem append_keeps {b : Nat} (h : t.append b hash key value = .ok t') :
    t.Keeps t' ∧ t'.buckets = t.buckets ∧ t'.hashes = t.hashes ++ [hash] := by
  obtain ⟨l, -, h⟩ := Checked.bind_eq_ok h
  obtain ⟨o, -, h⟩ := Checked.bind_eq_ok h
  obtain rfl := Except.ok.inj h
  have hpush : t.Keeps { t with entries := t.entries.push ⟨key, value, hash, l⟩, order := o } := ⟨rfl, rfl, id⟩
  refine ⟨hpush.trans (redirect_keeps _ _ _), redirect_buckets _ _, ?_⟩
  show (t.entries.push ⟨key, value, hash, l⟩).toList.map Entry.hash = _
  rw [Array.toList_push, List.map_append]
  rfl

/-- A new hash fills its bucket, and no other. -/
theorem append_short (h : t.append (bucketIndex t.buckets hash) hash key value = .ok t') (hshort : t.Short limit)
    (hle : t.load (bucketIndex t.buckets hash) + 1 ≤ limit) : t'.Short limit := by
  obtain ⟨-, hbuckets, hhashes⟩ := append_keeps h
  intro b
  rw [load, hhashes, hbuckets, List.countP_append, List.countP_singleton]
  have hb := hshort b
  rw [load] at hb hle
  split
  · rename_i heq
    rw [beq_iff_eq] at heq
    rw [← heq]
    exact hle
  · exact hb

/-- Rechaining makes as many heads as it was told. -/
theorem rechain_size (buckets : Nat) (entries : Array (Entry K V)) : (rechain buckets entries).1.size = buckets := by
  refine Array.foldl_induction (fun _ (s : Array Head × Array (Entry K V)) => s.1.size = buckets) ?_ ?_
  · exact Array.size_replicate
  · exact fun _ s h => Array.size_setIfInBounds.trans h

/-- Rebuilding that is not refused makes the buckets that were asked for. -/
theorem resize_state (t : Table K V) (n : Nat) :
    (t.resize n).state = t ∨
      n ≠ 0 ∧ (t.resize n).state.buckets = n ∧ (t.resize n).state.loadFactor = t.loadFactor ∧
        (t.resize n).state.expected = t.expected := by
  rw [resize]
  split
  · exact .inl rfl
  · split
    · exact .inl rfl
    · exact .inr ⟨‹_›, rechain_size n t.entries, rfl, rfl⟩

/-- A resize keeps the policy, refused or not. -/
theorem resize_keeps (t : Table K V) (n : Nat) : (t.resize n).Leaves t.Keeps := by
  rw [Reply.Leaves]
  rcases t.resize_state n with heq | ⟨hn, hbuckets, hlf, hexpected⟩
  · rw [heq]
    exact .refl t
  · exact ⟨hlf, hexpected, fun _ => hbuckets.trans_ne hn⟩

/-- A table with buckets is given none. -/
theorem allocate_of_ne (hb : t.buckets ≠ 0) : t.allocate = .ok t () := by rw [allocate, if_neg hb]

/-- Allocating keeps the policy. -/
theorem allocate_keeps (t : Table K V) : t.allocate.Leaves t.Keeps := by
  rw [allocate]
  by_cases hb : t.buckets = 0
  · rw [if_pos hb]
    cases bucketsFor t.expected t.loadFactor with
    | ok n =>
        dsimp only
        rw [Reply.Leaves, ensure_state]
        exact ⟨rfl, rfl, fun h => absurd hb h⟩
    | error f => exact .refl t
  · rw [if_neg hb]
    exact .refl t

/-- Growing keeps the policy. -/
theorem grow_keeps (t : Table K V) : t.grow.Leaves t.Keeps := by
  rw [grow]
  split
  · exact .refl t
  · cases enlarge t.loadFactor t.size 64 (2 * t.buckets) with
    | ok n => exact (t.resize_keeps n).map _
    | error f => exact .refl t

/-- Without buckets, a request for room is only written down. -/
theorem reserve_unallocated (hb : t.buckets = 0) (more : Nat) :
    t.reserve more = .ok { t with expected := max t.expected (min (t.size + more) maxWord) } () := by
  rw [reserve]
  exact if_pos hb

/-- With buckets, a request for room keeps the policy. -/
theorem reserve_keeps (hb : t.buckets ≠ 0) (more : Nat) : (t.reserve more).Leaves t.Keeps := by
  rw [reserve]
  dsimp only
  rw [if_neg hb]
  refine Reply.Leaves.andThen ?_ fun _ _ h => by rwa [Reply.Leaves, ensure_state]
  split
  · cases bucketsFor (min (t.size + more) maxWord) t.loadFactor with
    | ok n => exact t.resize_keeps n
    | error f => exact .refl t
  · exact .refl t

/-- The load factor stays in any case. -/
theorem reserve_loadFactor (t : Table K V) (more : Nat) : (t.reserve more).state.loadFactor = t.loadFactor := by
  by_cases hb : t.buckets = 0
  · rw [reserve_unallocated hb]
    rfl
  · exact (reserve_keeps hb more).loadFactor

/-- An empty table gives up its buckets and what was expected of it. -/
theorem shrink_empty (hsize : t.size = 0) : t.shrink.state = { t with heads := #[], expected := 0 } := by
  rw [shrink, if_pos hsize]
  rfl

/-- Shrinking a table with entries keeps the policy. -/
theorem shrink_keeps (hsize : t.size ≠ 0) : t.shrink.Leaves t.Keeps := by
  rw [shrink, if_neg hsize]
  refine Reply.Leaves.andThen ?_ fun _ _ h => h
  cases bucketsFor t.size t.loadFactor with
  | ok n =>
      dsimp only
      split
      · exact t.resize_keeps n
      · exact .refl t
  | error f => exact .refl t

theorem shrink_loadFactor (t : Table K V) : t.shrink.state.loadFactor = t.loadFactor := by
  by_cases hsize : t.size = 0
  · rw [shrink_empty hsize]
  · exact (shrink_keeps hsize).loadFactor

/-- Growing at least doubles the buckets, if it does anything. -/
theorem grow_buckets (t : Table K V) : t.grow.Leaves fun t' => t.buckets ≤ t'.buckets := by
  rw [grow]
  split
  · exact Nat.le_refl _
  · cases hn : enlarge t.loadFactor t.size 64 (2 * t.buckets) with
    | error f => exact Nat.le_refl t.buckets
    | ok n =>
        show t.buckets ≤ (t.resize n).state.buckets
        rcases t.resize_state n with heq | ⟨hne, hbuckets, -⟩
        · rw [heq]
        · have := Nat.le_of_dvd (Nat.pos_of_ne_zero hne) (enlarge_dvd hn)
          omega

variable [BEq K]

theorem insertAllocated_keeps (t : Table K V) (hash : UInt32) (key : K) (value : V) :
    (t.insertAllocated hash key value).Leaves t.Keeps := by
  rw [insertAllocated]
  split
  · exact .refl t
  · split
    · split
      · rename_i hupdate
        exact (update_keeps hupdate).1
      · exact .refl t
    · split
      · exact .refl t
      · split
        · rename_i t₁ happend
          exact (append_keeps happend).1.trans t₁.grow_keeps
        · exact .refl t

/-- An insertion keeps the policy, refused or not. -/
theorem insert_keeps (t : Table K V) (hash : UInt32) (key : K) (value : V) :
    (t.insert hash key value).Leaves t.Keeps := by
  rw [insert]
  exact t.allocate_keeps.andThen fun _ _ h => h.trans (insertAllocated_keeps _ hash key value)

/-! ## Logs -/

section Logs

omit [BEq K]

theorem ensure_noWarning (t : Table K V) (more : Nat) : (t.ensure more).NoWarning := by
  rw [ensure]
  split <;> rfl

theorem resize_noWarning (t : Table K V) (n : Nat) : (t.resize n).NoWarning := by
  rw [resize]
  split
  · rfl
  · split <;> rfl

/-- Allocating logs nothing. -/
theorem allocate_events (t : Table K V) : t.allocate.events = [] := by
  rw [allocate]
  split
  · split
    · rw [ensure]
      split <;> rfl
    · rfl
  · rfl

theorem allocate_noWarning (t : Table K V) : t.allocate.NoWarning := Reply.noWarning_of_nil t.allocate_events

/-- Making room gives no warning. -/
theorem reserve_noWarning (t : Table K V) (more : Nat) : (t.reserve more).NoWarning := by
  rw [reserve]
  dsimp only
  split
  · rfl
  · refine Reply.NoWarning.andThen ?_ fun _ => ensure_noWarning _ _
    split
    · cases bucketsFor (min (t.size + more) maxWord) t.loadFactor with
      | ok n => exact t.resize_noWarning n
      | error f => rfl
    · rfl

theorem shrink_noWarning (t : Table K V) : t.shrink.NoWarning := by
  rw [shrink]
  refine Reply.NoWarning.andThen ?_ fun _ => rfl
  split
  · rfl
  · cases bucketsFor t.size t.loadFactor with
    | ok n =>
        dsimp only
        split
        · exact t.resize_noWarning n
        · rfl
    | error f => rfl

theorem grow_noWarning (t : Table K V) : t.grow.NoWarning := by
  rw [grow]
  split
  · rfl
  · cases enlarge t.loadFactor t.size 64 (2 * t.buckets) with
    | ok n => exact (t.resize_noWarning n).map _
    | error f => rfl

end Logs

/-- Nor does an insertion: warning is for the flood guard. -/
theorem insertAllocated_noWarning (t : Table K V) (hash : UInt32) (key : K) (value : V) :
    (t.insertAllocated hash key value).NoWarning := by
  rw [insertAllocated]
  split
  · rfl
  · split
    · split <;> rfl
    · split
      · rfl
      · split
        · exact (grow_noWarning _).map _
        · rfl

/-- A table has no guard of its own. -/
theorem insert_noWarning (t : Table K V) (hash : UInt32) (key : K) (value : V) : (t.insert hash key value).NoWarning :=
  t.allocate_noWarning.andThen fun _ => insertAllocated_noWarning _ hash key value

/-! ## At single entries -/

/-- No bucket and no hash is added. -/
structure AddsNothing (t t' : Table K V) : Prop where
  intact : t'.Intact
  keeps : t.Keeps t'
  buckets : t'.buckets = t.buckets
  hashes : t'.hashes.Subperm t.hashes

/-- An intact table that is left alone. -/
theorem Intact.addsNothing_refl (h : t.Intact) : t.AddsNothing t := ⟨h, .refl t, rfl, .refl _⟩

theorem AddsNothing.trans (h : t.AddsNothing t') (h' : t'.AddsNothing t'') : t.AddsNothing t'' :=
  ⟨h'.intact, h.keeps.trans h'.keeps, h'.buckets.trans h.buckets, h'.hashes.trans h.hashes⟩

/-- There are no more entries than before. -/
theorem AddsNothing.size_le (h : t.AddsNothing t') : t'.size ≤ t.size := by
  rw [← length_hashes, ← length_hashes]
  exact h.hashes.length_le

/-- Short chains are still short. -/
theorem AddsNothing.short (h : t.AddsNothing t') (hshort : t.Short limit) : t'.Short limit := by
  intro b
  rw [load, h.buckets]
  exact (h.hashes.countP_le _).trans (hshort b)

namespace Intact

theorem addsNothing_touch {moved : Bool} (h : t.Intact) (ht : t.touch i = .ok (moved, t')) : t.AddsNothing t' := by
  have hintact := h.touch ht
  obtain ⟨⟨moved', o⟩, -, ht⟩ := Checked.bind_eq_ok ht
  obtain rfl := (Prod.mk.inj (Except.ok.inj ht)).2
  exact ⟨hintact, ⟨rfl, rfl, id⟩, rfl, .refl _⟩

theorem addsNothing_setValue (h : t.Intact) (ht : t.setValue i value = .ok t') : t.AddsNothing t' := by
  have hintact := h.setValue ht
  obtain ⟨is, hs⟩ := h
  rw [Table.setValue] at ht
  split at ht
  · rename_i hi
    obtain rfl := Except.ok.inj ht
    obtain ⟨hash, key, old, hc⟩ := hs.content_of_mem (hs.mem_iff.mpr hi)
    obtain ⟨t₁, ht₁, -, -, hcontent⟩ := hs.setValue_eq hc value
    rw [Table.setValue, if_pos hi] at ht₁
    obtain rfl := Except.ok.inj ht₁
    exact ⟨hintact, ⟨rfl, rfl, id⟩, rfl, (hashes_of_update hc hcontent) ▸ .refl _⟩
  · cases ht

/-- A removal takes one hash out. -/
theorem addsNothing_removeAt {pair : K × V} (h : t.Intact) (ht : t.removeAt i = .ok (pair, t')) : t.AddsNothing t' := by
  obtain ⟨is, hs⟩ := h
  obtain ⟨as, bs, rfl, hremoves⟩ := hs.removeAt_of_ok ht
  refine ⟨⟨_, hremoves.sound⟩, removeAt_keeps ht, hremoves.buckets, ?_⟩
  have hclose : (as ++ closeUp t.order.isDense bs).Perm (as ++ bs) := (closeUp_perm _ bs).append_left as
  have hleft := hashes_perm hremoves.sound.order
  rw [List.filterMap_map, List.filterMap_congr (g := t.hashAt) fun k hk => ?_] at hleft
  · have hsub : ((as ++ bs).filterMap t.hashAt).Sublist ((as ++ i :: bs).filterMap t.hashAt) :=
      ((List.sublist_cons_self i bs).append_left as).filterMap _
    exact (hleft.symm.trans (hclose.filterMap _)).subperm.trans
      (hsub.subperm.trans (hashes_perm hs.order).subperm)
  -- what stays has kept its hash
  · exact congrArg (Option.map Prod.fst) (hremoves.content k (hclose.mem_iff.mp hk))

/-- A removal by key takes one hash out at most. -/
theorem addsNothing_remove {pair : Option (K × V)} (h : t.Intact) (ht : t.remove hash key = .ok (pair, t')) :
    t.AddsNothing t' := by
  obtain ⟨is, hs⟩ := id h
  rcases hs.remove_of_ok ht with rfl | ⟨i, p, hremoved⟩
  · exact h.addsNothing_refl
  · exact h.addsNothing_removeAt hremoved

theorem addsNothing_cleared (h : t.Intact) : t.AddsNothing t.cleared := by
  have hbuckets : t.cleared.buckets = t.buckets := Array.size_replicate
  exact ⟨h.cleared, ⟨rfl, rfl, fun hb => hbuckets ▸ hb⟩, hbuckets, List.nil_subperm⟩

/-- An update changes a value and the order. -/
theorem addsNothing_update {old : V} {moved : Bool} (h : t.Intact) (ht : t.update i value = .ok (old, moved, t')) :
    t.AddsNothing t' := by
  obtain ⟨is, hs⟩ := h
  obtain ⟨e, he, -⟩ := Checked.bind_eq_ok ht
  have hc := content_of_entry he
  obtain ⟨as, bs, rfl⟩ := List.append_of_mem (hs.mem_of_content hc)
  obtain ⟨t₁, ht₁, -, hsound, hcontent⟩ := hs.update_eq hc value
  obtain rfl : t₁ = t' := (Prod.mk.inj (Prod.mk.inj (Except.ok.inj (ht₁.symm.trans ht))).2).2
  exact ⟨⟨_, hsound⟩, (update_keeps ht).1, (update_keeps ht).2, hashes_of_update hc hcontent ▸ .refl _⟩

end Intact

/-! ## More buckets -/

namespace Sound

/-- Allocating gives buckets to a table without entries. -/
theorem allocate_widens (h : t.Sound is) : t.allocate.Leaves t.Widens := by
  refine ⟨⟨is, h.allocate_leaves.2⟩, ?_, h.allocate_leaves.1.hashes⟩
  by_cases hb : t.buckets = 0
  · rw [hb]
    exact Nat.zero_le _
  · rw [allocate_of_ne hb]
    exact Nat.le_refl _

/-- Growing keeps the hashes and takes no bucket away. -/
theorem grow_widens (h : t.Sound is) (hb : t.buckets ≠ 0) : t.grow.Leaves t.Widens :=
  ⟨⟨is, (h.grow_leaves hb).2⟩, t.grow_buckets, (h.grow_leaves hb).1.hashes⟩

/-- A request for more than there is room for asks for more buckets than there are. -/
theorem le_bucketsFor (h : t.Sound is) (hlf : t.loadFactor.IsLoad) {count n : Nat} (hb : t.buckets ≠ 0)
    (hcount : t.capacity < count) (hn : bucketsFor count t.loadFactor = .ok n) : t.buckets ≤ n := by
  obtain ⟨k, hk30, hk⟩ := h.exists_two_pow hb
  obtain ⟨hroom, -, -, m, rfl⟩ := bucketsFor_spec hn
  rw [capacity, if_neg hb] at hcount
  by_contra hlt
  have hmk : m ≤ k := (Nat.pow_le_pow_iff_right (by decide)).mp (hk ▸ Nat.le_of_not_le hlt)
  have hmono := capacityOf_mono hlf hmk (hk30.trans (by decide))
  rw [← hk] at hmono
  omega

/-- Making room never takes buckets away. -/
theorem reserve_widens (h : t.Sound is) (hlf : t.loadFactor.IsLoad) (more : Nat) :
    (t.reserve more).Leaves t.Widens := by
  refine ⟨⟨is, (h.reserve_leaves more).2⟩, ?_, (h.reserve_leaves more).1.hashes⟩
  by_cases hb : t.buckets = 0
  · rw [hb]
    exact Nat.zero_le _
  · rw [reserve]
    dsimp only
    rw [if_neg hb]
    refine Reply.Leaves.andThen (Q := fun t' : Table K V => t.buckets ≤ t'.buckets) ?_ fun _ _ h' => by
      rwa [Reply.Leaves, ensure_state]
    split
    · rename_i hcount
      cases hn : bucketsFor (min (t.size + more) maxWord) t.loadFactor with
      | error f => exact Nat.le_refl t.buckets
      | ok n =>
          show t.buckets ≤ (t.resize n).state.buckets
          rcases t.resize_state n with heq | ⟨-, hbuckets, -⟩
          · rw [heq]
          · rw [hbuckets]
            exact h.le_bucketsFor hlf hb hcount hn
    · exact Nat.le_refl t.buckets

end Sound

/-! ## Insertions -/

variable {chain : Nat} {resized moved : Bool} {old : V}

namespace Sound

/-- An insertion that found its key adds nothing. -/
theorem insertAllocated_updated (h : t.Sound is) (hb : t.buckets ≠ 0)
    (hok : (t.insertAllocated hash key value).result = .ok (.updated old moved)) :
    t.AddsNothing (t.insertAllocated hash key value).state := by
  obtain ⟨chains, hch⟩ := h.chained
  rcases hch.insertAllocated_cases hb hash key value with ⟨i, -, heq⟩ | ⟨-, heq⟩
  · rw [heq] at hok ⊢
    cases hupdate : t.update i value with
    | ok r => exact Intact.addsNothing_update ⟨is, h⟩ hupdate
    | error f => exact Intact.addsNothing_refl ⟨is, h⟩
  · rw [heq] at hok
    split at hok
    · cases hok
    · split at hok
      · obtain ⟨resized, -, heq⟩ := Reply.map_result_eq_ok hok
        cases heq
      · cases hok

variable [EquivBEq K]

/-- A new key was appended, and then the table grew if it had to. -/
theorem insertAllocated_appends (h : t.Sound is) (hb : t.buckets ≠ 0)
    (hok : (t.insertAllocated hash key value).result = .ok (.added chain resized)) :
    chain = t.load (bucketIndex t.buckets hash) + 1 ∧
      ∃ t₁, t.append (bucketIndex t.buckets hash) hash key value = .ok t₁ ∧ t₁.buckets ≠ 0 ∧
        t₁.Sound (is ++ [t.size]) ∧ t₁.grow.result = .ok resized ∧
          (t.insertAllocated hash key value).state = t₁.grow.state := by
  obtain ⟨chains, hch⟩ := h.chained
  rcases hch.insertAllocated_cases hb hash key value with ⟨i, -, heq⟩ | ⟨hnew, heq⟩
  · rw [heq] at hok
    split at hok <;> cases hok
  · rw [heq] at hok ⊢
    by_cases hfull : maxBuckets ≤ t.size
    · rw [if_pos hfull] at hok
      cases hok
    · rw [if_neg hfull] at hok ⊢
      obtain ⟨t₁, ht₁, -, hb₁, hsound, -⟩ := h.append_eq hb (Nat.not_le.mp hfull) hnew value
      rw [ht₁] at hok ⊢
      obtain ⟨grown, hgrown, heq⟩ := Reply.map_result_eq_ok hok
      obtain ⟨hchain, rfl⟩ := Inserted.added.inj heq
      rw [hch.length_eq_load (bucketIndex_lt hb hash)] at hchain
      exact ⟨hchain.symm, t₁, rfl, hb₁, hsound, hgrown, rfl⟩

/-- An insertion of a new key reports the length of its chain. If that is within a limit, so are all chains
    afterwards. -/
theorem insertAllocated_added (h : t.Sound is) (hb : t.buckets ≠ 0)
    (hok : (t.insertAllocated hash key value).result = .ok (.added chain resized)) :
    chain = t.load (bucketIndex t.buckets hash) + 1 ∧
      ∀ {limit}, t.Short limit → chain ≤ limit → (t.insertAllocated hash key value).state.Short limit := by
  obtain ⟨hchain, t₁, ht₁, hb₁, hsound, -, hstate⟩ := h.insertAllocated_appends hb hok
  refine ⟨hchain, fun {limit} hshort hle => ?_⟩
  rw [hstate]
  exact (hsound.grow_widens hb₁).short ⟨_, hsound⟩ (append_short ht₁ hshort (hchain ▸ hle))

/-- A key that was there has changed at its entry. -/
theorem insert_updated (h : t.Sound is) (hok : (t.insert hash key value).result = .ok (.updated old moved)) :
    t.AddsNothing (t.insert hash key value).state := by
  have hb : t.buckets ≠ 0 := by
    intro hzero
    cases ((h.insert_meets hash key value).of_ok hok).1 with
    | updated split found same sound content =>
        have := lt_size_of_content found
        have := h.unallocated hzero
        omega
  rw [insert, allocate_of_ne hb] at hok ⊢
  exact h.insertAllocated_updated hb hok

/-- A new key tells how full its bucket has become, in the buckets that were there. If that is within the limit, so is
    every bucket that there is afterwards. -/
theorem insert_added (h : t.Sound is) (hok : (t.insert hash key value).result = .ok (.added chain resized)) :
    chain = t.load (bucketIndex t.buckets hash) + 1 ∧ (t.insert hash key value).state.size = t.size + 1 ∧
      ∀ {limit}, t.Short limit → chain ≤ limit → (t.insert hash key value).state.Short limit := by
  have hsize : (t.insert hash key value).state.size = t.size + 1 := by
    cases ((h.insert_meets hash key value).of_ok hok).1 with
    | added absent sound content => exact h.size_of_listed sound
  rw [insert] at hok hsize ⊢
  obtain ⟨u, hu, hok', hstate⟩ := Reply.andThen_result_eq_ok hok
  obtain ⟨-, hsound, hb⟩ := h.allocate_meets.of_ok hu
  obtain ⟨hchain, hshort'⟩ := hsound.insertAllocated_added hb hok'
  refine ⟨?_, hsize, fun {limit} hshort hle => ?_⟩
  · by_cases hzero : t.buckets = 0
    -- all loads of a table without entries are zero
    · have hnone := h.hashes_eq_nil hzero
      rw [hchain, load_of_no_hashes hnone, load_of_no_hashes (h.allocate_widens.hashes.trans hnone)]
    · rw [hchain, allocate_of_ne hzero]
      rfl
  · rw [hstate]
    exact hshort' (h.allocate_widens.short ⟨is, h⟩ hshort) hle

end Sound

end Table

end DenseHash
