import DenseHash.Proofs.Arena.Basic
import DenseHash.Proofs.Container.Stored

/-!
# What the generation records

A cursor trusts its slots as long as the generation is the one that it remembers. So the generation has to change
whenever a slot of the traversal may mean something else, and it should not change when none does.

* **`Container.traversal`** is the structure that is meant: the slots in traversal order, each with its key. Values are
  no part of it, and neither is the number of buckets.
* An operation after which the generation is the same has left the traversal and the form of storage as they were. The
  generation is a word, so this needs fewer than `2 ^ 64` changes in one operation.
* An operation after which both are the same has left the generation as it was, if it is *exact*. Emptying a container
  and inserting many entries are not: they count what they do, also where nothing of it is left to be seen.
-/

namespace DenseHash

variable {K V : Type}

/-- The slots in traversal order, each with the key that it holds. -/
def Container.traversal [Backing] (c : Container K V) : Checked (List (Slot × K)) := do
  let slots ← c.store.slots
  slots.mapM fun slot => do
    let (key, _) ← c.store.pair slot
    pure (slot, key)

/-- The operations that count a change only if there is one to be seen. -/
def Operation.Exact : Operation K V → Prop
  | .extend _ _ | .drain | .clear => False
  | _ => True

/-! ## Listings -/

namespace Listing

variable [BEq K] [EquivBEq K] {l : Listing K V} {as bs : List (K × V)} {stored key : K} {value value' : V}
  {op : Operation K V}

/-- A use that leaves the keys in their order moved nothing, because the keys are distinct. -/
theorem useChanges_eq_zero (hd : DistinctKeys l.pairs) (hl : l.pairs = as ++ (stored, value) :: bs)
    (hkeys : (l.use as.length (stored, value')).pairs.map Prod.fst = l.pairs.map Prod.fst) :
    l.useChanges as.length = 0 := by
  rw [use_length hl] at hkeys
  rw [useChanges_length hl]
  cases hb : l.byAccess with
  | false => rfl
  | true =>
      cases bs with
      | nil => rfl
      | cons q bs =>
          dsimp only at hkeys
          rw [hb, hl, used, if_pos rfl] at hkeys
          have hmoved : q.1 = stored := by
            simp only [List.map_append, List.map_cons, List.append_assoc, List.cons_append] at hkeys
            exact (List.cons.inj (List.append_cancel_left hkeys)).1
          -- the key behind would be equal to the one that was used
          rw [hl] at hd
          have hne := (List.pairwise_cons.mp (List.pairwise_append.mp hd).2.1).1 q List.mem_cons_self
          rw [hmoved, BEq.refl] at hne
          cases hne

/-- An exact operation that leaves the keys as they were has changed nothing. -/
theorem changes_eq_zero (hd : DistinctKeys l.pairs) (hop : op.Exact)
    (hkeys : (l.apply op).2.pairs.map Prod.fst = l.pairs.map Prod.fst) : l.changes op = 0 := by
  have hlength : (l.apply op).2.pairs.length = l.pairs.length := by
    simpa using congrArg List.length hkeys
  cases op with
  | insert key value =>
      rcases locate?_cases hd key with ⟨as, stored, old, bs, hl, -, hlocate⟩ | ⟨hmissing, -⟩
      · rw [apply, insert, hlocate] at hkeys
        rw [changes, insertChanges, hlocate]
        exact useChanges_eq_zero hd hl hkeys
      · rw [apply, (insert_absent hmissing value).1] at hlength
        simp at hlength
  | get key =>
      rcases locate?_cases hd key with ⟨as, stored, value, bs, hl, -, hlocate⟩ | ⟨-, hlocate⟩
      · rw [apply, hlocate] at hkeys
        rw [changes, hlocate]
        exact useChanges_eq_zero hd hl hkeys
      · rw [changes, hlocate]
  | modify key change =>
      rcases locate?_cases hd key with ⟨as, stored, value, bs, hl, -, hlocate⟩ | ⟨-, hlocate⟩
      · rw [apply, hlocate] at hkeys
        rw [changes, hlocate]
        exact useChanges_eq_zero hd hl hkeys
      · rw [changes, hlocate]
  | remove key =>
      rcases locate?_cases hd key with ⟨as, stored, value, bs, hl, -, hlocate⟩ | ⟨hmissing, -⟩
      · rw [apply, hlocate] at hlength
        have := length_removeAt (l := l) (i := as.length) (by simp [hl])
        dsimp only at hlength
        omega
      · rw [changes, entry?_eq_none hmissing]
        rfl
  | popFirst =>
      rw [changes]
      cases hl : l.pairs with
      | nil => rfl
      | cons p bs =>
          have := length_removeAt (l := l) (i := 0) (by simp [hl])
          rw [apply] at hlength
          dsimp only at hlength
          omega
  | popLast =>
      rw [changes]
      cases hl : l.pairs with
      | nil => rfl
      | cons p bs =>
          have := length_removeAt (l := l) (i := l.pairs.length - 1) (by simp [hl])
          rw [apply] at hlength
          dsimp only at hlength
          omega
  | retain keep =>
      rw [changes, hlength, Nat.sub_self]
  | extend hint pairs => exact hop.elim
  | drain => exact hop.elim
  | clear => exact hop.elim
  | _ => rfl

end Listing

/-! ## Containers -/

namespace Container

section Structure

variable [Backing] {c c' : Container K V} {slots slots' : List Slot} {ps ps' : List (K × V)} {n : Nat}

/-- The traversal of a sound container, and what its keys are. -/
theorem Shows.traversal_eq [BEq K] (h : c.Shows slots ps) :
    ∃ ks, c.traversal = .ok ks ∧ c.store.labels slots = ks.map (Prod.map id some) ∧
      ks.map Prod.snd = ps.map Prod.fst := by
  let label (slot : Slot) : Option (Slot × K) := (c.store.held slot).map fun p => (slot, p.1)
  have hheld : ∀ slot ∈ slots, ∃ p, c.store.held slot = some p := fun slot hslot => h.held_of_mem hslot
  refine ⟨slots.filterMap label, ?_, ?_, ?_⟩
  · rw [traversal, h.sound.slots_eq, Checked.ok_bind]
    refine Checked.mapM_eq_filterMap fun slot hslot => ?_
    obtain ⟨p, hp⟩ := hheld slot hslot
    refine ⟨(slot, p.1), by simp [label, hp], ?_⟩
    rw [Store.pair_eq hp]
    rfl
  · rw [Store.labels, List.map_filterMap, ← List.filterMap_eq_map]
    refine List.filterMap_congr fun slot hslot => ?_
    obtain ⟨p, hp⟩ := hheld slot hslot
    simp [label, hp]
  · rw [← h.pairs, List.map_filterMap, List.map_filterMap]
    refine List.filterMap_congr fun slot _ => ?_
    simp [label, Function.comp_def]

/-- The form of storage is the same, and the same slots are traversed and hold the same keys. -/
def SameStructure (c c' : Container K V) : Prop :=
  c'.isFallback = c.isFallback ∧ ∃ ks, c.traversal = .ok ks ∧ c'.traversal = .ok ks

/-- The same keys are listed in the same order. -/
def SameKeys (c c' : Container K V) : Prop :=
  ∃ ps ps', c.toList = .ok ps ∧ c'.toList = .ok ps' ∧ ps'.map Prod.fst = ps.map Prod.fst

/-- Without a change of form there was no switch. -/
theorem floods_eq_zero (h : c'.isFallback = c.isFallback) : c.floods c' = 0 := by
  rw [floods, h]
  cases c.isFallback <;> rfl

/-- If nothing was counted, the generation is the same and no cursor sees a difference. -/
theorem Evolves.generation_eq (hev : c.Evolves n slots c' slots') (hzero : n + c.floods c' = 0) :
    c'.generation = c.generation ∧ ∀ cur : Cursor, cur.check c' = cur.check c := by
  have hgeneration : c'.generation = c.generation := by
    rw [hev.generation, hzero]
    exact UInt64.add_zero _
  refine ⟨hgeneration, fun cur => ?_⟩
  rw [Cursor.check, Cursor.check, hev.owner, hgeneration]

variable [BEq K]

section Change

variable (h : c.Shows slots ps) (h' : c'.Shows slots' ps') (hev : c.Evolves n slots c' slots')
include h h' hev

/-- Without a change of structure, the structure is the same. -/
theorem Evolves.sameStructure (hzero : n + c.floods c' = 0) : c.SameStructure c' := by
  obtain ⟨ks, hks, hlabels, -⟩ := h.traversal_eq
  obtain ⟨ks', hks', hlabels', -⟩ := h'.traversal_eq
  constructor
  · have hfloods := Nat.eq_zero_of_add_eq_zero_left hzero
    have hkept := hev.isFallback
    rw [floods] at hfloods
    cases hc : c.isFallback <;> cases hc' : c'.isFallback <;> simp_all
  · refine ⟨ks, hks, ?_⟩
    -- a slot holds the key that its label tells
    have hsame : ks'.map (Prod.map id some) = ks.map (Prod.map id some) := by
      rw [← hlabels', ← hlabels, hev.steady hzero]
    have hinjective : Function.Injective (Prod.map id some : Slot × K → Slot × Option K) :=
      Function.injective_id.prodMap (Option.some_injective K)
    rw [hks', List.map_injective_iff.mpr hinjective hsame]

/-- If fewer changes were counted than a word has values, the generation tells whether there were any. -/
theorem Evolves.sameStructure_of_generation (hword : n + c.floods c' < wordValues)
    (hgeneration : c'.generation = c.generation) : c.SameStructure c' := by
  have hcounted := hev.generation
  rw [hgeneration, eq_comm, add_ofNat_eq_self_iff, Nat.mod_eq_of_lt hword] at hcounted
  exact hev.sameStructure h h' hcounted

end Change

/-- The structure has the keys in it. -/
theorem SameStructure.sameKeys (hsame : c.SameStructure c') (h : c.Shows slots ps) (h' : c'.Shows slots' ps') :
    ps'.map Prod.fst = ps.map Prod.fst := by
  obtain ⟨-, ks, hks, hks'⟩ := hsame
  obtain ⟨ls, hls, -, hkeys⟩ := h.traversal_eq
  obtain ⟨ls', hls', -, hkeys'⟩ := h'.traversal_eq
  obtain rfl : ls = ks := Except.ok.inj (hls.symm.trans hks)
  obtain rfl : ls' = ls := Except.ok.inj (hls'.symm.trans hks')
  rw [← hkeys', hkeys]

/-! ## One step -/

/-- Through a cursor, whichever it is, an entry is removed or nothing happens. -/
theorem Shows.cursor_remove_generation (h : c.Shows slots ps) (cur : Cursor) :
    (cur.remove c).state.1.generation = c.generation ↔ c.SameStructure (cur.remove c).state.1 := by
  have hnothing : c.generation = c.generation ↔ c.SameStructure c := by
    simpa using Evolves.sameStructure h h (.refl c slots) (by rw [floods_eq_zero rfl])
  rcases h.cursor_remove_cases cur with ⟨hstate, -⟩ | ⟨-, as, slot, bs, rename, -, rfl, -, hremoved⟩
  · rwa [hstate]
  · obtain ⟨p, -, hps⟩ := h.split
    constructor
    · intro hgeneration
      rw [hremoved.evolves.generation, add_ofNat_eq_self_iff, floods_of_sameKind hremoved.kind] at hgeneration
      cases hgeneration
    · intro hsame
      -- one key is missing
      have hlength := congrArg List.length (hsame.sameKeys h hremoved.shows)
      rw [List.length_map, List.length_map, hps, List.length_append, List.length_append,
        Listing.length_closeUp, List.length_cons] at hlength
      omega

variable [EquivBEq K]

/-- An exact operation that leaves the keys in their order, and the entries where they are stored, counts nothing. -/
theorem Shows.exact_counts_nothing (h : c.Shows slots ps) (hr : c.hashing.Respects) {op : Operation K V}
    {a : Answer K V}
    (hop : op.Exact) (hok : (c.apply op).result = .ok a) (hform : (c.apply op).state.isFallback = c.isFallback)
    (hkeys : c.SameKeys (c.apply op).state) : (c.listingOf ps).changes op + c.floods (c.apply op).state = 0 := by
  obtain ⟨-, slots', hshows', -⟩ := (h.apply_meets hr op).of_ok hok
  obtain ⟨qs, qs', hqs, hqs', hsame⟩ := hkeys
  obtain rfl : qs = ps := Except.ok.inj (hqs.symm.trans h.toList_eq)
  obtain rfl : qs' = _ := Except.ok.inj (hqs'.symm.trans hshows'.toList_eq)
  rw [floods_eq_zero hform, Nat.add_zero]
  exact Listing.changes_eq_zero (l := c.listingOf qs) (h.distinctKeys hr) hop hsame

variable {settings : Settings} {order : Order} {hashing : Hashing K} {owner : OwnerId} {c₀ : Container K V}
  {events : List Event}

/-- In every container that a run leads to, refused operations included: an operation that returns adds its changes of
    structure to the generation; if the generation is the same afterwards, so is the structure, as long as the changes
    do not fill a word; and if the structure is the same, an exact operation has left the generation alone. For that it
    is enough that the keys are in the same order and in the same form of storage, and then no cursor sees a difference.
    The same holds of a removal through a cursor. -/
theorem generation_records_structure (horder : order.Fresh) (hr : hashing.Respects)
    (hmake : make settings order hashing owner = .ok c₀) (hreach : c₀.Reaches Any events c) :
    (∀ op a, (c.apply op).result = .ok a →
        (c.apply op).state.generation = c.generation + UInt64.ofNat (c.changesBy op) ∧
        (c.changesBy op < wordValues → (c.apply op).state.generation = c.generation →
          c.SameStructure (c.apply op).state) ∧
        (op.Exact → c.SameStructure (c.apply op).state → (c.apply op).state.generation = c.generation) ∧
        (op.Exact → (c.apply op).state.isFallback = c.isFallback → c.SameKeys (c.apply op).state →
          c.SameStructure (c.apply op).state ∧ ∀ cur : Cursor, cur.check (c.apply op).state = cur.check c)) ∧
      ∀ cur : Cursor,
        (cur.remove c).state.1.generation = c.generation ↔ c.SameStructure (cur.remove c).state.1 := by
  obtain ⟨hrespects, slots, ps, hshows⟩ := hreach.shows_of_make horder hr hmake
  refine ⟨fun op a hok => ?_, hshows.cursor_remove_generation⟩
  obtain ⟨-, slots', hshows', hev⟩ := (hshows.apply_meets hrespects op).of_ok hok
  rw [hshows.changesBy_eq]
  refine ⟨hev.generation, hev.sameStructure_of_generation hshows hshows', fun hop hsame => ?_,
    fun hop hform hkeys => ?_⟩
  · have hkeys : c.SameKeys (c.apply op).state :=
      ⟨_, _, hshows.toList_eq, hshows'.toList_eq, hsame.sameKeys hshows hshows'⟩
    exact (hev.generation_eq (hshows.exact_counts_nothing hrespects hop hok hsame.1 hkeys)).1
  · have hzero := hshows.exact_counts_nothing hrespects hop hok hform hkeys
    exact ⟨hev.sameStructure hshows hshows' hzero, (hev.generation_eq hzero).2⟩

end Structure

/-- In the order of use, a lookup of the last key changes nothing, and one of the first key does. -/
theorem generation_records_structure_touch :
    ∃ (c₀ c : Container Nat Nat) (events : List Event),
      make {} (.ofMode true) ⟨fun _ => 0, ⟨fun _ _ => 0⟩⟩ 0 = .ok c₀ ∧ c₀.Reaches Any events c ∧
        c.toList = .ok [(1, 10), (2, 20)] ∧ c.SameStructure (c.apply (.get 2)).state ∧
          ¬c.SameStructure (c.apply (.get 1)).state := by
  have hr : Hashing.Respects (⟨fun _ => 0, ⟨fun _ _ => 0⟩⟩ : Hashing Nat) := ⟨fun _ => rfl, fun _ _ _ _ => rfl⟩
  have hmake : (make {} (.ofMode true) ⟨fun _ => 0, ⟨fun _ _ => 0⟩⟩ 0 : Except _ (Container Nat Nat)) = .ok _ := rfl
  have hreach := ((Reaches.start : Reaches Any (⟨⟨fun _ => 0, ⟨fun _ _ => 0⟩⟩,
    .table (.empty (.ofMode true) .threeQuarters 0), 9, 0, 0⟩ : Container Nat Nat) [] _).apply
      (.insert 1 10) trivial).apply (.insert 2 20) trivial
  have hrecords := generation_records_structure (.linked true) hr hmake hreach
  refine ⟨_, _, _, hmake, hreach, rfl, ?_, fun hsame => ?_⟩
  · exact (hrecords.1 (.get 2) (.value (some 20)) rfl).2.1 (by decide) rfl
  · exact absurd ((hrecords.1 (.get 1) (.value (some 10)) rfl).2.2.1 trivial hsame) (by decide)

end Container

end DenseHash
