import DenseHash.Operation
import DenseHash.Proofs.Container.Parts

/-!
# Lookups, uses and removals

Each operation answers what it answers on the listing of the container, and leaves a container that shows what
is left of the listing. `Container.Answers` says so; none of the operations here can be refused.
-/

namespace DenseHash

namespace Container

variable [Backing] {K V : Type} [BEq K] {c c' : Container K V} {slots as bs : List Slot} {slot : Slot}
  {ps : List (K × V)} {key stored : K} {value : V} {s : Store K V}

/-- The answer is that of the listing, and so is what the container shows afterwards. -/
def Answers (c : Container K V) (slots : List Slot) (ps : List (K × V)) (op : Operation K V)
    (a : Answer K V) (c' : Container K V) : Prop :=
  ((c.listingOf ps).apply op).1 = a ∧
    c.Becomes ((c.listingOf ps).changes op) slots ((c.listingOf ps).apply op).2.pairs c'

namespace Shows

/-- An operation that changes nothing. -/
theorem answers_self {op : Operation K V} {a : Answer K V} (h : c.Shows slots ps)
    (happly : (c.listingOf ps).apply op = (a, c.listingOf ps))
    (hchanges : (c.listingOf ps).changes op = 0) : Answers c slots ps op a c := by
  rw [Answers, happly, hchanges]
  exact ⟨rfl, h.becomes_self⟩

/-! ## Emptying -/

/-- Clearing leaves no entries and counts as one change. -/
theorem clear_answers (h : c.Shows slots ps) : Answers c slots ps .clear .done c.clear :=
  ⟨rfl, [], ⟨h.sound.cleared, rfl⟩, .counted c.store.sameKind_cleared⟩

/-- What is taken out are the entries in order, and storage without entries is left. -/
theorem take_eq (h : c.Shows slots ps) : c.store.take = .ok (ps, c.store.renewed) := by
  rw [Store.take, h.sound.pairs_eq, h.pairs]
  rfl

/-- Draining gives the entries in order and leaves none. -/
theorem drain_gives (h : c.Shows slots ps) :
    c.drain.Gives fun a c' => Answers c slots ps .drain (.pairs a) c' := by
  rw [drain]
  rw [h.take_eq]
  exact Reply.gives_ok ⟨rfl, [], ⟨h.sound.renewed, rfl⟩, .counted c.store.sameKind_renewed⟩

/-! ## Removing -/

/-- An operation that removes the entry in a slot and tells it. -/
theorem answers_removed {op : Operation K V} {p : K × V} {rename : Slot → Slot}
    (h : c.Shows (as ++ slot :: bs) ps) (hp : c.store.held slot = some p)
    (hremoved : Removed c as slot bs rename c')
    (happly : (c.listingOf ps).apply op =
      (.pair (some p), (c.listingOf ps).removeAt (as.filterMap c.store.held).length))
    (hchanges : (c.listingOf ps).changes op = 1) :
    Answers c (as ++ slot :: bs) ps op (.pair (some p)) c' := by
  obtain ⟨p', hp', hps⟩ := h.split
  rw [hp] at hp'
  cases hp'
  rw [Listing.removeAt_length (l := c.listingOf ps) hps] at happly
  rw [Answers, happly, hchanges]
  exact ⟨rfl, _, hremoved.shows, hremoved.evolves⟩

/-- The first entry is removed, if there is one. -/
theorem popFirst_gives (h : c.Shows slots ps) :
    c.popFirst.Gives fun a c' => Answers c slots ps .popFirst (.pair a) c' := by
  rw [popFirst]
  rw [h.sound.first_eq]
  cases slots with
  | nil =>
      obtain rfl : [] = ps := h.pairs
      exact Reply.gives_ok (h.answers_self (congrArg _ (Listing.removeAt_nil rfl _)) rfl)
  | cons slot bs =>
      have hfirst : c.Shows ([] ++ slot :: bs) ps := h
      obtain ⟨p, hp, rfl⟩ := hfirst.split
      refine Reply.Gives.map ((hfirst.removeSlot_gives hp (.inl rfl)).imp fun r c' hr => ?_)
      obtain ⟨rfl, rename, hremoved, -⟩ := hr
      exact answers_removed h hp hremoved rfl rfl

/-- The last entry is removed, if there is one. -/
theorem popLast_gives (h : c.Shows slots ps) :
    c.popLast.Gives fun a c' => Answers c slots ps .popLast (.pair a) c' := by
  rw [popLast]
  rw [h.sound.last_eq]
  rcases List.eq_nil_or_concat' slots with rfl | ⟨as, slot, rfl⟩
  · obtain rfl : [] = ps := h.pairs
    exact Reply.gives_ok (h.answers_self (congrArg _ (Listing.removeAt_nil rfl _)) rfl)
  · obtain ⟨p, hp, hps⟩ := h.split
    rw [List.getLast?_concat]
    refine Reply.Gives.map ((removeSlot_gives h hp (.inl rfl)).imp fun r c' hr => ?_)
    obtain ⟨rfl, rename, hremoved, -⟩ := hr
    rw [List.filterMap_nil] at hps
    refine answers_removed h hp hremoved ?_ ?_
    · show (Answer.pair ps.getLast?, (c.listingOf ps).removeAt (ps.length - 1)) = _
      rw [hps, List.getLast?_concat, List.length_append, List.length_singleton, Nat.add_sub_cancel]
    · show (if ps.isEmpty then 0 else 1) = 1
      simp [hps]

/-- An operation that uses the entry in a slot and leaves `p` there. -/
theorem answers_used {op : Operation K V} {a : Answer K V} {p : K × V} (h : c.Shows (as ++ slot :: bs) ps)
    (happly : (c.listingOf ps).apply op =
      (a, (c.listingOf ps).use (as.filterMap c.store.held).length p))
    (hchanges : (c.listingOf ps).changes op =
      (c.listingOf ps).useChanges (as.filterMap c.store.held).length)
    (hbecomes : c.Becomes (c.store.byAccess && !bs.isEmpty).toNat (as ++ slot :: bs)
      (used c.store.byAccess (as.filterMap c.store.held) p (bs.filterMap c.store.held)) c') :
    Answers c (as ++ slot :: bs) ps op a c' := by
  obtain ⟨p', hp', hps⟩ := h.split
  rw [Listing.use_length (l := c.listingOf ps) hps] at happly
  rw [Listing.useChanges_length (l := c.listingOf ps) hps, h.isEmpty_behind] at hchanges
  rw [Answers, happly, hchanges]
  exact ⟨rfl, hbecomes⟩

/-! ## By key -/

/-- A key that was found in a slot is removed there. -/
theorem remove_present (h : c.Shows (as ++ slot :: bs) ps) (hfind : c.find key = .ok (some slot))
    (hp : c.store.held slot = some (stored, value)) :
    (c.remove key).Gives fun a c' => a = some (stored, value) ∧ ∃ rename, Removed c as slot bs rename c' := by
  have hremoved {s : Store K V} {rename : Slot → Slot} (hremoves : c.store.Removes c.hashing as bs rename s) :
      Removed c as slot bs rename ({ c with store := s } : Container K V).bump := h.removed_of_store hremoves
  rw [find] at hfind
  rw [remove]
  cases hs : c.store with
  | table t =>
      rw [hs] at hp hremoved hfind
      obtain ⟨is, hslots, ht, hhash⟩ := h.sound.exists_indices hs
      obtain ⟨js, i, ks, rfl, rfl, rfl, rfl⟩ := map_eq_append_cons hslots.symm
      obtain ⟨r, hr, hmap⟩ := Checked.bind_eq_ok hfind
      -- what was found by key is the slot itself
      obtain rfl : r = some i := (Option.map_injective Store.index_injective) (Except.ok.inj hmap)
      obtain ⟨⟨hash, pair⟩, hc, rfl⟩ := Option.map_eq_some_iff.mp hp
      obtain ⟨t', ht', hremoves⟩ := ht.removeAt_eq hc
      dsimp only
      rw [ht.remove_eq, hr, Checked.ok_bind]
      dsimp only
      rw [ht']
      exact Reply.gives_ok ⟨rfl, _, hremoved (Store.removes_table hhash hremoves)⟩
  | fallback f =>
      rw [hs] at hp hremoved hfind
      obtain ⟨ss, hslots, hf, hdraws⟩ := h.sound.exists_nodes hs
      obtain ⟨js, k, ks, rfl, rfl, rfl, rfl⟩ := map_eq_append_cons hslots.symm
      obtain ⟨r, hr, hmap⟩ := Checked.bind_eq_ok hfind
      obtain rfl : r = some k := (Option.map_injective Store.node_injective) (Except.ok.inj hmap)
      obtain ⟨⟨hash, pair⟩, hc, rfl⟩ := Option.map_eq_some_iff.mp hp
      obtain ⟨f', hf', hsound, hdraws', haccess, hcontent⟩ := hf.removeSlot_eq hc
      have hnot : k ∉ js ++ ks := (List.nodup_middle.mp hf.nodup).notMem
      dsimp only
      rw [Fallback.remove, hr, Checked.ok_bind]
      dsimp only
      rw [hf']
      exact Reply.gives_ok ⟨rfl, id, hremoved
        (Store.removes_fallback hsound (hdraws'.symm ▸ hdraws) haccess hnot hcontent)⟩

/-- A key that was not found is not removed. -/
theorem remove_absent (h : c.Shows slots ps) (hfind : c.find key = .ok none) :
    (c.remove key).Gives fun a c' => a = none ∧ c' = c := by
  rw [find] at hfind
  rw [remove]
  cases hs : c.store with
  | table t =>
      rw [hs] at hfind
      obtain ⟨is, -, ht, -⟩ := h.sound.exists_indices hs
      obtain ⟨r, hr, hmap⟩ := Checked.bind_eq_ok hfind
      obtain rfl : r = none := Option.map_eq_none_iff.mp (Except.ok.inj hmap)
      dsimp only
      rw [ht.remove_eq, hr]
      refine Reply.gives_ok ⟨rfl, ?_⟩
      show { c with store := Store.table t } = c
      rw [← hs]
  | fallback f =>
      rw [hs] at hfind
      obtain ⟨r, hr, hmap⟩ := Checked.bind_eq_ok hfind
      obtain rfl : r = none := Option.map_eq_none_iff.mp (Except.ok.inj hmap)
      dsimp only
      rw [Fallback.remove, hr]
      refine Reply.gives_ok ⟨rfl, ?_⟩
      show { c with store := Store.fallback f } = c
      rw [← hs]

variable [EquivBEq K]

/-- Removing a key removes the entry that the list of entries would. -/
theorem remove_gives (h : c.Shows slots ps) (hr : c.hashing.Respects) (key : K) :
    (c.remove key).Gives fun a c' => Answers c slots ps (.remove key) (.pair a) c' := by
  obtain ⟨r, hfind, hfound⟩ := h.find_eq hr key
  have hd : DistinctKeys (c.listingOf ps).pairs := h.distinctKeys hr
  cases hfound with
  | present held same =>
      refine (h.remove_present hfind held).imp fun a c' ha => ?_
      obtain ⟨rfl, rename, hremoved⟩ := ha
      refine answers_removed h held hremoved ?_ ?_
      · rw [Listing.apply, Listing.locate?_eq_some hd rfl same]
      · rw [Listing.changes, Listing.entry?_eq_some hd rfl same]
        rfl
  | absent missing =>
      refine (h.remove_absent hfind).imp fun a c' ha => ?_
      obtain ⟨rfl, rfl⟩ := ha
      refine h.answers_self ?_ ?_
      · rw [Listing.apply, Listing.locate?_eq_none missing]
      · rw [Listing.changes, Listing.entry?_eq_none missing]
        rfl

/-! ## Using -/

/-- Looking a value up uses the entry that the list of entries would. -/
theorem get_gives (h : c.Shows slots ps) (hr : c.hashing.Respects) (key : K) :
    (c.get key).Gives fun a c' => Answers c slots ps (.get key) (.value a) c' := by
  obtain ⟨r, hfind, hfound⟩ := h.find_eq hr key
  have hd : DistinctKeys (c.listingOf ps).pairs := h.distinctKeys hr
  rw [get]
  rw [hfind]
  cases hfound with
  | present held same =>
      refine (h.get_present held).imp fun a c' ha => ?_
      obtain ⟨rfl, hbecomes⟩ := ha
      refine answers_used h ?_ ?_ hbecomes
      · rw [Listing.apply, Listing.locate?_eq_some hd rfl same]
      · rw [Listing.changes, Listing.locate?_eq_some hd rfl same]
  | absent missing =>
      refine Reply.gives_ok (h.answers_self ?_ ?_)
      · rw [Listing.apply, Listing.locate?_eq_none missing]
      · rw [Listing.changes, Listing.locate?_eq_none missing]

/-- Changing a value uses the entry that the list of entries would, and changes its value. -/
theorem modify_gives (h : c.Shows slots ps) (hr : c.hashing.Respects) (key : K) (g : V → V) :
    (c.modify key g).Gives fun a c' => Answers c slots ps (.modify key g) (.value a) c' := by
  obtain ⟨r, hfind, hfound⟩ := h.find_eq hr key
  have hd : DistinctKeys (c.listingOf ps).pairs := h.distinctKeys hr
  rw [modify]
  rw [hfind]
  cases hfound with
  | present held same =>
      refine (h.modify_present held g).imp fun a c' ha => ?_
      obtain ⟨rfl, hbecomes⟩ := ha
      refine answers_used h ?_ ?_ hbecomes
      · rw [Listing.apply, Listing.locate?_eq_some hd rfl same]
      · rw [Listing.changes, Listing.locate?_eq_some hd rfl same]
  | absent missing =>
      refine Reply.gives_ok (h.answers_self ?_ ?_)
      · rw [Listing.apply, Listing.locate?_eq_none missing]
      · rw [Listing.changes, Listing.locate?_eq_none missing]

/-! ## Only looking -/

/-- The entry under a key is the one in the list. -/
theorem entry?_eq (h : c.Shows slots ps) (hr : c.hashing.Respects) (key : K) :
    c.entry? key = .ok (Listing.entry? (c.listingOf ps) key) := by
  obtain ⟨r, hfind, hfound⟩ := h.find_eq hr key
  have hd : DistinctKeys (c.listingOf ps).pairs := h.distinctKeys hr
  rw [Container.entry?, hfind, Checked.ok_bind]
  cases hfound with
  | present held same =>
      rw [Listing.entry?_eq_some hd rfl same]
      show (c.store.pair _ >>= _) = _
      rw [Store.pair_eq held]
      rfl
  | absent missing =>
      rw [Listing.entry?_eq_none missing]
      rfl

/-- A key is contained if the list has an entry under it. -/
theorem contains_eq (h : c.Shows slots ps) (hr : c.hashing.Respects) (key : K) :
    c.contains key = .ok (Listing.entry? (c.listingOf ps) key).isSome := by
  obtain ⟨r, hfind, hfound⟩ := h.find_eq hr key
  have hd : DistinctKeys (c.listingOf ps).pairs := h.distinctKeys hr
  rw [contains, hfind, Checked.ok_bind]
  cases hfound with
  | present held same =>
      rw [Listing.entry?_eq_some hd rfl same]
      rfl
  | absent missing =>
      rw [Listing.entry?_eq_none missing]
      rfl

/-- A key that no entry has is not contained. -/
theorem contains_eq_false (h : c.Shows slots ps) (hr : c.hashing.Respects) (hnew : ∀ p ∈ ps, (p.1 == key) = false) :
    c.contains key = .ok false := by
  rw [h.contains_eq hr, Listing.entry?_eq_none hnew]
  rfl

/-- Looking at a value without using its entry. -/
theorem peek_eq (h : c.Shows slots ps) (hr : c.hashing.Respects) (key : K) :
    c.peek key = .ok ((Listing.entry? (c.listingOf ps) key).map Prod.snd) := by
  rw [peek, h.entry?_eq hr, Checked.ok_bind]
  rfl

end Shows

end Container

end DenseHash
