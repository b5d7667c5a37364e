import DenseHash.Proofs.Container.Invariant

/-!
# Sound storage in a run

A container that was sound is sound after any run, and so shows some entries: also if operations were refused on the
way, since an insertion that is refused has written an entry in good order or nothing. Nothing is asked of the hash
functions for that. If equal keys have different hashes a lookup may miss an entry, but what it finds is there
(`Shows.find_cases`), so operations at single entries return (`Shows.apply_stillStored`).
-/

namespace DenseHash

variable {K V : Type} [BEq K]

omit [BEq K] in
/-- Whatever an insertion has written is under the hash of its key. -/
theorem Table.Hashed.writes {hashing : Hashing K} {t t' : Table K V} {key : K} {value : V}
    (h : t.Hashed hashing.stored) (hwrites : t.Writes (hashing.stored key) key value t') :
    t'.Hashed hashing.stored := by
  cases hwrites with
  | nothing content => exact fun hc => h (content ▸ hc)
  | value found content => exact h.update (h found) content
  | entry content => exact h.update rfl content

namespace Container

variable [Backing] {c : Container K V}

/-- A container with sound storage. -/
def Stored (c : Container K V) : Prop := ∃ slots, c.store.Sound c.hashing slots

namespace Stored

/-- Sound storage shows some entries. -/
theorem shows (h : c.Stored) : ∃ slots ps, c.Shows slots ps := by
  obtain ⟨slots, hsound⟩ := h
  exact ⟨slots, _, hsound, rfl⟩

/-- A table in sound storage is intact, and has every entry under the hash of its key. -/
theorem table {t : Table K V} (h : c.Stored) (hs : c.store = .table t) : t.Intact ∧ t.Hashed c.hashing.stored := by
  obtain ⟨slots, hsound⟩ := h
  obtain ⟨is, -, ht, hhash⟩ := hsound.exists_indices hs
  exact ⟨⟨is, ht⟩, hhash⟩

/-- An intact table is sound storage. -/
theorem of_table {t : Table K V} (ht : t.Intact) (hhash : t.Hashed c.hashing.stored) :
    ({ c with store := .table t } : Container K V).Stored := by
  obtain ⟨is, ht⟩ := ht
  exact ⟨is.map .index, is, rfl, ht, hhash⟩

/-- A removal at any slot, refused or not. -/
theorem removeSlot (h : c.Stored) (slot : Slot) (upcoming : Option Slot) :
    (c.removeSlot slot upcoming).state.hashing = c.hashing ∧ (c.removeSlot slot upcoming).state.Stored := by
  obtain ⟨slots, ps, hshows⟩ := h.shows
  rcases hshows.removeSlot_cases slot upcoming with ⟨hsame, -⟩ | ⟨-, as, bs, rename, -, -, -, hremoved⟩
  · rw [hsame]
    exact ⟨rfl, h⟩
  · exact ⟨hremoved.evolves.hashing, _, hremoved.sound⟩

end Stored

variable {hashing : Hashing K} {slots : List Slot} {ps : List (K × V)} {n : Nat} {c' : Container K V} {key : K}

/-- What became of a container has the same hash functions and sound storage. -/
structure StillStored (c c' : Container K V) : Prop where
  hashing : c'.hashing = c.hashing
  stored : c'.Stored

/-- What becomes of a container has sound storage. -/
theorem Becomes.stillStored (h : c.Becomes n slots ps c') : c.StillStored c' := by
  obtain ⟨slots', hshows, hev⟩ := h
  exact ⟨hev.hashing, slots', hshows.sound⟩

theorem Shows.stillStored_self (h : c.Shows slots ps) : c.StillStored c := ⟨rfl, slots, h.sound⟩

variable [EquivBEq K]

namespace Shows

/-- Looking a key up leads nowhere or to an entry that is there, whatever the hashes are. -/
theorem find_cases (h : c.Shows slots ps) (key : K) :
    c.find key = .ok none ∨
      ∃ as slot bs stored value, c.find key = .ok (some slot) ∧ slots = as ++ slot :: bs ∧
        c.store.held slot = some (stored, value) := by
  obtain ⟨r, hr, htells⟩ := h.find_tells key
  cases htells with
  | missed absent => exact .inl hr
  | @found slot stored value hheld hkey =>
      obtain ⟨as, bs, rfl⟩ := List.append_of_mem (h.sound.mem_iff.mpr ⟨_, hheld⟩)
      exact .inr ⟨as, slot, bs, stored, value, hr, rfl, hheld⟩

/-! ## Operations at single entries -/

/-- A lookup that may miss its entry still returns. -/
theorem get_stillStored (h : c.Shows slots ps) (key : K) : (c.get key).Gives fun _ c' => c.StillStored c' := by
  rw [get]
  rcases h.find_cases key with hfind | ⟨as, slot, bs, stored, value, hfind, rfl, hheld⟩
  · rw [hfind]
    exact Reply.gives_ok h.stillStored_self
  · rw [hfind]
    exact (h.get_present hheld).imp fun _ _ hc' => hc'.2.stillStored

/-- A change of the value returns, whether its entry is found or missed. -/
theorem modify_stillStored (h : c.Shows slots ps) (key : K) (g : V → V) :
    (c.modify key g).Gives fun _ c' => c.StillStored c' := by
  rw [modify]
  rcases h.find_cases key with hfind | ⟨as, slot, bs, stored, value, hfind, rfl, hheld⟩
  · rw [hfind]
    exact Reply.gives_ok h.stillStored_self
  · rw [hfind]
    exact (h.modify_present hheld g).imp fun _ _ hc' => hc'.2.stillStored

/-- A removal returns, whether its entry is found or missed. -/
theorem remove_stillStored (h : c.Shows slots ps) (key : K) : (c.remove key).Gives fun _ c' => c.StillStored c' := by
  rcases h.find_cases key with hfind | ⟨as, slot, bs, stored, value, hfind, rfl, hheld⟩
  · refine (h.remove_absent hfind).imp fun _ c' hc' => ?_
    obtain ⟨-, rfl⟩ := hc'
    exact h.stillStored_self
  · refine (h.remove_present hfind hheld).imp fun _ c' hc' => ?_
    obtain ⟨-, rename, hremoved⟩ := hc'
    exact ⟨hremoved.evolves.hashing, _, hremoved.sound⟩

/-- A lookup without a use returns too. -/
theorem entry?_isOk (h : c.Shows slots ps) (key : K) : ∃ p, c.entry? key = .ok p := by
  rw [Container.entry?]
  rcases h.find_cases key with hfind | ⟨as, slot, bs, stored, value, hfind, rfl, hheld⟩
  · rw [hfind]
    exact ⟨none, rfl⟩
  · rw [hfind, Checked.ok_bind]
    show ∃ p, (c.store.pair slot >>= _) = _
    rw [Store.pair_eq hheld]
    exact ⟨_, rfl⟩

theorem contains_isOk (h : c.Shows slots ps) (key : K) : ∃ b, c.contains key = .ok b := by
  rw [contains]
  rcases h.find_cases key with hfind | ⟨as, slot, bs, stored, value, hfind, -⟩
  · rw [hfind]
    exact ⟨false, rfl⟩
  · rw [hfind]
    exact ⟨true, rfl⟩

omit [EquivBEq K] in
/-- An operation that only reads. -/
theorem answer_stillStored {α : Type} {outcome : Checked α} {a : α} (g : α → Answer K V) (h : c.Shows slots ps)
    (houtcome : outcome = .ok a) : ((c.answer outcome).map g).Gives fun _ c' => c.StillStored c' := by
  rw [houtcome]
  exact Reply.gives_ok h.stillStored_self

/-- What works at single entries is never refused, whatever the hashes are. -/
theorem apply_stillStored (h : c.Shows slots ps) {op : Operation K V} (hop : ¬MayRebuild op) :
    (c.apply op).Gives fun _ c' => c.StillStored c' := by
  have hanswers {a : Answer K V} {c' : Container K V} (hc' : Answers c slots ps op a c') : c.StillStored c' :=
    hc'.2.stillStored
  cases op with
  | insert key value => exact absurd trivial hop
  | extend hint pairs => exact absurd trivial hop
  | reserve more => exact absurd trivial hop
  | shrink => exact absurd trivial hop
  | get key => exact Reply.Gives.map (h.get_stillStored key)
  | modify key change => exact Reply.Gives.map (h.modify_stillStored key change)
  | remove key => exact Reply.Gives.map (h.remove_stillStored key)
  | entry key =>
      obtain ⟨p, hp⟩ := h.entry?_isOk key
      exact h.answer_stillStored .pair hp
  | peek key =>
      obtain ⟨p, hp⟩ := h.entry?_isOk key
      refine h.answer_stillStored .value (a := p.map Prod.snd) ?_
      rw [peek, hp]
      rfl
  | contains key =>
      obtain ⟨b, hb⟩ := h.contains_isOk key
      exact h.answer_stillStored .flag hb
  | first => exact h.answer_stillStored .pair h.first_eq
  | last => exact h.answer_stillStored .pair h.last_eq
  | popFirst => exact Reply.Gives.map (h.popFirst_gives.imp fun _ _ hc' => hanswers hc')
  | popLast => exact Reply.Gives.map (h.popLast_gives.imp fun _ _ hc' => hanswers hc')
  | retain keep => exact Reply.Gives.map ((h.retainWith_gives keep).imp fun _ _ hc' => hanswers hc')
  | drain => exact Reply.Gives.map (h.drain_gives.imp fun _ _ hc' => hanswers hc')
  | clear => exact Reply.gives_ok (hanswers h.clear_answers)
  | iterate moves => exact h.answer_stillStored .readings (h.iter_run_eq moves)
  | revise moves change => exact Reply.Gives.map ((h.revise_gives moves change).imp fun _ _ hc' => hanswers hc')

end Shows

/-! ## Inserting and moving -/

/-- An insertion into a sound fallback is never refused. -/
theorem Stored.insert_fallback_stillStored {f : Fallback K V} (h : c.Stored) (hs : c.store = .fallback f) (key : K)
    (value : V) : (c.insert key value).Gives fun _ c' => c.StillStored c' := by
  obtain ⟨slots, hsound⟩ := h
  obtain ⟨ss, -, hf, hdraws⟩ := hsound.exists_nodes hs
  obtain ⟨r, f', hinsert, hinserts, hdraws', -⟩ := hf.insert_eq key value
  obtain ⟨ss', hsound'⟩ := hinserts.exists_sound
  have hstill : c.StillStored { c with store := .fallback f' } :=
    ⟨rfl, ss'.map .node, ss', rfl, hsound', hdraws'.symm ▸ hdraws⟩
  rw [Container.insert]
  rw [hs]
  dsimp only
  rw [hinsert]
  rcases r with - | ⟨old, moved⟩
  · exact Reply.gives_ok ⟨rfl, hstill.stored⟩
  · cases moved
    · exact Reply.gives_ok hstill
    · exact Reply.gives_ok ⟨rfl, hstill.stored⟩

/-- The guard moves intact tables into sound fallbacks. -/
theorem Stored.flood_stillStored (h : c.Stored) (chain : Nat) : (c.flood chain).Gives fun _ c' => c.StillStored c' := by
  cases hs : c.store with
  | fallback f =>
      rw [Container.flood]
      rw [hs]
      exact Reply.gives_ok ⟨rfl, h⟩
  | table t =>
      obtain ⟨f, ss, hflood, hf, hdraws⟩ := flood_eq hs (h.table hs).1 chain
      rw [hflood]
      exact ⟨(), rfl, rfl, ss.map .node, ss, rfl, hf, hdraws⟩

/-! ## A whole run -/

/-- Every operation keeps the storage sound. -/
theorem stored_invariant (hashing : Hashing K) :
    Invariant Any fun c : Container K V => c.hashing = hashing ∧ c.Stored where
  steady := by
    rintro c op ⟨rfl, h⟩ hop
    obtain ⟨slots, ps, hshows⟩ := h.shows
    obtain ⟨a, -, hstill⟩ := hshows.apply_stillStored hop
    exact ⟨hstill.hashing, hstill.stored⟩
  removeSlot := by
    rintro c ⟨rfl, h⟩ slot upcoming
    exact h.removeSlot slot upcoming
  copy := fun h _ => h
  bump := fun h => h
  flood := by
    rintro c ⟨rfl, h⟩ chain
    obtain ⟨u, -, hstill⟩ := h.flood_stillStored chain
    exact ⟨hstill.hashing, hstill.stored⟩
  room := fun _ _ _ => trivial
  insertFallback := by
    rintro c f ⟨rfl, h⟩ hs key value
    obtain ⟨old, -, hstill⟩ := h.insert_fallback_stillStored hs key value
    exact ⟨hstill.hashing, hstill.stored⟩
  insertTable := by
    rintro c t ⟨rfl, h⟩ hs key value
    obtain ⟨⟨is, ht⟩, hhash⟩ := h.table hs
    obtain ⟨hintact, hwrites⟩ := ht.insert_leaves (c.storedHash key) key value
    exact ⟨rfl, .of_table hintact (hhash.writes hwrites)⟩
  reserveTable := by
    rintro c t more ⟨rfl, h⟩ hs -
    obtain ⟨⟨is, ht⟩, hhash⟩ := h.table hs
    obtain ⟨halike, hsound⟩ := ht.reserve_leaves more.toNat
    exact ⟨rfl, .of_table ⟨is, hsound⟩ fun hc => hhash (halike.content ▸ hc)⟩
  shrinkTable := by
    rintro c t ⟨rfl, h⟩ hs
    obtain ⟨⟨is, ht⟩, hhash⟩ := h.table hs
    obtain ⟨halike, hsound⟩ := ht.shrink_leaves
    exact ⟨rfl, .of_table ⟨is, hsound⟩ fun hc => hhash (halike.content ▸ hc)⟩

/-- So it is sound after any run. -/
theorem Reaches.stored {allowed : Container K V → Operation K V → Prop} {c₀ : Container K V} {events : List Event}
    (h : c₀.Reaches allowed events c) (h₀ : c₀.Stored) : c.hashing = c₀.hashing ∧ c.Stored :=
  (stored_invariant c₀.hashing).reaches (h.mono fun _ _ _ => trivial) ⟨rfl, h₀⟩

/-- In particular if the run began with a container that was just made. -/
theorem Reaches.exists_shows {allowed : Container K V → Operation K V → Prop} {settings : Settings} {order : Order}
    {owner : OwnerId} {c₀ : Container K V} {events : List Event} (h : c₀.Reaches allowed events c) (horder : order.Fresh)
    (hmake : make settings order hashing owner = .ok c₀) :
    c.hashing = hashing ∧ ∃ slots ps, c.Shows slots ps := by
  obtain ⟨-, rfl⟩ := eq_of_make hmake
  obtain ⟨hhashing, hstored⟩ := h.stored ⟨[], (Container.shows_of_make horder hmake).sound⟩
  exact ⟨hhashing, hstored.shows⟩

/-- The same, for hash functions that respect equality of keys. -/
theorem Reaches.shows_of_make {allowed : Container K V → Operation K V → Prop} {settings : Settings} {order : Order}
    {owner : OwnerId} {c₀ : Container K V} {events : List Event} (h : c₀.Reaches allowed events c) (horder : order.Fresh)
    (hr : hashing.Respects) (hmake : make settings order hashing owner = .ok c₀) :
    c.hashing.Respects ∧ ∃ slots ps, c.Shows slots ps := by
  obtain ⟨hhashing, hshows⟩ := h.exists_shows horder hmake
  exact ⟨hhashing ▸ hr, hshows⟩

end Container

end DenseHash
