import DenseHash.Proofs.Container.Run
import DenseHash.Proofs.Store.Twins

/-!
# Containers under two hash functions

Two containers are *twins* if their tables are, and they have the same generation and the same owner. Every operation is
done on both: if both give a result, it is the same one, the same is logged, and the containers are twins again.

* **Single entries.** Whatever works at slots sees only what twins have in common (`Reply.Agree`).
* **Rebuilding.** Only the flood guard looks at chains. So insertions, requests for room and shrinking agree unless one
  of the containers moves to its fallback (`AgreeUnflooded`).
* **Cursors.** A cursor sees slots and generations, so it makes the same steps on both.
-/

namespace DenseHash

variable [Backing] {K V α β σ : Type} [BEq K]

namespace Container

/-- Two containers that can be told apart only by the hashes of their keys. -/
structure Twins (c d : Container K V) : Prop where
  respects : c.hashing.Respects
  respects' : d.hashing.Respects
  store : Store.Twins c.hashing.stored d.hashing.stored c.store d.store
  generation : d.generation = c.generation
  owner : d.owner = c.owner

namespace Twins

variable {c d : Container K V}

theorem withStore (h : c.Twins d) {s s' : Store K V} (hs : Store.Twins c.hashing.stored d.hashing.stored s s') :
    ({ c with store := s } : Container K V).Twins { d with store := s' } :=
  ⟨h.respects, h.respects', hs, h.generation, h.owner⟩

theorem bump (h : c.Twins d) : c.bump.Twins d.bump :=
  ⟨h.respects, h.respects', h.store, congrArg (· + 1) h.generation, h.owner⟩

theorem copy (h : c.Twins d) (owner : OwnerId) : (c.copy owner).Twins (d.copy owner) :=
  ⟨h.respects, h.respects', h.store, h.generation, rfl⟩

theorem size (h : c.Twins d) : d.size = c.size := h.store.size

/-- Twins are tables, both of them. -/
theorem isFallback (h : c.Twins d) : d.isFallback = c.isFallback := by
  obtain ⟨hashing, store, maxChain, generation, owner⟩ := c
  obtain ⟨hashing', store', maxChain', generation', owner'⟩ := d
  obtain ⟨hstore⟩ : Store.Twins _ _ store store' := h.store
  rfl

/-- They have the same capacity, since their tables have the same number of buckets. -/
theorem capacity? (h : c.Twins d) : d.capacity? = c.capacity? := by
  obtain ⟨hashing, store, maxChain, generation, owner⟩ := c
  obtain ⟨hashing', store', maxChain', generation', owner'⟩ := d
  obtain ⟨hstore⟩ : Store.Twins _ _ store store' := h.store
  exact congrArg some hstore.capacity

/-- Both show the same entries. -/
theorem shows (h : c.Twins d) : ∃ slots ps, c.Shows slots ps ∧ d.Shows slots ps := by
  obtain ⟨slots, hsound, hsound'⟩ := h.store.exists_sound
  exact ⟨slots, _, ⟨hsound, rfl⟩, ⟨hsound', by rw [h.store.held]⟩⟩

/-! ### Reading -/

theorem first (h : c.Twins d) : d.first = c.first := by
  rw [Container.first, Container.first, h.store.first, funext h.store.pair]

theorem last (h : c.Twins d) : d.last = c.last := by
  rw [Container.last, Container.last, h.store.last, funext h.store.pair]

/-- Iteration sees slots and entries only. -/
theorem iter_run (h : c.Twins d) (moves : List Move) : d.iter.run moves = c.iter.run moves := by
  obtain ⟨slots, ps, hshows, hshows'⟩ := h.shows
  rw [hshows.iter_run_eq, hshows'.iter_run_eq]

/-- A reading that both answer in the same way. -/
theorem answer (h : c.Twins d) {x x' : Checked α} (hx : x' = x) :
    Reply.Agree Eq Twins (c.answer x) (d.answer x') := by
  rintro a a' ha ha'
  subst hx
  exact ⟨Except.ok.inj (ha.symm.trans ha'), rfl, h⟩

/-! ### Single entries -/

/-- An operation on the storage agrees if its outcomes do. -/
theorem ofStore (h : c.Twins d) {x x' : Checked (α × Store K V)}
    (hx : Checked.Agree (Store.Twins c.hashing.stored d.hashing.stored) x x') :
    Reply.Agree Eq Twins (c.ofStore x) (d.ofStore x') := by
  cases hok : x with
  | error e => exact Reply.agree_fail
  | ok r =>
      cases hok' : x' with
      | error e => exact fun _ _ _ hb => nomatch hb
      | ok r' =>
          obtain ⟨hresult, hs⟩ := hx r.1 r'.1 r.2 r'.2 hok hok'
          exact Reply.agree_ok hresult (h.withStore hs)

/-- Whether the change is counted. -/
theorem count (h : c.Twins d) (b : Bool) (a : α) :
    Reply.Agree Eq Twins (.ok (if b then c.bump else c) a) (.ok (if b then d.bump else d) a) := by
  cases b with
  | true => exact Reply.agree_ok rfl h.bump
  | false => exact Reply.agree_ok rfl h

theorem touch (h : c.Twins d) (slot : Slot) : Reply.Agree Eq Twins (c.touch slot) (d.touch slot) := by
  refine (h.ofStore (h.store.touch slot)).andThen ?_
  rintro moved _ c d rfl h
  exact h.count moved ()

theorem removeSlot (h : c.Twins d) (slot : Slot) (upcoming : Option Slot) :
    Reply.Agree Eq Twins (c.removeSlot slot upcoming) (d.removeSlot slot upcoming) := by
  refine (h.ofStore (h.store.removeSlot slot upcoming)).andThen ?_
  rintro removed _ c d rfl h
  exact Reply.agree_ok rfl h.bump

/-- Removing at the end of the traversal that both have there. -/
theorem popAt (h : c.Twins d) (slot? : Option Slot) :
    Reply.Agree Eq Twins
      (match slot? with
        | some slot => (c.removeSlot slot none).map fun removed => some removed.1
        | none => .ok c none)
      (match slot? with
        | some slot => (d.removeSlot slot none).map fun removed => some removed.1
        | none => .ok d none) := by
  cases slot? with
  | none => exact Reply.agree_ok rfl h
  | some slot => exact (h.removeSlot slot none).map fun _ _ hr => congrArg (fun r => some r.1) hr

theorem popFirst (h : c.Twins d) : Reply.Agree Eq Twins c.popFirst d.popFirst := by
  rw [Container.popFirst, Container.popFirst, h.store.first]
  exact h.popAt _

theorem popLast (h : c.Twins d) : Reply.Agree Eq Twins c.popLast d.popLast := by
  rw [Container.popLast, Container.popLast, h.store.last]
  exact h.popAt _

/-- The visitor meets the same entries in the same slots on both sides, so it decides the same. -/
theorem retainFrom (keep : σ → K → V → σ × V × Bool) (fuel : Nat) (slot? : Option Slot) (state : σ)
    (h : c.Twins d) :
    Reply.Agree Eq Twins (retainFrom keep fuel slot? state c) (retainFrom keep fuel slot? state d) := by
  induction fuel generalizing c d slot? state with
  | zero =>
      cases slot? with
      | none => exact Reply.agree_ok rfl h
      | some slot => exact Reply.agree_fail
  | succ fuel ih =>
      cases slot? with
      | none => exact Reply.agree_ok rfl h
      | some slot =>
          rw [Container.retainFrom, Container.retainFrom, h.store.next, h.store.pair]
          refine Reply.Agree.andThen (h.ofStore ?_) ?_
          · exact Checked.agree_read fun upcoming => Checked.agree_read fun p => h.store.setValue slot _ _
          · rintro ⟨upcoming, state, stays⟩ _ c d rfl h
            dsimp only
            split
            · exact ih upcoming state h
            · refine (h.removeSlot slot upcoming).andThen ?_
              rintro ⟨p, resume⟩ _ c d rfl h
              exact ih resume state h

theorem retainWith (h : c.Twins d) (keep : List (K × V) → K → V → V × Bool) :
    Reply.Agree Eq Twins (c.retainWith keep) (d.retainWith keep) := by
  rw [Container.retainWith, Container.retainWith, Container.retain, Container.retain, h.size, h.store.first]
  exact (retainFrom _ _ _ _ h).map fun _ _ hr => congrArg List.reverse hr

theorem drain (h : c.Twins d) : Reply.Agree Eq Twins c.drain d.drain := by
  refine (h.ofStore h.store.take).andThen ?_
  rintro ps _ c d rfl h
  exact Reply.agree_ok rfl h.bump

theorem clear (h : c.Twins d) : c.clear.Twins d.clear := (h.withStore h.store.cleared).bump

theorem revise (h : c.Twins d) (moves : List Move) (change : K → V → V) :
    Reply.Agree Eq Twins (c.revise moves change) (d.revise moves change) := by
  refine h.ofStore ?_
  rw [h.store.references]
  exact Checked.agree_read fun slots => h.store.reviseBy moves slots

/-! ### Keys -/

variable [EquivBEq K]

/-- A lookup leads to the same slot, as each of the tables has the key under the hash that it is looked up with. -/
theorem find (h : c.Twins d) (key : K) : d.find key = c.find key := by
  obtain ⟨hashing, store, maxChain, generation, owner⟩ := c
  obtain ⟨hashing', store', maxChain', generation', owner'⟩ := d
  obtain ⟨hstore⟩ : Store.Twins _ _ store store' := h.store
  have hfind := hstore.find_eq (fun hk => h.respects.stored hk) (fun hk => h.respects'.stored hk) key
  exact congrArg (· >>= fun i => pure (i.map Slot.index)) hfind

theorem contains (h : c.Twins d) (key : K) : d.contains key = c.contains key := by
  rw [Container.contains, Container.contains, h.find]

theorem entry? (h : c.Twins d) (key : K) : d.entry? key = c.entry? key := by
  rw [Container.entry?, Container.entry?, h.find, funext h.store.pair]

theorem peek (h : c.Twins d) (key : K) : d.peek key = c.peek key := by
  rw [Container.peek, Container.peek, h.entry?]

theorem get (h : c.Twins d) (key : K) : Reply.Agree Eq Twins (c.get key) (d.get key) := by
  rw [Container.get, Container.get, h.find]
  split
  · rename_i slot _
    refine (h.touch slot).andThen ?_
    rintro _ _ c d - h
    rw [h.store.pair]
    split
    · exact Reply.agree_ok rfl h
    · exact Reply.agree_fail
  · exact Reply.agree_ok rfl h
  · exact Reply.agree_fail

/-- Using an entry that was looked up and changing its value. -/
theorem modify (h : c.Twins d) (key : K) (g : V → V) : Reply.Agree Eq Twins (c.modify key g) (d.modify key g) := by
  rw [Container.modify, Container.modify, h.find]
  split
  · rename_i slot _
    refine (h.touch slot).andThen ?_
    rintro _ _ c d - h
    refine h.ofStore ?_
    rw [h.store.pair]
    exact Checked.agree_read fun p => h.store.setValue slot _ _
  · exact Reply.agree_ok rfl h
  · exact Reply.agree_fail

theorem remove (h : c.Twins d) (key : K) : Reply.Agree Eq Twins (c.remove key) (d.remove key) := by
  refine Reply.Agree.andThen (Q := Eq) (R := Twins) (h.ofStore ?_) ?_
  · obtain ⟨hashing, store, maxChain, generation, owner⟩ := c
    obtain ⟨hashing', store', maxChain', generation', owner'⟩ := d
    obtain ⟨hstore⟩ : Store.Twins _ _ store store' := h.store
    have hremoved := hstore.remove (fun hk => h.respects.stored hk) (fun hk => h.respects'.stored hk) key
    exact hremoved.bind fun pair t u htwins => Checked.agree_ok (.table htwins)
  · rintro p _ c d rfl h
    exact h.count p.isSome p

/-- Whatever works at single entries does the same on both. -/
theorem apply_steady (h : c.Twins d) {op : Operation K V} (hop : ¬MayRebuild op) :
    Reply.Agree Eq Twins (c.apply op) (d.apply op) := by
  cases op with
  | insert key value => exact absurd trivial hop
  | extend hint pairs => exact absurd trivial hop
  | reserve more => exact absurd trivial hop
  | shrink => exact absurd trivial hop
  | get key => exact (h.get key).map fun _ _ => congrArg _
  | modify key change => exact (h.modify key change).map fun _ _ => congrArg _
  | peek key => exact (h.answer (h.peek key)).map fun _ _ => congrArg _
  | entry key => exact (h.answer (h.entry? key)).map fun _ _ => congrArg _
  | contains key => exact (h.answer (h.contains key)).map fun _ _ => congrArg _
  | remove key => exact (h.remove key).map fun _ _ => congrArg _
  | first => exact (h.answer h.first).map fun _ _ => congrArg _
  | last => exact (h.answer h.last).map fun _ _ => congrArg _
  | popFirst => exact h.popFirst.map fun _ _ => congrArg _
  | popLast => exact h.popLast.map fun _ _ => congrArg _
  | retain keep => exact (h.retainWith keep).map fun _ _ => congrArg _
  | drain => exact h.drain.map fun _ _ => congrArg _
  | clear => exact Reply.agree_ok rfl h.clear
  | iterate moves => exact (h.answer (h.iter_run moves)).map fun _ _ => congrArg _
  | revise moves change => exact (h.revise moves change).map fun _ _ => congrArg _

end Twins

/-! ## Rebuilding -/

/-- The operation moves the entries into the fallback, or does nothing: if there is a result, and the entries are not in
    the fallback then, nothing was done. -/
def OnlyFloods (r : Reply (Container K V) Unit) (c : Container K V) : Prop :=
  ∀ u, r.result = .ok u → r.state.isFallback = false → r = .ok c ()

section Inspection

variable {c : Container K V}

omit [BEq K] in
theorem onlyFloods_ok : OnlyFloods (.ok c ()) c := fun _ _ _ => rfl

omit [BEq K] in
theorem OnlyFloods.ite {r r' : Reply (Container K V) Unit} (h : OnlyFloods r c) (h' : OnlyFloods r' c) (p : Prop)
    [Decidable p] : OnlyFloods (if p then r else r') c := by
  split
  · exact h
  · exact h'

/-- The guard does nothing, or the entries are in the fallback afterwards. -/
theorem flood_onlyFloods (chain : Nat) : OnlyFloods (c.flood chain) c := by
  rintro u hok hf
  rw [flood] at hok hf ⊢
  split
  · rfl
  · rename_i t hs
    simp only [hs] at hok hf
    split at hok
    · rename_i f hmoved
      rw [hmoved] at hf
      cases hf
    · cases hok

/-- An inspection calls the guard or does nothing. -/
theorem inspect_onlyFloods : OnlyFloods c.inspect c := by
  rw [inspect]
  split
  · exact onlyFloods_ok
  · split
    · split
      · exact flood_onlyFloods _
      · exact onlyFloods_ok
    · intro _ hok
      cases hok

end Inspection

/-- Two operations agree unless one of them has moved the entries to the fallback. -/
def AgreeUnflooded (r r' : Reply (Container K V) α) : Prop :=
  r.state.isFallback = false → r'.state.isFallback = false → Reply.Agree Eq Twins r r'

section Rebuilding

variable {c d : Container K V}

/-- Where nothing was done, twins are left. -/
theorem OnlyFloods.agreeUnflooded {r r' : Reply (Container K V) Unit} (hr : OnlyFloods r c) (hr' : OnlyFloods r' d)
    (h : c.Twins d) : AgreeUnflooded r r' := by
  rintro hf hf' u u' hu hu'
  rw [hr u hu hf, hr' u' hu' hf']
  exact ⟨rfl, rfl, h⟩

/-- What is made of the answers is the same. -/
theorem AgreeUnflooded.map {r r' : Reply (Container K V) α} (h : AgreeUnflooded r r') (g : α → β) :
    AgreeUnflooded (r.map g) (r'.map g) :=
  fun hf hf' => (h hf hf').map fun _ _ => congrArg g

/-- What comes after operations that agree. -/
theorem agreeUnflooded_andThen {γ γ' : Type} {Q : γ → γ' → Prop} {r : Reply (Container K V) γ}
    {r' : Reply (Container K V) γ'} {next : γ → Container K V → Reply (Container K V) α}
    {next' : γ' → Container K V → Reply (Container K V) α}
    (h : Reply.Agree Q Twins r r') (hnext : ∀ a a' c d, Q a a' → c.Twins d → AgreeUnflooded (next a c) (next' a' d)) :
    AgreeUnflooded (r.andThen next) (r'.andThen next') := by
  rintro hf hf' b b' hb hb'
  obtain ⟨a, ha, hbnext, hstate⟩ := Reply.andThen_result_eq_ok hb
  obtain ⟨a', ha', hbnext', hstate'⟩ := Reply.andThen_result_eq_ok hb'
  rw [hstate] at hf
  rw [hstate'] at hf'
  obtain ⟨hresult, hevents, htwins⟩ := h a a' ha ha'
  obtain ⟨hanswer, hlater, hleft⟩ := hnext a a' _ _ hresult htwins hf hf' b b' hbnext hbnext'
  rw [Reply.andThen_of_ok ha, Reply.andThen_of_ok ha']
  exact ⟨hanswer, congrArg₂ (· ++ ·) hevents hlater, hleft⟩

/-- One operation after another, where there is no way back from a fallback. -/
theorem AgreeUnflooded.andThen {r r' : Reply (Container K V) β} {next : β → Container K V → Reply (Container K V) α}
    (h : AgreeUnflooded r r') (hstay : ∀ a c f, c.store = .fallback f → KeepsForm c (next a c))
    (hnext : ∀ a c d, c.Twins d → AgreeUnflooded (next a c) (next a d)) :
    AgreeUnflooded (r.andThen next) (r'.andThen next) := by
  rintro hf hf' b b' hb hb'
  obtain ⟨a, ha, -, hstate⟩ := Reply.andThen_result_eq_ok hb
  obtain ⟨a', ha', -, hstate'⟩ := Reply.andThen_result_eq_ok hb'
  have hfirst := isFallback_back (hstay a r.state) (hstate ▸ hf)
  have hfirst' := isFallback_back (hstay a' r'.state) (hstate' ▸ hf')
  refine agreeUnflooded_andThen (h hfirst hfirst') ?_ hf hf' b b' hb hb'
  rintro a _ c d rfl h
  exact hnext a c d h

end Rebuilding

namespace Twins

variable [EquivBEq K] {c d : Container K V}

omit [EquivBEq K] in
theorem inspect (h : c.Twins d) : AgreeUnflooded c.inspect d.inspect :=
  inspect_onlyFloods.agreeUnflooded inspect_onlyFloods h

/-- The tables insert alike. The chains that come out may differ, but only the guard looks at them. -/
theorem insert (h : c.Twins d) (key : K) (value : V) : AgreeUnflooded (c.insert key value) (d.insert key value) := by
  obtain ⟨hashing, store, maxChain, generation, owner⟩ := c
  obtain ⟨hashing', store', maxChain', generation', owner'⟩ := d
  obtain ⟨hstore⟩ : Store.Twins _ _ store store' := h.store
  have hinsert := hstore.insert (fun hk => h.respects.stored hk) (fun hk => h.respects'.stored hk) key value
  refine agreeUnflooded_andThen (hinsert.within fun t u htwins => h.withStore (.table htwins)) ?_
  rintro _ _ c d hdone h
  cases hdone with
  | updated old moved => exact fun _ _ => h.count moved (some old)
  | added chain chain' resized =>
      -- the chains differ, but a guard that does not step in does nothing
      have guard : ∀ (c : Container K V) (chain : Nat), OnlyFloods
          (if c.maxChain < chain then c.flood chain else if resized then c.inspect else .ok c ()) c :=
        fun c chain => (flood_onlyFloods chain).ite (inspect_onlyFloods.ite onlyFloods_ok _) _
      exact ((guard c.bump chain).agreeUnflooded (guard d.bump chain') h.bump).map _

/-- Insertions, one after the other. -/
theorem forEach_insert (h : c.Twins d) (pairs : List (K × V)) :
    AgreeUnflooded (Reply.forEach (fun (key, value) c => (c.insert key value).map fun _ => ()) pairs c)
      (Reply.forEach (fun (key, value) c => (c.insert key value).map fun _ => ()) pairs d) := by
  induction pairs generalizing c d with
  | nil => exact fun _ _ => Reply.agree_ok rfl h
  | cons p pairs ih =>
      exact ((h.insert p.1 p.2).map _).andThen (fun _ c f hs => forEach_insert_fallback_keepsForm hs pairs)
        fun _ c d h => ih h

omit [EquivBEq K] in
/-- Making room rebuilds both tables to the same number of buckets. -/
theorem reserve (h : c.Twins d) (more : UInt64) : AgreeUnflooded (c.reserve more) (d.reserve more) := by
  obtain ⟨hashing, store, maxChain, generation, owner⟩ := c
  obtain ⟨hashing', store', maxChain', generation', owner'⟩ := d
  obtain ⟨hstore⟩ : Store.Twins _ _ store store' := h.store
  refine agreeUnflooded_andThen ((hstore.reserve more.toNat).within fun t u htwins => h.withStore (.table htwins)) ?_
  rintro _ _ c d - h
  exact (inspect_onlyFloods.ite onlyFloods_ok _).agreeUnflooded (inspect_onlyFloods.ite onlyFloods_ok _) h

omit [EquivBEq K] in
theorem shrink (h : c.Twins d) : AgreeUnflooded c.shrink d.shrink := by
  obtain ⟨hashing, store, maxChain, generation, owner⟩ := c
  obtain ⟨hashing', store', maxChain', generation', owner'⟩ := d
  obtain ⟨hstore⟩ : Store.Twins _ _ store store' := h.store
  refine agreeUnflooded_andThen (hstore.shrink.within fun t u htwins => h.withStore (.table htwins)) ?_
  rintro _ _ c d - h
  exact h.inspect

/-- A bulk load is a request for room, insertions and an inspection. -/
theorem extend (h : c.Twins d) (hint : UInt64) (pairs : List (K × V)) :
    AgreeUnflooded (c.extend hint pairs) (d.extend hint pairs) := by
  rw [Container.extend, Container.extend, roomFor, roomFor, h.size]
  split
  · exact fun _ _ => Reply.agree_fail
  · rename_i room _
    refine (h.reserve room).andThen (fun _ c f hs => insertAll_fallback_keepsForm hs pairs) fun _ c d h => ?_
    refine (h.forEach_insert pairs).andThen (fun _ c f hs => ?_) fun _ c d h => h.inspect
    rw [inspect_fallback hs]
    exact keepsForm_fallback hs hs rfl rfl

/-- One step of both, unless one of them moves to its fallback. -/
theorem apply (h : c.Twins d) (op : Operation K V) : AgreeUnflooded (c.apply op) (d.apply op) := by
  by_cases hop : MayRebuild op
  · cases op with
    | insert key value => exact (h.insert key value).map _
    | extend hint pairs => exact (h.extend hint pairs).map _
    | reserve more => exact (h.reserve more).map _
    | shrink => exact h.shrink.map _
    | _ => exact hop.elim
  · exact fun _ _ => h.apply_steady hop

/-! ## Cursors -/

omit [EquivBEq K]

theorem cursorStart (h : c.Twins d) : Cursor.start d = Cursor.start c := by
  rw [Cursor.start, Cursor.start, h.owner, h.generation, h.store.first]

/-- A cursor is refused by both or by neither. -/
theorem cursorCheck (h : c.Twins d) (cur : Cursor) : cur.check d = cur.check c := by
  rw [Cursor.check, Cursor.check, h.owner, h.generation]

/-- It meets the same entry on both. -/
theorem cursorNext (h : c.Twins d) (cur : Cursor) : cur.next d = cur.next c := by
  rw [Cursor.next, Cursor.next, h.cursorCheck, funext h.store.next, funext h.store.pair]

/-- It removes the same entry from both and stands in the same place afterwards. -/
theorem cursorRemove (h : c.Twins d) (cur : Cursor) :
    Reply.Agree Eq (fun s s' => s.1.Twins s'.1 ∧ s'.2 = s.2) (cur.remove c) (cur.remove d) := by
  rw [Cursor.remove, Cursor.remove, h.cursorCheck]
  split
  · exact Reply.agree_ok rfl ⟨h, rfl⟩
  · split
    · exact Reply.agree_ok rfl ⟨h, rfl⟩
    · rename_i cur' _ _ slot _
      have hremoved := h.removeSlot slot cur'.upcoming
      refine Reply.Agree.andThen (Q := Eq) (R := fun s s' => s.1.Twins s'.1 ∧ s'.2 = s.2)
        (hremoved.within fun c d h => ⟨h, rfl⟩) ?_
      rintro ⟨p, resume⟩ _ ⟨c, cur⟩ ⟨d, _⟩ rfl ⟨h, rfl⟩
      exact Reply.agree_ok rfl ⟨h, by rw [h.generation]⟩

end Twins

end Container

end DenseHash
