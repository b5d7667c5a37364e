import DenseHash.Proofs.Container.Reach

/-!
# Invariants of a run

A property of containers that a run keeps, refused operations included, has to be checked at few places only: at what
works at single entries, where the buckets may be rebuilt, and where the flood guard moves the entries.

* **`Container.Invariant`** lists these places. `Invariant.apply` is the step and `Invariant.reaches` the run.
* **`Table.Invariant`** does the same for a property of the table alone, which a fallback has for want of one.
-/

namespace DenseHash

variable [Backing] {K V : Type} [BEq K]

namespace Container

variable {allowed : Container K V → Operation K V → Prop} {I : Container K V → Prop} {c : Container K V}

/-- What has to be kept at each place where something changes, so that a run of allowed operations keeps it. -/
structure Invariant (allowed : Container K V → Operation K V → Prop) (I : Container K V → Prop) : Prop where
  /-- Operations at single entries. -/
  steady : ∀ {c op}, I c → ¬MayRebuild op → (c.apply op).Leaves I
  removeSlot : ∀ {c}, I c → ∀ slot upcoming, (c.removeSlot slot upcoming).Leaves I
  copy : ∀ {c}, I c → ∀ owner, I (c.copy owner)
  bump : ∀ {c}, I c → I c.bump
  flood : ∀ {c}, I c → ∀ chain, (c.flood chain).Leaves I
  /-- What is allowed to be asked for with a hint may be asked for in advance. -/
  room : ∀ {c hint pairs room}, I c → allowed c (.extend hint pairs) → c.roomFor hint = .ok room →
    allowed c (.reserve room)
  insertFallback : ∀ {c f}, I c → c.store = .fallback f → ∀ key value, (c.insert key value).Leaves I
  insertTable : ∀ {c t}, I c → c.store = .table t → ∀ key value,
    I { c with store := .table (t.insert (c.storedHash key) key value).state }
  reserveTable : ∀ {c t more}, I c → c.store = .table t → allowed c (.reserve more) →
    I { c with store := .table (t.reserve more.toNat).state }
  shrinkTable : ∀ {c t}, I c → c.store = .table t → I { c with store := .table t.shrink.state }

namespace Invariant

/-- Inspecting the chains either does nothing or calls the guard. -/
theorem inspect (hI : Invariant allowed I) (h : I c) : c.inspect.Leaves I := by
  rw [Container.inspect]
  split
  · exact h
  · split
    · split
      · exact hI.flood h _
      · exact h
    · exact h

/-- An insertion fills an entry, counts, and calls the guard or inspects the chains. -/
theorem insert (hI : Invariant allowed I) (h : I c) (key : K) (value : V) : (c.insert key value).Leaves I := by
  cases hs : c.store with
  | fallback f => exact hI.insertFallback h hs key value
  | table t =>
      have hinserted := hI.insertTable h hs key value
      rw [Container.insert]
      rw [hs]
      refine Reply.Leaves.andThen (Reply.Leaves.within hinserted) fun outcome _ h' => ?_
      cases outcome with
      | updated old moved =>
          cases moved
          · exact h'
          · exact hI.bump h'
      | added chain resized =>
          refine Reply.Leaves.map ?_ _
          have hbump := hI.bump h'
          split
          · exact hI.flood hbump chain
          · split
            · exact hI.inspect hbump
            · exact hbump

/-- Insertions, one after the other. -/
theorem forEach_insert (hI : Invariant allowed I) (h : I c) (pairs : List (K × V)) :
    (Reply.forEach (fun (key, value) c => (c.insert key value).map fun _ => ()) pairs c).Leaves I := by
  induction pairs generalizing c with
  | nil => exact h
  | cons p pairs ih => exact ((hI.insert h p.1 p.2).map _).andThen fun _ _ h' => ih h'

/-- Making room rebuilds the buckets and inspects the chains. -/
theorem reserve (hI : Invariant allowed I) (h : I c) {more : UInt64} (hallowed : allowed c (.reserve more)) :
    (c.reserve more).Leaves I := by
  rw [Container.reserve]
  cases hs : c.store with
  | fallback f => exact h
  | table t =>
      have hreserved := hI.reserveTable h hs hallowed
      refine Reply.Leaves.andThen (Reply.Leaves.within hreserved) fun _ _ h' => ?_
      split
      · exact hI.inspect h'
      · exact h'

/-- A bulk load makes room, inserts, and inspects the chains. -/
theorem extend (hI : Invariant allowed I) (h : I c) {hint : UInt64} {pairs : List (K × V)}
    (hallowed : allowed c (.extend hint pairs)) : (c.extend hint pairs).Leaves I := by
  rw [Container.extend]
  cases hroom : c.roomFor hint with
  | error f => exact h
  | ok room =>
      refine Reply.Leaves.andThen (hI.reserve h (hI.room h hallowed hroom)) fun _ _ h₁ => ?_
      exact Reply.Leaves.andThen (hI.forEach_insert h₁ pairs) fun _ _ h₂ => hI.inspect h₂

/-- Shrinking rebuilds the buckets and inspects the chains. -/
theorem shrink (hI : Invariant allowed I) (h : I c) : c.shrink.Leaves I := by
  rw [Container.shrink]
  cases hs : c.store with
  | fallback f => exact h
  | table t =>
      have hshrunk := hI.shrinkTable h hs
      exact Reply.Leaves.andThen (Reply.Leaves.within hshrunk) fun _ _ h' => hI.inspect h'

/-- One step, refused or not. -/
theorem apply (hI : Invariant allowed I) (h : I c) {op : Operation K V} (hallowed : allowed c op) :
    (c.apply op).Leaves I := by
  by_cases hop : MayRebuild op
  · cases op with
    | insert key value => exact (hI.insert h key value).map _
    | extend hint pairs => exact (hI.extend h hallowed).map _
    | reserve more => exact (hI.reserve h hallowed).map _
    | shrink => exact (hI.shrink h).map _
    | _ => exact hop.elim
  · exact hI.steady h hop

/-- A cursor removes an entry or leaves the container as it is. -/
theorem cursorRemove (hI : Invariant allowed I) (h : I c) (cur : Cursor) : I (cur.remove c).state.1 := by
  rcases cursor_remove_cases cur c with ⟨-, hstate, -⟩ | ⟨slot, upcoming, -, hstate, -⟩
  · rw [hstate]
    exact h
  · rw [hstate]
    exact hI.removeSlot h slot upcoming

/-- A whole run. -/
theorem reaches (hI : Invariant allowed I) {c₀ : Container K V} {events : List Event}
    (h : c₀.Reaches allowed events c) (h₀ : I c₀) : I c := by
  induction h with
  | start => exact h₀
  | apply _ op permitted ih => exact hI.apply ih permitted
  | remove _ cur ih => exact hI.cursorRemove ih cur
  | copy _ owner ih => exact hI.copy ih owner

end Invariant

/-- The table of a container has a property, if the container is not in its fallback. -/
def OnTable (P : Table K V → Prop) (c : Container K V) : Prop := ∀ t, c.store = .table t → P t

end Container

/-- What a property of tables has to be kept by, so that it is kept of the table of a container. -/
structure Table.Invariant (allowed : Container K V → Operation K V → Prop) (P : Table K V → Prop) : Prop where
  intact : ∀ {t}, P t → t.Intact
  addsNothing : ∀ {t t'}, P t → t.AddsNothing t' → P t'
  insert : ∀ {t}, P t → ∀ hash key value, P (t.insert hash key value).state
  room : ∀ {c hint pairs room}, c.OnTable P → allowed c (.extend hint pairs) → c.roomFor hint = .ok room →
    allowed c (.reserve room)
  reserve : ∀ {c : Container K V} {t more}, c.store = .table t → P t → allowed c (.reserve more) →
    P (t.reserve more.toNat).state
  shrink : ∀ {t}, P t → P t.shrink.state

namespace Container

variable {allowed : Container K V → Operation K V → Prop} {P : Table K V → Prop} {c : Container K V} {α : Type}

omit [BEq K] in
/-- A property of the table that is put in. -/
theorem onTable_table {t : Table K V} (h : P t) : OnTable P ({ c with store := .table t } : Container K V) :=
  fun _ hu => Store.table.inj hu ▸ h

omit [BEq K] in
/-- There is no table in a fallback that could lack the property. -/
theorem onTable_fallback {f : Fallback K V} (hs : c.store = .fallback f) : OnTable P c := by
  intro t ht
  rw [hs] at ht
  cases ht

/-- What holds of a table and of all that adds nothing to it is kept with the form of storage. -/
theorem KeepsForm.onTable {r : Reply (Container K V) α} (h : KeepsForm c r)
    (hkept : ∀ {t t' : Table K V}, P t → t.AddsNothing t' → P t') (hc : OnTable P c) : r.Leaves (OnTable P) := by
  intro t' hs'
  have hform := h.form
  rw [hs'] at hform
  cases hs : c.store with
  | fallback f =>
      rw [hs] at hform
      cases hform
  | table t =>
      rw [hs] at hform
      cases hform with
      | table hadds => exact hkept (hc t hs) hadds

/-- The guard leaves the table as it is, or there is none any more. -/
theorem OnTable.flood (h : OnTable P c) (chain : Nat) : (c.flood chain).Leaves (OnTable P) := by
  rw [Container.flood]
  split
  · exact h
  · dsimp only
    split
    · exact onTable_fallback rfl
    · exact h

/-- The inspection does nothing else than to call the guard. -/
theorem OnTable.inspect (h : OnTable P c) : c.inspect.Leaves (OnTable P) := by
  rw [Container.inspect]
  split
  · exact h
  · split
    · split
      · exact h.flood _
      · exact h
    · exact h

/-- A property of intact tables makes the storage intact. -/
theorem OnTable.intact (h : OnTable P c) (hintact : ∀ {t}, P t → t.Intact) : c.store.Intact := by
  cases hs : c.store with
  | table t => exact hintact (h t hs)
  | fallback f => trivial

/-- A property of the table is a property of the container. -/
theorem invariant_onTable (hP : Table.Invariant allowed P) : Invariant allowed (OnTable P) where
  steady := fun h hop => (apply_keepsForm (h.intact hP.intact) hop).onTable hP.addsNothing h
  removeSlot := fun h slot upcoming => (removeSlot_keepsForm (h.intact hP.intact) slot upcoming).onTable hP.addsNothing h
  copy := fun h _ => h
  bump := fun h => h
  flood := fun h chain => h.flood chain
  room := hP.room
  insertFallback := fun h hs key value => (insert_fallback_keepsForm hs key value).onTable hP.addsNothing h
  insertTable := fun h hs key value => onTable_table (hP.insert (h _ hs) _ key value)
  reserveTable := fun h hs hallowed => onTable_table (hP.reserve hs (h _ hs) hallowed)
  shrinkTable := fun h hs => onTable_table (hP.shrink (h _ hs))

end Container

end DenseHash
