import DenseHash.Proofs.Container.Room
import DenseHash.Proofs.Table.Shrunk

/-!
# Watched containers

A run of operations that return keeps a container guarded. A refused insertion may not: it can leave its entry in a
bucket of the largest table that is full already. So what holds of a container with any history is that no bucket holds
too many entries *as long as there could be more buckets*. That is enough for a request for room to find nothing when it
measures the chains: it rebuilds only buckets that can become more (`Watched.reserve_eq`).
-/

namespace DenseHash

variable {K V α : Type} [BEq K]

/-- No bucket of a proper table holds too many entries, unless there are as many buckets as there can be. -/
structure Table.Watched (limit : Nat) (t : Table K V) : Prop extends t.Proper where
  short : t.buckets < maxBuckets → t.Short limit

namespace Table.Watched

variable {t t' : Table K V} {limit : Nat} {hash : UInt32} {key : K} {value : V}

/-- Chains that got nothing are no longer than before. -/
theorem of_addsNothing (h : t.Watched limit) (ht : t.AddsNothing t') : t'.Watched limit :=
  ⟨h.toProper.of_addsNothing ht, fun hlt => ht.short (h.short (ht.buckets ▸ hlt))⟩

/-- More buckets split the chains. -/
theorem reserve (h : t.Watched limit) (more : Nat) : (t.reserve more).Leaves (Watched limit) := by
  obtain ⟨is, hs⟩ := h.intact
  have hwidens := hs.reserve_widens h.isLoad more
  exact ⟨h.toProper.reserve more, fun hlt => hwidens.short h.intact (h.short (hwidens.buckets.trans_lt hlt))⟩

variable [EquivBEq K]

/-- A refused insertion leaves a table as it was, or the largest one. -/
theorem insert_refused (h : t.Watched limit) {f : Fault} (herr : (t.insert hash key value).result = .error f) :
    (t.insert hash key value).state.Watched limit := by
  obtain ⟨is, hs⟩ := h.intact
  refine ⟨h.toProper.insert hash key value, fun hlt => ?_⟩
  by_cases hb : t.buckets = 0
  · rw [hs.insert_refused_unallocated h.isLoad hb herr] at hlt ⊢
    exact h.short hlt
  · rw [Table.insert, allocate_of_ne hb] at herr
    obtain ⟨-, hrefuses, -⟩ := hs.insertAllocated_refused hb h.isLoad herr
    have hlargest := h.buckets_eq hrefuses
    have hmore := t.insert_buckets hash key value
    rw [Reply.Leaves, hlargest] at hmore
    exact absurd hlt (Nat.not_lt.mpr hmore)

/-- A new key fills its bucket, and growing splits the chains. -/
theorem insert_added (h : t.Watched limit) {chain : Nat} {resized : Bool}
    (hok : (t.insert hash key value).result = .ok (.added chain resized)) (hle : chain ≤ limit) :
    (t.insert hash key value).state.Watched limit := by
  obtain ⟨is, hs⟩ := h.intact
  have hmore := t.insert_buckets hash key value
  exact ⟨h.toProper.insert hash key value, fun hlt => (hs.insert_added hok).2.2 (h.short (hmore.trans_lt hlt)) hle⟩

end Table.Watched

namespace Container

variable [Backing] {c c' : Container K V} {t t' : Table K V} {limit : Nat}

/-- The limit for the chains is this one, and the table is watched. -/
structure Watched (limit : Nat) (c : Container K V) : Prop where
  maxChain : c.maxChain = limit
  table : c.OnTable (Table.Watched limit)

namespace Watched

theorem intact (h : c.Watched limit) : c.store.Intact := h.table.intact fun ht => ht.intact

/-- What keeps its form is watched further. -/
theorem of_keepsForm {r : Reply (Container K V) α} (h : c.Watched limit) (hform : KeepsForm c r) :
    r.Leaves (Watched limit) :=
  ⟨hform.maxChain.trans h.maxChain, hform.onTable (fun ht hadds => ht.of_addsNothing hadds) h.table⟩

theorem with_table (hmax : c.maxChain = limit) (ht : t.Watched limit) :
    Watched limit { c with store := .table t } := ⟨hmax, onTable_table ht⟩

theorem bump (h : c.Watched limit) : c.bump.Watched limit := ⟨h.maxChain, h.table⟩

variable [EquivBEq K]

/-- What was moved is not watched any more. -/
theorem flood_of_table (hmax : c.maxChain = limit) (hs : c.store = .table t) (ht : t.Intact) (chain : Nat) :
    (c.flood chain).Leaves (Watched limit) := by
  obtain ⟨f, -, hf, -⟩ := flood_eq hs ht chain
  rw [hf]
  exact ⟨hmax, onTable_fallback rfl⟩

/-- What was measured is short enough, or it was moved. -/
theorem inspect_of_table (hmax : c.maxChain = limit) (hs : c.store = .table t) (ht : t.Proper) :
    c.inspect.Leaves (Watched limit) := by
  rw [inspect_eq hs ht.intact]
  split
  · exact flood_of_table hmax hs ht.intact t.peak
  · rename_i hpeak
    obtain ⟨is, hsound⟩ := ht.intact
    have hshort : t.Short limit := hsound.peak_le_iff.mp (hmax ▸ Nat.not_lt.mp hpeak)
    refine ⟨hmax, fun u hu => ?_⟩
    obtain rfl := Store.table.inj (hs.symm.trans hu)
    exact ⟨ht, fun _ => hshort⟩

/-- An inspection leaves a fallback alone. -/
theorem inspect (h : c.Watched limit) : c.inspect.Leaves (Watched limit) := by
  cases hs : c.store with
  | fallback f =>
      rw [inspect_fallback hs]
      exact h
  | table t => exact inspect_of_table h.maxChain hs (h.table t hs).toProper

/-! ## One operation -/

/-- After an insertion, the chain that it filled is short enough, or it was refused at the largest table, or the
    entries are in the fallback. -/
theorem insert (h : c.Watched limit) (key : K) (value : V) : (c.insert key value).Leaves (Watched limit) := by
  cases hs : c.store with
  | fallback f => exact h.of_keepsForm (insert_fallback_keepsForm hs key value)
  | table t =>
      have ht := h.table t hs
      obtain ⟨is, hsound⟩ := ht.intact
      cases hresult : (t.insert (c.storedHash key) key value).result with
      | error f =>
          rw [Container.insert]
          rw [hs]
          dsimp only
          rw [Reply.within_andThen_of_error hresult]
          exact with_table h.maxChain (ht.insert_refused hresult)
      | ok outcome =>
          have hok : ((t.insert (c.storedHash key) key value).within fun t =>
              ({ c with store := .table t } : Container K V)).result = .ok outcome := hresult
          rw [Container.insert]
          rw [hs]
          dsimp only
          rw [Reply.andThen_of_ok hok]
          cases outcome with
          | updated old moved =>
              have hc₁ := with_table h.maxChain (ht.of_addsNothing (hsound.insert_updated hresult))
              cases moved
              · exact hc₁
              · exact hc₁.bump
          | added chain resized =>
              let c₁ : Container K V := { c with store := .table (t.insert (c.storedHash key) key value).state }
              have hproper := ht.toProper.insert (c.storedHash key) key value
              have hguarded : Reply.Leaves (if c.maxChain < chain then c₁.bump.flood chain
                  else if resized then c₁.bump.inspect else .ok c₁.bump ()) (Watched limit) := by
                split
                · exact flood_of_table (c := c₁.bump) h.maxChain rfl hproper.intact chain
                · rename_i hchain
                  have hc₁ := with_table h.maxChain (ht.insert_added hresult (h.maxChain ▸ Nat.not_lt.mp hchain))
                  split
                  · exact hc₁.bump.inspect
                  · exact hc₁.bump
              exact hguarded

/-- Insertions, refused or not. -/
theorem forEach_insert (h : c.Watched limit) (pairs : List (K × V)) :
    (Reply.forEach (fun (key, value) c => (c.insert key value).map fun _ => ()) pairs c).Leaves (Watched limit) := by
  induction pairs generalizing c with
  | nil => exact h
  | cons p pairs ih => exact ((h.insert p.1 p.2).map _).andThen fun _ _ h' => ih h'

omit [EquivBEq K] in
/-- A request for room that was granted in a table: nothing is found when the chains are measured. -/
theorem reserve_eq (h : c.Watched limit) (hs : c.store = .table t) (more : UInt64) :
    c.reserve more = (t.reserve more.toNat).within fun t => { c with store := .table t } := by
  have ht := h.table t hs
  obtain ⟨is, hsound⟩ := ht.intact
  have ht' := ht.reserve more.toNat
  have hwidens := hsound.reserve_widens ht.isLoad more.toNat
  have hbounded : (t.reserve more.toNat).state.buckets ≤ maxBuckets := by
    obtain ⟨is', hsound'⟩ := ht'.intact
    exact hsound'.bounded
  rw [Container.reserve]
  rw [hs]
  dsimp only
  generalize hr : t.reserve more.toNat = r at ht' hwidens hbounded
  obtain ⟨t', events, result⟩ := r
  cases result with
  | error f => rfl
  | ok u =>
      show Reply.after events (if _ then _ else _) = _
      split
      · rename_i hrebuilt
        -- there was a larger number of buckets, so the chains that there were are short
        have hlt : t.buckets < t'.buckets := Nat.lt_of_le_of_ne hwidens.buckets (Ne.symm hrebuilt.2)
        have hshort := hwidens.short ht.intact (ht.short (hlt.trans_le hbounded))
        obtain ⟨is', hsound'⟩ := hwidens.intact
        have hpeak : ¬c.maxChain < t'.peak := Nat.not_lt.mpr (h.maxChain ▸ hsound'.peak_le_iff.mpr hshort)
        rw [inspect_eq (t := t') rfl hwidens.intact, if_neg hpeak]
        simp [Reply.after, Reply.ok, Reply.within]
      · simp [Reply.after, Reply.ok, Reply.within]

omit [EquivBEq K] in
theorem reserve (h : c.Watched limit) (more : UInt64) : (c.reserve more).Leaves (Watched limit) := by
  cases hs : c.store with
  | fallback f => exact h.of_keepsForm (reserve_fallback_keepsForm hs more)
  | table t =>
      rw [h.reserve_eq hs]
      exact with_table h.maxChain ((h.table t hs).reserve more.toNat)

/-- A bulk load, refused at whatever point. -/
theorem extend (h : c.Watched limit) (hint : UInt64) (pairs : List (K × V)) :
    (c.extend hint pairs).Leaves (Watched limit) := by
  rw [Container.extend]
  cases c.roomFor hint with
  | error f => exact h
  | ok room =>
      refine (h.reserve room).andThen fun _ _ h₁ => ?_
      exact Reply.Leaves.andThen (h₁.forEach_insert pairs) fun _ _ h₂ => h₂.inspect

/-- Shrinking inspects the chains of the smaller table. -/
theorem shrink (h : c.Watched limit) : c.shrink.Leaves (Watched limit) := by
  rw [Container.shrink]
  cases hs : c.store with
  | fallback f => exact h
  | table t =>
      have ht := h.table t hs
      dsimp only
      cases hresult : t.shrink.result with
      | error f =>
          rw [Reply.within_andThen_of_error hresult, Table.shrink_of_error hresult, ← hs]
          exact h
      | ok u =>
          have hok : (t.shrink.within fun t => ({ c with store := .table t } : Container K V)).result = .ok u := hresult
          rw [Reply.andThen_of_ok hok]
          exact inspect_of_table h.maxChain rfl ht.toProper.shrink

/-- One step, refused or not. -/
theorem apply (h : c.Watched limit) (op : Operation K V) : (c.apply op).Leaves (Watched limit) := by
  by_cases hop : MayRebuild op
  · cases op with
    | insert key value => exact (h.insert key value).map _
    | extend hint pairs => exact (h.extend hint pairs).map _
    | reserve more => exact (h.reserve more).map _
    | shrink => exact h.shrink.map _
    | _ => exact hop.elim
  · exact h.of_keepsForm (apply_keepsForm h.intact hop)

end Watched

/-- A whole run. -/
theorem Reaches.watched [EquivBEq K] {allowed : Container K V → Operation K V → Prop} {c₀ : Container K V}
    {events : List Event} (h : c₀.Reaches allowed events c) (h₀ : c₀.Watched limit) : c.Watched limit := by
  induction h with
  | start => exact h₀
  | apply _ op permitted ih => exact ih.apply op
  | remove _ cur ih => exact ih.of_keepsForm (cursor_remove_keepsForm ih.intact cur)
  | copy _ owner ih => exact ⟨ih.maxChain, ih.table⟩

end Container

end DenseHash
