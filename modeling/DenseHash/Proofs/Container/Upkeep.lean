import DenseHash.Proofs.Container.Invariant

/-!
# Invariants of runs that return

A property of tables may be broken by an operation that is refused and still hold after every operation that returns.
`Table.Upkeep` lists what such a property has to be kept by; then a container keeps it as long as its operations return,
whatever is done to it (`Upkeep.apply` is the step, `Upkeep.reaches` the run).
-/

namespace DenseHash

variable [Backing] {K V : Type} [BEq K]

/-- What a property of tables has to be kept by, where there is a result. -/
structure Table.Upkeep (P : Table K V → Prop) : Prop where
  intact : ∀ {t}, P t → t.Intact
  addsNothing : ∀ {t t'}, P t → t.AddsNothing t' → P t'
  insert : ∀ {t}, P t → ∀ hash key value, (t.insert hash key value).Yields P
  reserve : ∀ {t}, P t → ∀ more, (t.reserve more).Yields P
  shrink : ∀ {t}, P t → t.shrink.Yields P

namespace Table.Upkeep

open Container

variable {P : Table K V → Prop} {c : Container K V}

/-- An insertion that returns: the table was kept up, and the guard leaves it as it is. -/
theorem containerInsert (hP : Upkeep P) (h : OnTable P c) (key : K) (value : V) :
    (c.insert key value).Yields (OnTable P) := by
  cases hs : c.store with
  | fallback f => exact ((insert_fallback_keepsForm hs key value).onTable hP.addsNothing h).yields
  | table t =>
      have hinserted := hP.insert (h t hs) (c.storedHash key) key value
      rw [Container.insert]
      rw [hs]
      refine Reply.Yields.andThen (Q := OnTable P) (Reply.Yields.within fun a ha => onTable_table (hinserted a ha))
        fun outcome c₁ h₁ => ?_
      cases outcome with
      | updated old moved =>
          cases moved
          · exact Reply.Leaves.yields h₁
          · exact Reply.Leaves.yields (show OnTable P c₁.bump from h₁)
      | added chain resized =>
          refine Reply.Yields.map (Reply.Leaves.yields ?_) _
          have hbump : OnTable P c₁.bump := h₁
          split
          · exact hbump.flood chain
          · split
            · exact hbump.inspect
            · exact hbump

/-- Insertions that all return. -/
theorem forEach_insert (hP : Upkeep P) (h : OnTable P c) (pairs : List (K × V)) :
    (Reply.forEach (fun (key, value) c => (c.insert key value).map fun _ => ()) pairs c).Yields (OnTable P) := by
  induction pairs generalizing c with
  | nil => exact Reply.Leaves.yields h
  | cons p pairs ih => exact ((hP.containerInsert h p.1 p.2).map _).andThen fun _ _ h' => ih h'

theorem containerReserve (hP : Upkeep P) (h : OnTable P c) (more : UInt64) : (c.reserve more).Yields (OnTable P) := by
  rw [Container.reserve]
  cases hs : c.store with
  | fallback f => exact Reply.Leaves.yields h
  | table t =>
      have hreserved := hP.reserve (h t hs) more.toNat
      refine Reply.Yields.andThen (Q := OnTable P) (Reply.Yields.within fun a ha => onTable_table (hreserved a ha))
        fun _ c₁ h₁ => Reply.Leaves.yields ?_
      split
      · exact h₁.inspect
      · exact h₁

theorem containerExtend (hP : Upkeep P) (h : OnTable P c) (hint : UInt64) (pairs : List (K × V)) :
    (c.extend hint pairs).Yields (OnTable P) := by
  rw [Container.extend]
  cases c.roomFor hint with
  | error f => exact Reply.Leaves.yields h
  | ok room =>
      refine (hP.containerReserve h room).andThen fun _ c₁ h₁ => ?_
      exact (hP.forEach_insert h₁ pairs).andThen fun _ c₂ h₂ => h₂.inspect.yields

theorem containerShrink (hP : Upkeep P) (h : OnTable P c) : c.shrink.Yields (OnTable P) := by
  rw [Container.shrink]
  cases hs : c.store with
  | fallback f => exact Reply.Leaves.yields h
  | table t =>
      have hshrunk := hP.shrink (h t hs)
      exact Reply.Yields.andThen (Q := OnTable P) (Reply.Yields.within fun a ha => onTable_table (hshrunk a ha))
        fun _ c₁ h₁ => h₁.inspect.yields

/-- One step. -/
theorem apply (hP : Upkeep P) (h : OnTable P c) (op : Operation K V) : (c.apply op).Yields (OnTable P) := by
  by_cases hop : MayRebuild op
  · cases op with
    | insert key value => exact (hP.containerInsert h key value).map _
    | extend hint pairs => exact (hP.containerExtend h hint pairs).map _
    | reserve more => exact (hP.containerReserve h more).map _
    | shrink => exact (hP.containerShrink h).map _
    | _ => exact hop.elim
  · exact ((apply_keepsForm (h.intact hP.intact) hop).onTable hP.addsNothing h).yields

/-- A whole run of operations that return, with removals through cursors and copies. -/
theorem reaches (hP : Upkeep P) {c₀ : Container K V} {events : List Event} (h : c₀.Reaches Returns events c)
    (h₀ : OnTable P c₀) : OnTable P c := by
  induction h with
  | start => exact h₀
  | apply _ op permitted ih =>
      obtain ⟨a, ha⟩ := permitted
      exact hP.apply ih op a ha
  | remove _ cur ih => exact (cursor_remove_keepsForm (ih.intact hP.intact) cur).onTable hP.addsNothing ih
  | copy _ owner ih => exact ih

end Table.Upkeep

end DenseHash
