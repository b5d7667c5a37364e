import DenseHash.Proofs.Container.KeepsForm
import DenseHash.Proofs.Store.Places
import DenseHash.Proofs.Table.Twins

/-!
# Storage under two hash functions

Two stores are twins if they are tables that are twins. Slots mean the same in both: what is read at a slot is equal,
and what is changed at a slot leaves twins, if there is a result in both (`Checked.Agree`).
-/

namespace DenseHash

variable [Backing] {K V α : Type} [BEq K]

namespace Store

/-- Both are tables, and twins. -/
inductive Twins (f g : K → UInt32) : Store K V → Store K V → Prop where
  | table {t u : Table K V} (twins : Table.Twins f g t u) : Twins f g (.table t) (.table u)

namespace Twins

variable {f g : K → UInt32} {s s' : Store K V}

/-- Every slot means the same in both. -/
theorem samePlaces (h : Twins f g s s') : s.SamePlaces s' := by
  obtain ⟨h⟩ := h
  exact .of_tables h.pairs h.order

theorem size (h : Twins f g s s') : s'.size = s.size := h.samePlaces.size

theorem first (h : Twins f g s s') : s'.first = s.first := h.samePlaces.first

theorem last (h : Twins f g s s') : s'.last = s.last := h.samePlaces.last

theorem next (h : Twins f g s s') : ∀ slot, s'.next slot = s.next slot := h.samePlaces.next

theorem pair (h : Twins f g s s') : ∀ slot, s'.pair slot = s.pair slot := h.samePlaces.pair

/-- Slots hold the same. -/
theorem held (h : Twins f g s s') : s'.held = s.held := by
  obtain ⟨h⟩ := h
  funext slot
  cases slot with
  | index i => exact congrFun h.pairs i
  | node k => rfl

/-- Both traverse the same slots. -/
theorem exists_sound {hashing hashing' : Hashing K} (h : Twins hashing.stored hashing'.stored s s') :
    ∃ slots, s.Sound hashing slots ∧ s'.Sound hashing' slots := by
  obtain ⟨h⟩ := h
  obtain ⟨is, hs, hs'⟩ := h.exists_sound
  exact ⟨is.map .index, ⟨is, rfl, hs, h.hashed⟩, ⟨is, rfl, hs', h.hashed'⟩⟩

/-- Their entries are the same, in order. -/
theorem pairs (h : Twins f g s s') : s'.pairs = s.pairs := by
  cases h with
  | table h => exact h.pairs_eq

theorem references (h : Twins f g s s') : s'.references = s.references := by
  cases h with
  | table h => rw [Store.references, Store.references, h.references_eq]

theorem setValue (h : Twins f g s s') (slot : Slot) (value : V) (a : α) :
    Checked.Agree (Twins f g) (s.setValue slot value >>= fun s => pure (a, s))
      (s'.setValue slot value >>= fun s => pure (a, s)) := by
  rintro b b' r r' hs hs'
  obtain ⟨s₁, hs₁, hs⟩ := Checked.bind_eq_ok hs
  obtain ⟨s₁', hs₁', hs'⟩ := Checked.bind_eq_ok hs'
  obtain ⟨rfl, rfl⟩ := Prod.mk.inj (Except.ok.inj hs)
  obtain ⟨rfl, rfl⟩ := Prod.mk.inj (Except.ok.inj hs')
  refine ⟨rfl, ?_⟩
  obtain ⟨h⟩ := h
  cases slot with
  | node k => cases hs₁
  | index i =>
      obtain ⟨t', ht', hs₁⟩ := Checked.bind_eq_ok hs₁
      obtain ⟨u', hu', hs₁'⟩ := Checked.bind_eq_ok hs₁'
      obtain rfl := Except.ok.inj hs₁
      obtain rfl := Except.ok.inj hs₁'
      exact .table (h.setValue ht' hu')

theorem touch (h : Twins f g s s') (slot : Slot) : Checked.Agree (Twins f g) (s.touch slot) (s'.touch slot) := by
  obtain ⟨h⟩ := h
  cases slot with
  | index i => exact (h.touch i).bind fun moved t u h => Checked.agree_ok (.table h)
  | node k => exact Checked.agree_error

/-- Removing an entry, and being told where to go on. -/
theorem removeSlot (h : Twins f g s s') (slot : Slot) (upcoming : Option Slot) :
    Checked.Agree (Twins f g) (s.removeSlot slot upcoming) (s'.removeSlot slot upcoming) := by
  obtain ⟨h⟩ := h
  cases slot with
  | index i =>
      rw [Store.removeSlot, Store.removeSlot, h.size, h.order]
      split
      · exact Checked.agree_error
      · exact Checked.agree_read fun up => (h.removeAt i).bind fun pair t u h => Checked.agree_ok (.table h)
  | node k => exact Checked.agree_error

theorem cleared (h : Twins f g s s') : Twins f g s.cleared s'.cleared := by
  obtain ⟨h⟩ := h
  exact .table h.cleared

theorem take (h : Twins f g s s') : Checked.Agree (Twins f g) s.take s'.take := by
  rw [Store.take, Store.take, h.pairs]
  obtain ⟨h⟩ := h
  exact Checked.agree_read fun ps => Checked.agree_ok (.table h.cleared)

/-! ### Changing values -/

variable {change : K → V → V}

theorem reviseAt (h : Twins f g s s') (slot : Slot) :
    Checked.Agree (Twins f g) (reviseAt change s slot) (reviseAt change s' slot) := by
  rw [Store.reviseAt, Store.reviseAt, h.pair]
  exact Checked.agree_read fun p => h.setValue slot (change p.1 p.2) _

/-- Revising entries, one after the other. -/
theorem reviseAll (h : Twins f g s s') (slots : List Slot) :
    Checked.Agree (Twins f g) (reviseAll change slots s) (reviseAll change slots s') := by
  induction slots generalizing s s' with
  | nil => exact Checked.agree_ok h
  | cons slot slots ih =>
      exact (h.reviseAt slot).bind fun p s s' h => (ih h).bind fun ps s s' h => Checked.agree_ok h

/-- A script that hands out the same slots hands out the same entries. -/
theorem reviseBy (h : Twins f g s s') (moves : List Move) (slots : List Slot) :
    Checked.Agree (Twins f g) (reviseBy change moves slots s) (reviseBy change moves slots s') := by
  induction moves generalizing s s' slots with
  | nil => exact Checked.agree_ok h
  | cons move moves ih =>
      -- the rest of the script, after what the first move showed
      have go : ∀ {s s' : Store K V}, Twins f g s s' → ∀ (reading : Reading (K × V)) (slots : List Slot),
          Checked.Agree (Twins f g) (Store.reviseBy change moves slots s >>= fun r => pure (reading :: r.1, r.2))
            (Store.reviseBy change moves slots s' >>= fun r => pure (reading :: r.1, r.2)) :=
        fun h reading slots => (ih h slots).bind fun readings s s' h => Checked.agree_ok h
      cases move with
      | front =>
          cases slots with
          | nil => exact go h _ []
          | cons slot rest => exact (h.reviseAt slot).bind fun p s s' h => go h _ rest
      | back =>
          rw [Store.reviseBy, Store.reviseBy]
          cases slots.getLast? with
          | none => exact go h _ slots
          | some slot => exact (h.reviseAt slot).bind fun p s s' h => go h _ slots.dropLast
      | length => exact go h _ slots
      | bounds => exact go h _ slots
      | copy =>
          rw [Store.reviseBy, Store.reviseBy, funext h.pair]
          exact Checked.agree_read fun ps => go h _ slots
      | rest => exact (h.reviseAll slots).bind fun ps s s' h => go h _ []

end Twins

end Store

end DenseHash
