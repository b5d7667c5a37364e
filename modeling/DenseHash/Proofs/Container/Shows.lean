import DenseHash.Container.Update
import DenseHash.Proofs.Listing
import DenseHash.Proofs.Store.Update

/-!
# What a container shows

`Container.Shows c slots ps` says that the container is sound, that its traversal order is `slots`, and that the
entries in these slots are `ps`. `Container.Evolves n c slots c' slots'` is what does not depend on the entries:
an operation that leaves `c'` made `n` changes of structure, apart from the move to the fallback, and every
change was counted by the generation. If there was none, every slot that is traversed holds the same key as
before, at the same position.

The two are proved of the smallest operations here. All others are made of these.
-/

namespace DenseHash

variable [Backing] {K V : Type}

/-- The slots in traversal order, with the key that each one holds. -/
def Store.labels (s : Store K V) (slots : List Slot) : List (Slot × Option K) :=
  slots.map fun slot => (slot, (s.held slot).map Prod.fst)

/-- Labels are slots with what they hold. -/
theorem Store.map_fst_labels (s : Store K V) (slots : List Slot) : (s.labels slots).map Prod.fst = slots := by
  rw [labels, List.map_map]
  exact List.map_id slots

section Replaced

variable {s s' : Store K V} {slot : Slot} {key : K} {old new : V}

/-- Replacing a value leaves all keys where they are. -/
theorem Store.keys_of_update (hp : s.held slot = some (key, old))
    (h : s'.held = Function.update s.held slot (some (key, new))) (k : Slot) :
    (s'.held k).map Prod.fst = (s.held k).map Prod.fst := by
  rw [h]
  by_cases hk : k = slot
  · rw [hk, Function.update_self, hp]
    rfl
  · rw [Function.update_of_ne hk]

/-- A value does not show in a label. -/
theorem Store.labels_of_update (hp : s.held slot = some (key, old))
    (h : s'.held = Function.update s.held slot (some (key, new))) (slots : List Slot) :
    s'.labels slots = s.labels slots :=
  List.map_congr_left fun k _ => by rw [keys_of_update hp h k]

end Replaced

namespace Container

/-- How often the entries moved to the fallback between two states of a container. -/
def floods (c c' : Container K V) : Nat := (!c.isFallback && c'.isFallback).toNat

/-- The listing of a container that shows these entries. -/
def listingOf (c : Container K V) (ps : List (K × V)) : Listing K V :=
  ⟨ps, c.store.isPacked, c.store.byAccess⟩

/-! ## Changes of structure -/

omit [Backing] in
/-- A generation that came round shows no change. -/
theorem add_ofNat_eq_self_iff {generation : UInt64} {n : Nat} :
    generation + UInt64.ofNat n = generation ↔ n % wordValues = 0 := by
  have hshown : (UInt64.ofNat n).toNat = n % wordValues := UInt64.toNat_ofNat'
  constructor
  · intro hsame
    rw [← hshown, show UInt64.ofNat n = generation - generation by
      rw [← UInt64.add_sub_cancel (UInt64.ofNat n) generation, UInt64.add_comm, hsame], UInt64.sub_self]
    rfl
  · intro hzero
    rw [show UInt64.ofNat n = 0 from UInt64.toNat_inj.mp (hshown.trans hzero), UInt64.add_zero]

/-- What a container that traversed `slots` became after `n` changes of structure. -/
structure Evolves (n : Nat) (c : Container K V) (slots : List Slot) (c' : Container K V)
    (slots' : List Slot) : Prop where
  hashing : c'.hashing = c.hashing
  owner : c'.owner = c.owner
  maxChain : c'.maxChain = c.maxChain
  byAccess : c'.store.byAccess = c.store.byAccess
  isPacked : c'.store.isPacked = (c.store.isPacked && !c'.isFallback)
  isFallback : c.isFallback = true → c'.isFallback = true
  generation : c'.generation = c.generation + UInt64.ofNat (n + c.floods c')
  steady : n + c.floods c' = 0 → c'.store.labels slots' = c.store.labels slots

/-- If the kind of storage stays, there was no switch. -/
theorem floods_of_sameKind {c c' : Container K V} (h : c.store.SameKind c'.store) : c.floods c' = 0 := by
  simp only [floods, isFallback]
  rw [h.isFallback]
  cases c.store.isFallback <;> rfl

/-- A fallback removes in place. -/
theorem isPacked_of_sameKind {c c' : Container K V} (h : c.store.SameKind c'.store) :
    c'.store.isPacked = (c.store.isPacked && !c'.isFallback) := by
  rw [isFallback]
  rw [h.isPacked, h.isFallback]
  cases c.store with
  | table t => exact (Bool.and_true _).symm
  | fallback f => rfl

namespace Evolves

variable {n m : Nat} {c c' c'' : Container K V} {slots slots' slots'' : List Slot}

theorem refl (c : Container K V) (slots : List Slot) : c.Evolves 0 slots c slots where
  hashing := rfl
  owner := rfl
  maxChain := rfl
  byAccess := rfl
  isPacked := isPacked_of_sameKind (.refl _)
  isFallback := id
  generation := by
    rw [floods_of_sameKind (.refl _)]
    exact (UInt64.add_zero _).symm
  steady := fun _ => rfl

/-- Changes add up. -/
theorem trans (h : c.Evolves n slots c' slots') (h' : c'.Evolves m slots' c'' slots'') :
    c.Evolves (n + m) slots c'' slots'' := by
  have hfloods : c.floods c' + c'.floods c'' = c.floods c'' := by
    have h₁ := h.isFallback
    have h₂ := h'.isFallback
    simp only [floods]
    cases hc : c.isFallback <;> cases hc' : c'.isFallback <;> cases hc'' : c''.isFallback <;> simp_all
  refine ⟨h'.hashing.trans h.hashing, h'.owner.trans h.owner, h'.maxChain.trans h.maxChain,
    h'.byAccess.trans h.byAccess, ?_, fun hf => h'.isFallback (h.isFallback hf), ?_, fun hzero => ?_⟩
  · rw [h'.isPacked, h.isPacked]
    have h₂ := h'.isFallback
    cases hc' : c'.isFallback
    · simp
    · rw [h₂ hc']
      simp
  · rw [h'.generation, h.generation, UInt64.add_assoc, ← UInt64.ofNat_add, ← hfloods]
    congr 2
    omega
  · rw [h'.steady (by omega), h.steady (by omega)]

/-- The storage changed, but no traversal sees it. -/
theorem silent {s : Store K V} (hkind : c.store.SameKind s)
    (hlabels : s.labels slots' = c.store.labels slots) :
    c.Evolves 0 slots { c with store := s } slots' where
  hashing := rfl
  owner := rfl
  maxChain := rfl
  byAccess := hkind.byAccess
  isPacked := isPacked_of_sameKind hkind
  isFallback := fun hf => hkind.isFallback.trans hf
  generation := by
    rw [floods_of_sameKind hkind]
    exact (UInt64.add_zero _).symm
  steady := fun _ => hlabels

/-- The storage changed, and that was counted. -/
theorem counted {s : Store K V} (hkind : c.store.SameKind s) :
    c.Evolves 1 slots ({ c with store := s } : Container K V).bump slots' := by
  have hkind' : c.store.SameKind ({ c with store := s } : Container K V).bump.store := hkind
  refine ⟨rfl, rfl, rfl, hkind.byAccess, isPacked_of_sameKind hkind', fun hf => hkind.isFallback.trans hf, ?_,
    fun h => by omega⟩
  rw [floods_of_sameKind hkind']
  rfl

end Evolves

end Container

end DenseHash
