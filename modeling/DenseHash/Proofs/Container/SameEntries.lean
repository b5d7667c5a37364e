import DenseHash.Proofs.Container.Twins
import DenseHash.Session

/-!
# Containers that show the same entries

Two containers may show the same entries while one has them in a table and the other in its fallback. Most questions
that can be asked of a container are answered from the entries alone, and so is every comparison; only the capacity and
the form of storage are not (`Question.seesForm`).

Twins show the same entries, and so do two linked containers that have gone through the same operations, whether the
flood guard has stepped in or not (`Linked`). A dense container cannot be among these, since its fallback removes
differently.
-/

namespace DenseHash

variable [Backing] {K V : Type} [BEq K]

/-- Whether a question is about the form of storage. -/
def Question.seesForm : Question K V → Bool
  | .capacity => true
  | .isFallback => true
  | _ => false

namespace Container

variable {c d c' d' : Container K V}

/-- Both show the same entries, in whichever form they are stored. -/
structure SameEntries (c d : Container K V) : Prop where
  respects : c.hashing.Respects
  respects' : d.hashing.Respects
  shows : ∃ slots slots' ps, c.Shows slots ps ∧ d.Shows slots' ps

/-- Twins show the same entries, in the same slots even. -/
theorem Twins.sameEntries (h : c.Twins d) : c.SameEntries d := by
  obtain ⟨slots, ps, hshows, hshows'⟩ := h.shows
  exact ⟨h.respects, h.respects', slots, slots, ps, hshows, hshows'⟩

/-! ## Questions -/

namespace SameEntries

/-- Both are iterated in the same way. -/
theorem exists_iterates (h : c.SameEntries d) : ∃ ps, c.Iterates ps ∧ d.Iterates ps := by
  obtain ⟨slots, slots', ps, hshows, hshows'⟩ := h.shows
  exact ⟨ps, hshows.iterates, hshows'.iterates⟩

theorem size (h : c.SameEntries d) : d.size = c.size := by
  obtain ⟨ps, hps, hps'⟩ := h.exists_iterates
  rw [hps.size, hps'.size]

theorem toList (h : c.SameEntries d) : d.toList = c.toList := by
  obtain ⟨ps, hps, hps'⟩ := h.exists_iterates
  rw [hps.forward, hps'.forward]

theorem copy (h : c.SameEntries d) (owner : OwnerId) : (c.copy owner).SameEntries (d.copy owner) := by
  obtain ⟨slots, slots', ps, hshows, hshows'⟩ := h.shows
  exact ⟨h.respects, h.respects', slots, slots', ps, hshows.copy owner, hshows'.copy owner⟩

variable [EquivBEq K]

theorem peek (h : c.SameEntries d) (key : K) : d.peek key = c.peek key := by
  obtain ⟨slots, slots', ps, hshows, hshows'⟩ := h.shows
  rw [hshows.peek_eq h.respects, hshows'.peek_eq h.respects']
  rfl

/-- Every question about the entries has the same answer. -/
theorem ask (h : c.SameEntries d) {question : Question K V} (hform : question.seesForm = false) :
    d.ask question = c.ask question := by
  cases question with
  | size => rw [Container.ask, Container.ask, h.size]
  | capacity => cases hform
  | isFallback => cases hform
  | valueOf key => rw [Container.ask, Container.ask, Container.valueOf, Container.valueOf, h.peek]
  | mapText keyText valueText long => rw [Container.ask, Container.ask, Container.mapText, Container.mapText, h.toList]
  | setText keyText long => rw [Container.ask, Container.ask, Container.setText, Container.setText, h.toList]

/-! ## Comparisons -/

variable [BEq V]

/-- They contain the same pairs. -/
theorem includes (h : c.SameEntries d) (ps : List (K × V)) : d.includes ps = c.includes ps := by
  induction ps with
  | nil => rfl
  | cons p ps ih => rw [Container.includes, Container.includes, h.peek, ih]

/-- In a comparison, one of them can stand for the other. -/
theorem same (h : c.SameEntries d) (h' : c'.SameEntries d') (asSequences : Bool) :
    d.same d' asSequences = c.same c' asSequences := by
  cases asSequences with
  | true =>
      show d.sameSequence d' = c.sameSequence c'
      rw [sameSequence, sameSequence, h.size, h'.size, h.toList, h'.toList]
  | false =>
      show d.sameMap d' = c.sameMap c'
      rw [sameMap, sameMap, h.size, h'.size, h.toList, funext h'.includes]

end SameEntries

/-- Twins are in the same form, and have the same capacity. -/
theorem Twins.ask [EquivBEq K] (h : c.Twins d) (question : Question K V) : d.ask question = c.ask question := by
  cases hform : question.seesForm with
  | false => exact h.sameEntries.ask hform
  | true =>
      cases question with
      | capacity => rw [Container.ask, Container.ask, h.capacity?]
      | isFallback => rw [Container.ask, Container.ask, h.isFallback]
      | _ => cases hform

/-! ## Linked containers -/

/-- Two linked containers with the same entries, in the same kind of order. -/
structure Linked (c d : Container K V) : Prop where
  same : c.SameEntries d
  unpacked : c.store.isPacked = false
  unpacked' : d.store.isPacked = false
  byAccess : d.store.byAccess = c.store.byAccess

namespace Linked

theorem copy (h : c.Linked d) (owner : OwnerId) : (c.copy owner).Linked (d.copy owner) :=
  ⟨h.same.copy owner, h.unpacked, h.unpacked', h.byAccess⟩

variable [EquivBEq K] {a a' : Answer K V}

/-- One step of both: the flood guard may step in at either. -/
theorem apply (h : c.Linked d) {op : Operation K V} (hok : (c.apply op).result = .ok a)
    (hok' : (d.apply op).result = .ok a') : a' = a ∧ (c.apply op).state.Linked (d.apply op).state := by
  obtain ⟨slots, slots', ps, hshows, hshows'⟩ := h.same.shows
  -- the listings are the same, and what becomes of a listing does not depend on the storage
  have hlisting : d.listingOf ps = c.listingOf ps := by
    rw [listingOf, listingOf, h.unpacked, h.unpacked', h.byAccess]
  obtain ⟨hanswer, slots₁, hshows₁, hev⟩ := (hshows.apply_meets h.same.respects op).of_ok hok
  obtain ⟨hanswer', slots₁', hshows₁', hev'⟩ := (hshows'.apply_meets h.same.respects' op).of_ok hok'
  rw [hlisting] at hanswer' hshows₁'
  refine ⟨hanswer'.symm.trans hanswer, ?_, ?_, ?_, ?_⟩
  · exact ⟨hev.hashing ▸ h.same.respects, hev'.hashing ▸ h.same.respects', slots₁, slots₁', _, hshows₁, hshows₁'⟩
  · rw [hev.isPacked, h.unpacked, Bool.false_and]
  · rw [hev'.isPacked, h.unpacked', Bool.false_and]
  · rw [hev'.byAccess, h.byAccess, hev.byAccess]

end Linked

/-! ## New containers -/

section Made

variable {settings : Settings} {order : Order} {hashing hashing' : Hashing K} {owner : OwnerId}

/-- Containers that are made alike are twins, whatever their hash functions. -/
theorem twins_of_make (horder : order.Fresh) (hr : hashing.Respects) (hr' : hashing'.Respects)
    (hmake : make settings order hashing owner = .ok c) (hmake' : make settings order hashing' owner = .ok d) :
    c.Twins d := by
  obtain ⟨-, rfl⟩ := eq_of_make hmake
  obtain ⟨-, rfl⟩ := eq_of_make hmake'
  exact ⟨hr, hr', .table (Table.twins_empty horder settings.loadFactor settings.expectedSize.toNat), rfl, rfl⟩

/-- Linked containers that are made alike. -/
theorem linked_of_make {byAccess : Bool} (hr : hashing.Respects) (hr' : hashing'.Respects)
    (hmake : make settings (.ofMode byAccess) hashing owner = .ok c)
    (hmake' : make settings (.ofMode byAccess) hashing' owner = .ok d) : c.Linked d := by
  have htwins := twins_of_make (.linked byAccess) hr hr' hmake hmake'
  obtain ⟨-, rfl⟩ := eq_of_make hmake
  obtain ⟨-, rfl⟩ := eq_of_make hmake'
  exact ⟨htwins.sameEntries, rfl, rfl, rfl⟩

end Made

end Container

end DenseHash
