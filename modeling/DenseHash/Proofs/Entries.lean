import Mathlib.Data.List.Nodup
import Mathlib.Data.List.Perm.Basic
import Mathlib.Logic.Function.Basic

/-!
# Lists of entries

What a container lists is read off a list of places and a function that tells what each place holds. The lemmas
here say how the list of entries changes when one place does. No two keys of such a list are equal.

At the end there are lists whose elements are related one by one.
-/

namespace DenseHash

variable {ι K V : Type}

/-! ## Using an element -/

/-- A list in which one element was used: it moves to the end, if uses are what the order is about. -/
def used {α : Type} (byAccess : Bool) (as : List α) (a : α) (bs : List α) : List α :=
  if byAccess then as ++ bs ++ [a] else as ++ a :: bs

/-- A use loses nothing; at most it changes the order. -/
theorem used_perm {α : Type} (byAccess : Bool) (as : List α) (a : α) (bs : List α) :
    (used byAccess as a bs).Perm (as ++ a :: bs) := by
  cases byAccess
  · exact .refl _
  · exact (List.perm_append_singleton a (as ++ bs)).trans List.perm_middle.symm

/-- A use commutes with any renaming. -/
theorem map_used {α β : Type} (g : α → β) (byAccess : Bool) (as : List α) (a : α) (bs : List α) :
    (used byAccess as a bs).map g = used byAccess (as.map g) (g a) (bs.map g) := by
  cases byAccess <;> simp [used]

/-- Only a move changes the list. -/
theorem used_of_not_moved {α : Type} {byAccess : Bool} {as : List α} {a : α} {bs : List α}
    (h : (byAccess && !bs.isEmpty) = false) : used byAccess as a bs = as ++ a :: bs := by
  cases byAccess with
  | false => rfl
  | true =>
      cases bs with
      | nil => rw [used, if_pos rfl, List.append_nil]
      | cons b bs => exact nomatch h

/-! ## Reading entries off places -/

section Places

variable {α : Type} {held : ι → Option α} {is js : List ι} {i : ι}

/-- What a slot in the middle holds stands in the middle. -/
theorem filterMap_append_cons {a : α} (hi : held i = some a) :
    (is ++ i :: js).filterMap held = is.filterMap held ++ a :: js.filterMap held := by
  rw [List.filterMap_append, List.filterMap_cons_some hi]

/-- A list of images, split at one of them. -/
theorem map_eq_append_cons {κ : Type} {g : ι → κ} {ks ms : List κ} {k : κ} (h : is.map g = ks ++ k :: ms) :
    ∃ as i bs, is = as ++ i :: bs ∧ ks = as.map g ∧ k = g i ∧ ms = bs.map g := by
  obtain ⟨as, cs, rfl, rfl, hcs⟩ := List.map_eq_append_iff.mp h
  obtain ⟨i, bs, rfl, rfl, rfl⟩ := List.map_eq_cons_iff.mp hcs
  exact ⟨as, i, bs, rfl, rfl, rfl, rfl⟩

/-- Using a slot uses what it holds. -/
theorem filterMap_used {a : α} (byAccess : Bool) (hi : held i = some a) :
    (used byAccess is i js).filterMap held = used byAccess (is.filterMap held) a (js.filterMap held) := by
  cases byAccess
  · exact filterMap_append_cons hi
  · show (is ++ js ++ [i]).filterMap held = _
    rw [List.filterMap_append, List.filterMap_append, List.filterMap_cons_some hi]
    rfl

/-- If every slot holds something, nothing is left out. -/
theorem map_some_filterMap (h : ∀ i ∈ is, ∃ a, held i = some a) : (is.filterMap held).map some = is.map held := by
  induction is with
  | nil => rfl
  | cons i is ih =>
      obtain ⟨a, ha⟩ := h i List.mem_cons_self
      rw [List.filterMap_cons_some ha, List.map_cons, List.map_cons, ih fun k hk => h k (List.mem_cons_of_mem i hk), ha]

/-- If every slot holds something, nothing is held only where there are no slots. -/
theorem isEmpty_filterMap (h : ∀ i ∈ is, ∃ a, held i = some a) :
    (is.filterMap held).isEmpty = is.isEmpty := by
  cases is with
  | nil => rfl
  | cons i is =>
      obtain ⟨a, ha⟩ := h i List.mem_cons_self
      rw [List.filterMap_cons_some ha]
      rfl

/-- A list, read place by place. -/
theorem filterMap_range_getElem? (as : List α) : (List.range as.length).filterMap (as[·]?) = as := by
  induction as with
  | nil => rfl
  | cons a as ih =>
      rw [List.length_cons, List.range_succ_eq_map, List.filterMap_cons_some (List.getElem?_cons_zero),
        List.filterMap_map]
      exact congrArg (a :: ·) ih

variable [DecidableEq ι]

/-- A slot that is not listed may be changed. -/
theorem filterMap_update_of_not_mem (hi : i ∉ is) (a : Option α) :
    is.filterMap (Function.update held i a) = is.filterMap held := by
  refine List.filterMap_congr fun k hk => ?_
  have hki : k ≠ i := fun heq => hi (heq ▸ hk)
  rw [Function.update_of_ne hki]

/-- A new place is put at the end. -/
theorem filterMap_update_append_singleton (hi : i ∉ is) (a : α) :
    (is ++ [i]).filterMap (Function.update held i (some a)) = is.filterMap held ++ [a] := by
  rw [List.filterMap_append, filterMap_update_of_not_mem hi,
    List.filterMap_cons_some (Function.update_self ..), List.filterMap_nil]

/-- A place that was used may hold something else. -/
theorem filterMap_used_update (hi : i ∉ is ++ js) (byAccess : Bool) (a : α) :
    (used byAccess is i js).filterMap (Function.update held i (some a)) =
      used byAccess (is.filterMap held) a (js.filterMap held) := by
  rw [List.mem_append, not_or] at hi
  rw [filterMap_used byAccess (Function.update_self ..), filterMap_update_of_not_mem hi.1,
    filterMap_update_of_not_mem hi.2]

end Places

/-! ## Distinct keys -/

/-- No two entries have equal keys. -/
def DistinctKeys [BEq K] (ps : List (K × V)) : Prop := ps.Pairwise fun p q => (p.1 == q.1) = false

namespace DistinctKeys

variable [BEq K] {ps qs : List (K × V)}

/-- The order of entries does not matter to their keys. -/
theorem perm [EquivBEq K] (h : DistinctKeys ps) (hp : qs.Perm ps) : DistinctKeys qs := by
  refine (hp.pairwise_iff fun {p q} hpq => ?_).mpr h
  rw [BEq.comm]
  exact hpq

/-- Only the keys matter. -/
theorem of_map_eq (h : DistinctKeys ps) (hk : qs.map Prod.fst = ps.map Prod.fst) : DistinctKeys qs := by
  have hps : (ps.map Prod.fst).Pairwise fun k k' => (k == k') = false := List.pairwise_map.mpr h
  rw [← hk] at hps
  exact List.pairwise_map.mp hps

/-- Fewer entries have distinct keys all the more. -/
theorem sublist (h : DistinctKeys ps) (hs : qs.Sublist ps) : DistinctKeys qs := List.Pairwise.sublist hs h

end DistinctKeys

/-! ## Lists of related elements -/

section Lists

variable {α β : Type} {R : α → β → Prop} {as : List α} {bs : List β}

/-- Related lists have related elements at each place, or none. -/
theorem forall₂_getElem?_cases (h : List.Forall₂ R as bs) (i : Nat) :
    (as[i]? = none ∧ bs[i]? = none) ∨ ∃ a b, as[i]? = some a ∧ bs[i]? = some b ∧ R a b := by
  induction h generalizing i with
  | nil => exact .inl ⟨rfl, rfl⟩
  | cons hab _ ih =>
      cases i with
      | zero => exact .inr ⟨_, _, rfl, rfl, hab⟩
      | succ i => exact ih i

/-- Related elements may be put in at one place. -/
theorem forall₂_set (h : List.Forall₂ R as bs) (i : Nat) {a : α} {b : β} (hab : R a b) :
    List.Forall₂ R (as.set i a) (bs.set i b) := by
  induction h generalizing i with
  | nil => exact .nil
  | cons hfirst hrest ih =>
      cases i with
      | zero => exact .cons hab hrest
      | succ i => exact .cons hfirst (ih i)

end Lists

end DenseHash
