import Mathlib.Logic.Function.Basic
import DenseHash.Proofs.Trail

/-!
# Rings

A doubly linked list is a ring: a place for each entry, and one more, `none`, for the list itself. Going around
by `succ` meets the entries in order, going around by `pred` meets them in reverse order, and both come back to
`none`. The threads of tables and the order of a fallback are rings.

Three changes of links are all that happens to rings: an entry is unlinked, an entry is linked at the end, an
entry gets another name. Each is one update or two of either direction.
-/

namespace DenseHash

variable {ι : Type}

/-- Both directions of a ring list these entries, each once. -/
structure Ring (succ pred : Option ι → Option ι) (is : List ι) : Prop where
  nodup : is.Nodup
  forward : Trail some succ none is none
  backward : Trail some pred none is.reverse none

/-- The last of the places on a ring. -/
theorem tip_some_none (is : List ι) : tip some none is = is.getLast? := by
  rw [tip_eq_getLast?]
  cases is.getLast? <;> rfl

/-- The places of distinct elements, together with the place of the order itself, are distinct. -/
theorem nodup_places {is : List ι} (h : is.Nodup) : (none :: is.map some).Nodup :=
  List.nodup_cons.mpr ⟨by simp, h.map fun _ _ hab => Option.some.inj hab⟩

/-- An element that is not listed has none of these places. -/
theorem some_not_mem_places {is : List ι} {i : ι} (h : i ∉ is) :
    some i ∉ none :: is.map some := by
  simpa using h

namespace Ring

variable {succ pred succ' pred' : Option ι → Option ι} {is js : List ι} {i k : ι}

/-- Two links to nowhere make the empty ring. -/
theorem empty (hs : succ none = none) (hp : pred none = none) : Ring succ pred [] :=
  ⟨List.nodup_nil, hs, hp⟩

/-- The same ring, seen from the other side. -/
theorem swap (h : Ring succ pred is) : Ring pred succ is.reverse :=
  ⟨List.nodup_reverse.mpr h.nodup, h.backward, by rw [List.reverse_reverse]; exact h.forward⟩

theorem first_eq (h : Ring succ pred is) : succ none = is.head? := h.forward.head

/-- The ring ends where the backward links begin. -/
theorem last_eq (h : Ring succ pred is) : pred none = is.getLast? := by
  rw [h.swap.first_eq, List.head?_reverse]

theorem succ_eq (h : Ring succ pred (is ++ i :: js)) : succ (some i) = js.head? :=
  h.forward.next_eq

/-- Before an element in the middle comes the last one in front of it. -/
theorem pred_eq (h : Ring succ pred (is ++ i :: js)) : pred (some i) = is.getLast? := by
  have hswap : Ring pred succ (js.reverse ++ i :: is.reverse) := by simpa using h.swap
  rw [hswap.succ_eq, List.head?_reverse]

/-- A ring does not see links elsewhere. -/
theorem congr (h : Ring succ pred is) (hs : ∀ a ∈ none :: is.map some, succ' a = succ a)
    (hp : ∀ a ∈ none :: is.map some, pred' a = pred a) : Ring succ' pred' is := by
  refine ⟨h.nodup, h.forward.congr hs, h.backward.congr fun a ha => hp a ?_⟩
  simpa using ha

/-! ## One direction at a time

The lemmas about trails give the forward direction; the backward one is the same, seen from the other side. -/

/-- Without the element, the forward links lead from what was before it to what was after it. -/
private theorem forward_unlink [DecidableEq ι] (h : Ring succ pred (is ++ i :: js)) :
    Trail some (Function.update succ (pred (some i)) (succ (some i))) none (is ++ js) none := by
  refine h.forward.skip (nodup_places h.nodup) ?_ fun a _ ha => ?_
  · rw [tip_some_none, h.pred_eq, Function.update_self]
  · rw [h.pred_eq, Function.update_of_ne (tip_some_none is ▸ ha)]

/-- Forward links that lead to another name in its place. -/
private theorem forward_rename (h : Ring succ pred (is ++ i :: js))
    (hnew : succ' (pred (some i)) = some k) (hlink : succ' (some k) = succ (some i))
    (hold : ∀ a ∈ none :: (is ++ js).map some, a ≠ pred (some i) → succ' a = succ a) :
    Trail some succ' none (is ++ k :: js) none := by
  rw [h.pred_eq, ← tip_some_none] at hnew hold
  exact h.forward.rename (nodup_places h.nodup) hnew hlink hold

/-! ## What happens to rings -/

/-- An entry is unlinked: its neighbours lead to each other. -/
theorem unlink [DecidableEq ι] (h : Ring succ pred (is ++ i :: js)) :
    Ring (Function.update succ (pred (some i)) (succ (some i)))
      (Function.update pred (succ (some i)) (pred (some i))) (is ++ js) := by
  have hswap : Ring pred succ (js.reverse ++ i :: is.reverse) := by simpa using h.swap
  refine ⟨h.nodup.sublist (by simp), h.forward_unlink, ?_⟩
  rw [List.reverse_append]
  exact hswap.forward_unlink

/-- An entry that is off the ring is linked at the end. -/
theorem linkLast [DecidableEq ι] (h : Ring succ pred is) (hi : i ∉ is) :
    Ring (Function.update (Function.update succ (some i) none) (pred none) (some i))
      (Function.update (Function.update pred (some i) (pred none)) none (some i)) (is ++ [i]) := by
  have hi' : some i ∉ none :: is.map some := some_not_mem_places hi
  have hne : ∀ a ∈ none :: is.map some, a ≠ some i := fun a ha heq => hi' (heq ▸ ha)
  have htip : tip some none is = pred none := by rw [tip_some_none, h.last_eq]
  have hlast : pred none ≠ some i := fun heq => hi' (heq ▸ htip ▸ tip_mem none is)
  refine ⟨?_, ?_, ?_⟩
  · exact List.nodup_append.mpr ⟨h.nodup, List.nodup_singleton i, fun a ha b hb hab =>
      hi (List.mem_singleton.mp hb ▸ hab ▸ ha)⟩
  · have hf : Trail some succ none (is ++ []) none := by simpa using h.forward
    refine hf.slip (by simpa using nodup_places h.nodup) (by simpa using hi') ?_ ?_ fun a ha hat => ?_
    · rw [htip, Function.update_self]
    · rw [Function.update_of_ne hlast.symm, Function.update_self, h.forward.last]
    · rw [htip] at hat
      rw [Function.update_of_ne hat, Function.update_of_ne (hne a (by simpa using ha))]
  · have hb : Trail some pred none ([] ++ is.reverse) none := h.backward
    have hmem : ∀ a ∈ none :: ([] ++ is.reverse).map some, a ∈ none :: is.map some := fun a ha => by
      simpa using ha
    rw [List.reverse_append]
    refine hb.slip (nodup_places h.swap.nodup) (fun hm => hi' (hmem _ hm)) ?_ ?_ fun a ha hat => ?_
    · exact Function.update_self _ _ _
    · rw [Function.update_of_ne (Option.some_ne_none i), Function.update_self]
      rfl
    · have hnone : a ≠ none := hat
      rw [Function.update_of_ne hnone, Function.update_of_ne (hne a (hmem a ha))]

/-- An entry gets another index: its neighbours lead to the new one, which has the links of the old one. -/
theorem rename (h : Ring succ pred (is ++ i :: js)) (hk : k ∉ is ++ js)
    (hsnew : succ' (pred (some i)) = some k) (hslink : succ' (some k) = succ (some i))
    (hsold : ∀ a ∈ none :: (is ++ js).map some, a ≠ pred (some i) → succ' a = succ a)
    (hpnew : pred' (succ (some i)) = some k) (hplink : pred' (some k) = pred (some i))
    (hpold : ∀ a ∈ none :: (is ++ js).map some, a ≠ succ (some i) → pred' a = pred a) :
    Ring succ' pred' (is ++ k :: js) := by
  have hswap : Ring pred succ (js.reverse ++ i :: is.reverse) := by simpa using h.swap
  refine ⟨?_, h.forward_rename hsnew hslink hsold, ?_⟩
  · have hd : (is ++ js).Nodup := h.nodup.sublist (by simp)
    exact List.nodup_middle.mpr (List.nodup_cons.mpr ⟨hk, hd⟩)
  · have hb := hswap.forward_rename hpnew hplink fun a ha => hpold a (by
      simpa [or_comm, or_assoc, or_left_comm] using ha)
    simpa using hb

end Ring

end DenseHash
