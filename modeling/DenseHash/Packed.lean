/-!
# Packed arrays

A store without gaps removes an element by moving the last one into its place.
-/

namespace DenseHash

/-- Takes out the element at index `i` and puts the last one there. -/
def removePacked {α : Type} (a : Array α) (i : Nat) : Array α :=
  if h : i < a.size then (a.swap i (a.size - 1)).pop else a

/-- A packed removal takes one element away. -/
theorem size_removePacked {α : Type} (a : Array α) (i : Nat) (h : i < a.size) :
    (removePacked a i).size = a.size - 1 := by
  simp [removePacked, h]

/-- What the places hold after a removal: the freed one has the element that was last. -/
theorem getElem?_removePacked {α : Type} (a : Array α) (i k : Nat) (h : i < a.size) :
    (removePacked a i)[k]? =
      if k < a.size - 1 then (if k = i then a[a.size - 1]? else a[k]?) else none := by
  have hlast : a.size - 1 < a.size := by omega
  rw [removePacked, dif_pos h, Array.getElem?_pop, Array.size_swap, Array.getElem?_swap]
  by_cases hk : k < a.size - 1
  · rw [if_pos hk, if_pos hk, if_neg (by omega)]
    by_cases hki : k = i
    · rw [if_pos hki, if_pos hki.symm, Array.getElem?_eq_getElem hlast]
    · rw [if_neg hki, if_neg (Ne.symm hki)]
  · rw [if_neg hk, if_neg hk]

end DenseHash
