import DenseHash.Proofs.Entries
import DenseHash.Proofs.Gather
import DenseHash.Proofs.Table.Sound
import DenseHash.Table.Traversal

/-!
# Reading a table off

A sound table tells its entries in traversal order, whichever way they are got at, and the length of its longest chain.
-/

namespace DenseHash

namespace Table

variable {K V : Type} {t : Table K V} {is : List Nat}

/-- The key and value at an index. -/
def pair? (t : Table K V) (i : Nat) : Option (K × V) := (t.content i).map Prod.snd

theorem pair?_update {t' : Table K V} {i : Nat} {hash : UInt32} {key : K} {value : V}
    (h : t'.content = Function.update t.content i (some (hash, key, value))) :
    t'.pair? = Function.update t.pair? i (some (key, value)) := by
  funext k
  rw [pair?, h]
  by_cases hki : k = i
  · rw [hki, Function.update_self, Function.update_self]
    rfl
  · rw [Function.update_of_ne hki, Function.update_of_ne hki]
    rfl

theorem pair?_isSome_iff {i : Nat} : (t.pair? i).isSome = true ↔ i < t.size := by
  rw [pair?, Option.isSome_map, content_isSome_iff]

/-- The longest of some chains. -/
def longest (chains : Nat → List Nat) (buckets : Nat) : Nat :=
  (List.range buckets).foldl (fun n b => max n (chains b).length) 0

/-- The largest of some numbers is within a bound if they all are. -/
theorem foldl_max_le_iff {g : Nat → Nat} {n m : Nat} :
    (List.range n).foldl (fun k b => max k (g b)) 0 ≤ m ↔ ∀ b < n, g b ≤ m := by
  induction n with
  | zero => simp
  | succ n ih =>
      rw [List.range_succ, List.foldl_append, List.foldl_cons, List.foldl_nil, Nat.max_le, ih]
      constructor
      · rintro ⟨hrest, hlast⟩ b hb
        rcases Nat.lt_succ_iff_lt_or_eq.mp hb with hlt | rfl
        · exact hrest b hlt
        · exact hlast
      · intro h
        exact ⟨fun b hb => h b (by omega), h n (by omega)⟩

/-- The longest chain is within a bound if all chains are. -/
theorem longest_le_iff {chains : Nat → List Nat} {buckets n : Nat} :
    longest chains buckets ≤ n ↔ ∀ b < buckets, (chains b).length ≤ n :=
  foldl_max_le_iff

/-- Measuring all chains finds the longest one. -/
theorem Chained.longestChain_eq {chains : Nat → List Nat} (h : t.Chained none chains) :
    t.longestChain = .ok (longest chains t.buckets) := by
  have hheads : t.heads.toList = (List.range t.buckets).map fun b => t.heads.getD b .empty := by
    refine List.ext_getElem (by simp [buckets]) fun i hi hi' => ?_
    have hlt : i < t.heads.size := by simpa using hi
    simp [hlt]
  rw [longestChain, ← Array.foldlM_toList, hheads, List.foldlM_map]
  refine Checked.foldlM_eq_foldl (fun b hb n => ?_) 0
  have hlt : b < t.buckets := List.mem_range.mp hb
  have hget : t.heads[b]? = some t.heads[b] := Array.getElem?_eq_getElem hlt
  have hfollow : t.follow (t.heads.getD b .empty).toLink = .ok (chains b) := by
    refine h.follow_eq hlt ?_
    rw [link, Array.getD_eq_getD_getElem?, hget]
    rfl
  rw [hfollow]
  rfl

variable [BEq K]

/-- The longest chain can be read. -/
theorem Sound.longestChain_eq (h : t.Sound is) : ∃ n, t.longestChain = .ok n := by
  obtain ⟨chains, hch⟩ := h.chained
  exact ⟨_, hch.longestChain_eq⟩

/-! ## Getting at all entries -/

omit [BEq K] in
/-- All entries, each in a place of its own. -/
theorem getElem?_places (i : Nat) :
    (t.entries.toList.map fun e => some (e.key, e.value)).toArray[i]?.join = t.pair? i := by
  rw [pair?, content, List.getElem?_toArray, List.getElem?_map, Array.getElem?_toList]
  cases t.entries[i]? <;> rfl

/-- The entries in traversal order: in dense order they stand in it, and otherwise the order visits each of them once. -/
theorem Sound.pairs_eq (h : t.Sound is) : t.pairs = .ok (is.filterMap t.pair?) := by
  rw [pairs]
  cases hdense : t.order.isDense with
  | true =>
      have hread := filterMap_range_getElem? (t.entries.toList.map fun e => (e.key, e.value))
      rw [if_pos rfl, h.order.eq_range hdense, ← hread, List.length_map]
      refine congrArg Except.ok (List.filterMap_congr fun i hi => ?_)
      rw [List.getElem?_map, Array.getElem?_toList, pair?, content, Option.map_map]
      rfl
  | false =>
      have hall : ∀ i ∈ is, ((t.entries.toList.map fun e => some (e.key, e.value)).toArray[i]?.join).isSome := by
        intro i hi
        rw [getElem?_places]
        exact pair?_isSome_iff.mpr (h.mem_iff.mp hi)
      rw [if_neg Bool.false_ne_true, forward, h.order.forward_eq, Checked.ok_bind, gather_places h.order.nodup hall]
      simp only [getElem?_places]

theorem getElem?_indices {n i : Nat} (h : i < n) : ((List.range n).map some).toArray[i]?.join = some i := by
  simp [h]

/-- The references are those of the traversal order. -/
theorem Sound.references_eq (h : t.Sound is) : t.references = .ok is := by
  rw [references]
  cases hdense : t.order.isDense with
  | true => rw [if_pos rfl, h.order.eq_range hdense]
  | false =>
      have hall : ∀ i ∈ is, ((List.range t.size).map some).toArray[i]?.join = some i := by
        intro i hi
        exact getElem?_indices (h.mem_iff.mp hi)
      have hsome : ∀ i ∈ is, (((List.range t.size).map some).toArray[i]?.join).isSome := by
        intro i hi
        rw [hall i hi]
        rfl
      rw [if_neg Bool.false_ne_true, forward, h.order.forward_eq, Checked.ok_bind, gather_places h.order.nodup hsome,
        List.filterMap_congr hall, List.filterMap_some]

end Table

end DenseHash
