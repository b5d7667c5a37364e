import DenseHash.Proofs.Table.Capacity

/-!
# As few buckets as possible

A table is *proper* if it is roomy and has no fewer buckets than the smallest one, once it has any. Every change keeps it
so, refused or not. Then shrinking leaves exactly as many buckets as the entries need, whether it rebuilds the table or
finds nothing to give up (`Proper.shrink_buckets`): a proper table never has fewer, since those that it has would do for
the entries. So a table that was shrunk is not changed by shrinking it again (`Proper.shrink_shrink`).
-/

namespace DenseHash

namespace Table

variable {K V : Type} [BEq K] {t t' : Table K V} {is : List Nat} {hash : UInt32} {key : K} {value : V}

/-! ## Buckets are not given up -/

/-- An insertion, refused or not, leaves no fewer buckets. -/
theorem insertAllocated_buckets (t : Table K V) (hash : UInt32) (key : K) (value : V) :
    (t.insertAllocated hash key value).Leaves fun t' => t.buckets ≤ t'.buckets := by
  rw [insertAllocated]
  split
  · exact Nat.le_refl t.buckets
  · split
    · split
      · rename_i hupdate
        exact Nat.le_of_eq (update_keeps hupdate).2.symm
      · exact Nat.le_refl t.buckets
    · split
      · exact Nat.le_refl t.buckets
      · split
        · rename_i t₁ happend
          exact Reply.Leaves.map ((append_keeps happend).2.1 ▸ t₁.grow_buckets) _
        · exact Nat.le_refl t.buckets

/-- An insertion takes no buckets away. -/
theorem insert_buckets (t : Table K V) (hash : UInt32) (key : K) (value : V) :
    (t.insert hash key value).Leaves fun t' => t.buckets ≤ t'.buckets := by
  by_cases hb : t.buckets = 0
  · rw [Reply.Leaves, hb]
    exact Nat.zero_le _
  · rw [insert, allocate_of_ne hb]
    exact insertAllocated_buckets t hash key value

omit [BEq K] in
/-- The first buckets are not too few. -/
theorem allocate_least (h : t.buckets ≠ 0 → minBuckets ≤ t.buckets) :
    t.allocate.Leaves fun t' => t'.buckets ≠ 0 → minBuckets ≤ t'.buckets := by
  by_cases hb : t.buckets = 0
  · rw [allocate, if_pos hb]
    cases hn : bucketsFor t.expected t.loadFactor with
    | ok n =>
        dsimp only
        rw [Reply.Leaves, ensure_state]
        intro _
        show minBuckets ≤ (Array.replicate n Head.empty).size
        rw [Array.size_replicate]
        exact (bucketsFor_spec hn).2.2.1
    | error f => exact h
  · rw [allocate_of_ne hb]
    exact h

/-! ## Proper tables -/

/-- The table is roomy, and its buckets, if there are any, are no fewer than the smallest table has. -/
structure Proper (t : Table K V) : Prop extends t.Roomy where
  least : t.buckets ≠ 0 → minBuckets ≤ t.buckets

namespace Proper

theorem of_addsNothing (h : t.Proper) (ht : t.AddsNothing t') : t'.Proper :=
  ⟨h.toRoomy.of_addsNothing ht, fun hb => ht.buckets.symm ▸ h.least (ht.buckets ▸ hb)⟩

/-- Making room keeps a table proper. -/
theorem reserve (h : t.Proper) (more : Nat) : (t.reserve more).Leaves Proper := by
  obtain ⟨is, hs⟩ := h.intact
  refine ⟨h.toRoomy.reserve more, fun hb' => ?_⟩
  by_cases hb : t.buckets = 0
  · rw [reserve_unallocated hb] at hb'
    exact absurd hb hb'
  · have hsize := size_congr (hs.reserve_leaves more).1.content
    rcases (reserve_refits hs.small hb more).room hsize (reserve_keeps hb more).loadFactor with heq | ⟨-, hmin⟩
    · rw [heq]
      exact h.least hb
    · exact hmin

/-- Shrinking leaves at least the smallest number of buckets, or none. -/
theorem shrink (h : t.Proper) : t.shrink.Leaves Proper := by
  obtain ⟨is, hs⟩ := h.intact
  refine ⟨h.toRoomy.shrink, fun hb' => ?_⟩
  by_cases hsize : t.size = 0
  · rw [shrink_empty hsize] at hb'
    exact absurd rfl hb'
  · rcases (shrink_refits hsize).room (size_congr hs.shrink_leaves.1.content) (shrink_keeps hsize).loadFactor with
      heq | ⟨-, hmin⟩
    · rw [heq] at hb' ⊢
      exact h.least hb'
    · exact hmin

/-- The first buckets are no fewer than the smallest table has. -/
theorem insert [EquivBEq K] (h : t.Proper) (hash : UInt32) (key : K) (value : V) :
    (t.insert hash key value).Leaves Proper := by
  obtain ⟨is, hs⟩ := h.intact
  refine ⟨h.toRoomy.insert hash key value, ?_⟩
  show (t.insert hash key value).Leaves fun t' => t'.buckets ≠ 0 → minBuckets ≤ t'.buckets
  rw [Table.insert]
  refine (allocate_least h.least).andThen fun u hu h₁ _ => ?_
  have hmade : t.allocate.state.buckets ≠ 0 := (hs.allocate_meets.of_ok hu).2.2
  exact (h₁ hmade).trans (insertAllocated_buckets _ hash key value)

/-! ## Shrinking -/

/-- The entries never need more buckets than there are. -/
theorem bucketsFor_le (h : t.Proper) (hsize : t.size ≠ 0) {n : Nat} (hn : bucketsFor t.size t.loadFactor = .ok n) :
    n ≤ t.buckets := by
  obtain ⟨is, hs⟩ := h.intact
  have hb : t.buckets ≠ 0 := fun hzero => hsize (hs.unallocated hzero)
  by_cases hlt : t.buckets < maxBuckets
  · obtain ⟨k, hk30, hk⟩ := hs.exists_two_pow hb
    have hwithin := h.within hlt
    rw [capacity, if_neg hb, hk, capacityOf_two_pow h.isLoad (hk30.trans (by decide))] at hwithin
    refine (bucketsFor_isLeast h.isLoad hn).2 ⟨⟨k, hk⟩, h.least hb, ?_⟩
    rw [hk]
    exact_mod_cast hwithin
  · exact (bucketsFor_spec hn).2.1.trans (Nat.not_lt.mp hlt)

/-- Shrinking leaves as many buckets as the entries need. -/
theorem shrink_buckets (h : t.Proper) (hsize : t.size ≠ 0) {u : Unit} (hok : t.shrink.result = .ok u) :
    bucketsFor t.size t.loadFactor = .ok t.shrink.state.buckets := by
  rw [Table.shrink, if_neg hsize] at hok ⊢
  obtain ⟨u', hu', -, hstate⟩ := Reply.andThen_result_eq_ok hok
  rw [hstate]
  cases hn : bucketsFor t.size t.loadFactor with
  | error f =>
      rw [hn] at hu'
      cases hu'
  | ok n =>
      rw [hn] at hu'
      dsimp only at hu' ⊢
      by_cases hlt : n < t.buckets
      · rw [if_pos hlt] at hu' ⊢
        exact congrArg Except.ok (resize_of_ok hu').2.2.1.symm
      · rw [if_neg hlt]
        exact congrArg Except.ok (Nat.le_antisymm (h.bucketsFor_le hsize hn) (Nat.not_lt.mp hlt))

omit [BEq K] in
/-- Buckets that are as many as needed are not rebuilt. -/
theorem shrink_of_fitting (hsize : t.size ≠ 0) (hn : bucketsFor t.size t.loadFactor = .ok t.buckets) :
    t.shrink = ⟨t, [.shrunk t.buckets t.size], .ok ()⟩ := by
  rw [Table.shrink, if_neg hsize, hn]
  dsimp only
  rw [if_neg (Nat.lt_irrefl _)]
  rfl

/-- Shrinking once more changes nothing. -/
theorem shrink_shrink (h : t.Proper) {u : Unit} (hok : t.shrink.result = .ok u) :
    t.shrink.state.shrink = ⟨t.shrink.state, [.shrunk t.shrink.state.buckets t.size], .ok ()⟩ := by
  obtain ⟨is, hs⟩ := h.intact
  have hsize' := size_congr hs.shrink_leaves.1.content
  by_cases hsize : t.size = 0
  · have hempty : ({ t with heads := #[], expected := 0 } : Table K V).size = 0 := hsize
    rw [shrink_empty hsize, Table.shrink, if_pos hempty]
    rfl
  · rw [← hsize']
    refine shrink_of_fitting (hsize' ▸ hsize) ?_
    rw [hsize', t.shrink_loadFactor]
    exact h.shrink_buckets hsize hok

/-- Shrinking is refused only to a table with more entries than any table has room for. -/
theorem shrink_isOk_iff (h : t.Proper) :
    t.shrink.result = .ok () ↔ t.size ≤ capacityOf maxBuckets t.loadFactor := by
  by_cases hsize : t.size = 0
  · rw [Table.shrink, if_pos hsize]
    exact iff_of_true rfl (hsize ▸ Nat.zero_le _)
  · rw [Table.shrink, if_neg hsize]
    constructor
    · intro hok
      refine Nat.not_lt.mp fun hlt => ?_
      rw [bucketsFor_of_lt h.isLoad hlt] at hok
      cases hok
    · intro hroom
      obtain ⟨n, hn⟩ := bucketsFor_of_le h.isLoad hroom
      obtain ⟨-, hmax, hmin, -⟩ := bucketsFor_spec hn
      have hne : n ≠ 0 := Nat.ne_of_gt (Nat.lt_of_lt_of_le (by decide) hmin)
      rw [hn]
      dsimp only
      split
      · rw [Reply.andThen_of_ok (resize_result hne hmax)]
        rfl
      · rfl

end Proper

end Table

end DenseHash
