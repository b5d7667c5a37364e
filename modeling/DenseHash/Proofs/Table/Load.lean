import Mathlib.Data.List.Perm.Subperm
import DenseHash.Proofs.Sizing.Buckets
import DenseHash.Proofs.Table.Run

/-!
# How full the buckets are

The load of a bucket is counted off the stored hashes and does not look at links. In a sound table it is the length
of the bucket's chain, so the longest chain is known from the hashes and the number of buckets alone
(`Sound.longestChain_eq_peak`). More buckets split the chains and lengthen none, because the low bits of a hash that
chose the old bucket are among those that choose the new one (`Widens.short`).
-/

namespace DenseHash

variable {K V : Type}

/-- Among a power of two, the bucket is the hash cut to as many bits. -/
theorem bucketIndex_two_pow (k : Nat) (hash : UInt32) : bucketIndex (2 ^ k) hash = hash.toNat % 2 ^ k :=
  Nat.and_two_pow_sub_one_eq_mod hash.toNat k

/-- The bucket among fewer buckets is known from the bucket among more. -/
theorem bucketIndex_mod {j k : Nat} (h : j ≤ k) (hash : UInt32) :
    bucketIndex (2 ^ k) hash % 2 ^ j = bucketIndex (2 ^ j) hash := by
  rw [bucketIndex_two_pow, bucketIndex_two_pow, Nat.mod_mod_of_dvd _ (Nat.pow_dvd_pow 2 h)]

namespace Table

variable {t t' : Table K V} {is : List Nat} {chains : Nat → List Nat}

/-! ## Hashes and loads -/

/-- The stored hashes, by index. -/
def hashes (t : Table K V) : List UInt32 := t.entries.toList.map Entry.hash

/-- The number of entries in a bucket. -/
def load (t : Table K V) (bucket : Nat) : Nat :=
  t.hashes.countP fun hash => bucketIndex t.buckets hash == bucket

/-- The greatest load of a bucket. -/
def peak (t : Table K V) : Nat := (List.range t.buckets).foldl (fun n b => max n (t.load b)) 0

/-- No bucket holds more than `limit` entries. -/
def Short (t : Table K V) (limit : Nat) : Prop := ∀ b, t.load b ≤ limit

/-- The hash at an index. -/
def hashAt (t : Table K V) (i : Nat) : Option UInt32 := (t.content i).map Prod.fst

theorem hashes_eq (t : Table K V) : t.hashes = (List.range t.size).filterMap t.hashAt := by
  have hmap := List.map_filterMap (f := (t.entries.toList[·]?)) (g := Entry.hash) (l := List.range t.entries.toList.length)
  rw [filterMap_range_getElem?] at hmap
  rw [hashes, hmap, size, ← Array.length_toList]
  refine List.filterMap_congr fun i _ => ?_
  rw [hashAt, content, Array.getElem?_toList, Option.map_map]
  rfl

theorem length_hashes (t : Table K V) : t.hashes.length = t.size := by simp [hashes, size]

/-- The hashes are known from what is at the indices. -/
theorem hashes_congr (h : t'.hashAt = t.hashAt) : t'.hashes = t.hashes := by
  have hsize : t'.size = t.size := by
    refine eq_of_forall_lt_iff fun i => ?_
    rw [← content_isSome_iff, ← content_isSome_iff, ← Option.isSome_map (f := Prod.fst), ← hashAt, h, hashAt,
      Option.isSome_map]
  rw [hashes_eq, hashes_eq, h, hsize]

theorem Alike.hashes (h : t.Alike t') : t'.hashes = t.hashes :=
  hashes_congr (by funext i; rw [hashAt, hashAt, h.content])

/-- Another value, or another key of the same hash, is of no consequence. -/
theorem hashes_of_update {i : Nat} {hash : UInt32} {pair pair' : K × V} (hc : t.content i = some (hash, pair))
    (h : t'.content = Function.update t.content i (some (hash, pair'))) : t'.hashes = t.hashes := by
  refine hashes_congr (funext fun k => ?_)
  rw [hashAt, hashAt, h]
  by_cases hk : k = i
  · rw [hk, Function.update_self, hc]
    rfl
  · rw [Function.update_of_ne hk]

/-- The hashes in the order of traversal. -/
theorem hashes_perm (h : t.order.Lists t.size is) : (is.filterMap t.hashAt).Perm t.hashes :=
  t.hashes_eq ▸ h.perm.filterMap _

/-- A chain is as long as its bucket is full. -/
theorem Chained.length_eq_load {b : Nat} (h : t.Chained none chains) (hb : b < t.buckets) :
    (chains b).length = t.load b := by
  have hperm : (chains b).Perm ((List.range t.size).filter fun i =>
      ((t.hashAt i).map fun hash => bucketIndex t.buckets hash == b).getD false) := by
    refine (List.perm_ext_iff_of_nodup (h.nodup b hb) (List.nodup_range.filter _)).mpr fun i => ?_
    rw [h.mem_iff b hb, List.mem_filter, List.mem_range, hashAt, Option.map_map]
    constructor
    · rintro ⟨-, hash, pair, hc, hbucket⟩
      refine ⟨lt_size_of_content hc, ?_⟩
      rw [hc]
      exact beq_iff_eq.mpr hbucket
    · rintro ⟨-, hi⟩
      cases hc : t.content i with
      | none =>
          rw [hc] at hi
          exact nomatch hi
      | some c =>
          rw [hc] at hi
          exact ⟨nofun, c.1, c.2, rfl, beq_iff_eq.mp hi⟩
  rw [hperm.length_eq, load, hashes_eq, List.countP_filterMap, List.countP_eq_length_filter]

theorem load_eq_zero {b : Nat} (hb : t.buckets ≠ 0) (h : t.buckets ≤ b) : t.load b = 0 := by
  refine List.countP_eq_zero.mpr fun hash _ heq => ?_
  have := bucketIndex_lt hb hash
  have := beq_iff_eq.mp heq
  omega

theorem load_of_no_hashes (h : t.hashes = []) (b : Nat) : t.load b = 0 := by rw [load, h, List.countP_nil]

/-- No bucket holds more entries than there are. -/
theorem load_le_size (t : Table K V) (b : Nat) : t.load b ≤ t.size := by
  rw [load, ← length_hashes]
  exact List.countP_le_length

/-- The longest chain is the one of the fullest bucket. -/
theorem Chained.longest_eq_peak (h : t.Chained none chains) : longest chains t.buckets = t.peak := by
  refine eq_of_forall_ge_iff fun m => ?_
  rw [longest_le_iff, peak, foldl_max_le_iff]
  exact forall₂_congr fun b hb => by rw [h.length_eq_load hb]

section Sound

variable [BEq K]

theorem Sound.longestChain_eq_peak (h : t.Sound is) : t.longestChain = .ok t.peak := by
  obtain ⟨chains, hch⟩ := h.chained
  rw [hch.longestChain_eq, hch.longest_eq_peak]

theorem Sound.hashes_eq_nil (h : t.Sound is) (hb : t.buckets = 0) : t.hashes = [] :=
  List.eq_nil_of_length_eq_zero (t.length_hashes.trans (h.unallocated hb))

theorem Sound.peak_le_iff (h : t.Sound is) {limit : Nat} : t.peak ≤ limit ↔ t.Short limit := by
  rw [peak, foldl_max_le_iff]
  refine ⟨fun hle b => ?_, fun hle b _ => hle b⟩
  by_cases hb : b < t.buckets
  · exact hle b hb
  · by_cases hzero : t.buckets = 0
    · rw [load_of_no_hashes (h.hashes_eq_nil hzero)]
      exact Nat.zero_le limit
    · rw [load_eq_zero hzero (Nat.not_lt.mp hb)]
      exact Nat.zero_le limit

end Sound

/-! ## More buckets -/

/-- Among more buckets, a bucket gets no more of the hashes than the one that it was split off from. -/
theorem countP_bucketIndex_le {j k : Nat} (h : j ≤ k) (hashes : List UInt32) (b : Nat) :
    hashes.countP (fun hash => bucketIndex (2 ^ k) hash == b) ≤
      hashes.countP (fun hash => bucketIndex (2 ^ j) hash == b % 2 ^ j) := by
  refine List.countP_mono_left fun hash _ heq => ?_
  rw [beq_iff_eq, ← bucketIndex_mod h, beq_iff_eq.mp heq]

/-- The same hashes in no fewer buckets. -/
structure Widens [BEq K] (t t' : Table K V) : Prop where
  intact : t'.Intact
  buckets : t.buckets ≤ t'.buckets
  hashes : t'.hashes = t.hashes

variable [BEq K] {limit : Nat}

/-- More buckets split the chains. -/
theorem Widens.short (h : t.Widens t') (ht : t.Intact) (hshort : t.Short limit) : t'.Short limit := by
  obtain ⟨is, hs⟩ := ht
  obtain ⟨is', hs'⟩ := h.intact
  intro b
  by_cases hb : t.buckets = 0
  · rw [load_of_no_hashes (h.hashes.trans (hs.hashes_eq_nil hb))]
    exact Nat.zero_le limit
  · obtain ⟨j, hj⟩ := hs.width hb
    obtain ⟨k, hk⟩ := hs'.width (Nat.ne_of_gt (Nat.lt_of_lt_of_le (Nat.pos_of_ne_zero hb) h.buckets))
    have hjk : j ≤ k := (Nat.pow_le_pow_iff_right (by decide)).mp (hj ▸ hk ▸ h.buckets)
    have hsplit := countP_bucketIndex_le hjk t.hashes b
    rw [← hj, ← hk, ← h.hashes] at hsplit
    exact hsplit.trans (h.hashes ▸ hshort (b % t.buckets))

end Table

end DenseHash
