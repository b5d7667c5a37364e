import Mathlib.Data.Nat.Basic
import Mathlib.Order.Basic
import DenseHash.Proofs.Order
import DenseHash.Proofs.Table.Growth

/-!
# Sound tables

`Table.Sound t is` is what holds of a table between two operations: its chains are sound, its traversal order
lists the indices `is`, and no two entries have the same hash and equal keys. It is said of what is stored
only, so one key may stand under several hashes.

Finding an entry, sizing the buckets and replacing values come first, because insertion and removal are built
from them. Each operation is described by what it does to `content` and to the listed indices.
-/

namespace DenseHash

namespace Table

variable {K V : Type}

/-- Tables with the same contents have the same size. -/
theorem size_congr {t t' : Table K V} (h : t'.content = t.content) : t'.size = t.size := by
  refine eq_of_forall_lt_iff fun i => ?_
  rw [← content_isSome_iff, ← content_isSome_iff, h]

/-- Two tables with the same entries at the same indices, traversed in the same order. -/
structure Alike (t t' : Table K V) : Prop where
  content : t'.content = t.content
  order : t'.order = t.order

theorem Alike.refl (t : Table K V) : t.Alike t := ⟨rfl, rfl⟩

/-- The check changes nothing. -/
theorem ensure_state (t : Table K V) (more : Nat) : (t.ensure more).state = t := by
  rw [ensure]
  split <;> rfl

/-- What holds of the table holds after the check. -/
theorem ensure_meets {t : Table K V} {post : Unit → Table K V → Prop} (more : Nat) (h : post () t) :
    (t.ensure more).Meets post := by
  rw [ensure]
  split
  · exact Reply.meets_fail trivial
  · exact Reply.meets_ok h

variable [BEq K]

/-- What holds of a table whose traversal order is `is`. -/
structure Sound (t : Table K V) (is : List Nat) : Prop where
  small : t.size ≤ maxBuckets
  width : t.buckets ≠ 0 → ∃ k, t.buckets = 2 ^ k
  bounded : t.buckets ≤ maxBuckets
  unallocated : t.buckets = 0 → t.size = 0
  chained : ∃ chains, t.Chained none chains
  order : t.order.Lists t.size is
  distinct : ∀ {i j hash key key' value value'}, t.content i = some (hash, key, value) →
    t.content j = some (hash, key', value') → (key == key') = true → i = j

/-- An unallocated table. -/
theorem sound_empty {order : Order} (h : order.Lists 0 []) (loadFactor : Binary64) (expected : Nat) :
    (empty order loadFactor expected : Table K V).Sound [] where
  small := Nat.zero_le _
  width := fun hne => absurd rfl hne
  bounded := Nat.zero_le _
  unallocated := fun _ => rfl
  chained := ⟨_, chained_nil rfl fun _ => rfl⟩
  order := h
  distinct := fun hi => nomatch hi

/-- The buckets are a power of two that is not beyond the largest. -/
theorem Sound.exists_two_pow {t : Table K V} {is : List Nat} (h : t.Sound is) (hb : t.buckets ≠ 0) :
    ∃ k ≤ 30, t.buckets = 2 ^ k := by
  obtain ⟨k, hk⟩ := h.width hb
  exact ⟨k, (Nat.pow_le_pow_iff_right (by decide)).mp (hk ▸ h.bounded), hk⟩

/-- A table without entries, in the buckets that were there. -/
theorem sound_cleared {t : Table K V} {is : List Nat} (h : t.Sound is) : t.cleared.Sound [] where
  small := Nat.zero_le _
  width := by
    show (Array.replicate t.buckets Head.empty).size ≠ 0 → ∃ k, (Array.replicate t.buckets Head.empty).size = _
    rw [Array.size_replicate]
    exact h.width
  bounded := by
    show (Array.replicate t.buckets Head.empty).size ≤ _
    rw [Array.size_replicate]
    exact h.bounded
  unallocated := fun _ => rfl
  chained := ⟨_, chained_nil rfl fun _ => link_head_replicate rfl⟩
  order := Order.lists_cleared _
  distinct := fun hi => nomatch hi

namespace Sound

variable {t : Table K V} {is : List Nat}

/-- The order visits the indices below the size. -/
theorem mem_iff (h : t.Sound is) {i : Nat} : i ∈ is ↔ i < t.size := h.order.mem_iff

/-- If one more index is listed, there is one more entry. -/
theorem size_of_listed {t' : Table K V} {i : Nat} (h : t.Sound is) (h' : t'.Sound (is ++ [i])) :
    t'.size = t.size + 1 := by
  rw [← h'.order.length_eq, ← h.order.length_eq, List.length_append]
  rfl

/-- A listed index has a content. -/
theorem content_of_mem (h : t.Sound is) {i : Nat} (hi : i ∈ is) :
    ∃ hash key value, t.content i = some (hash, key, value) := by
  obtain ⟨⟨hash, key, value⟩, hc⟩ := Option.isSome_iff_exists.mp (content_isSome_iff.mpr (h.mem_iff.mp hi))
  exact ⟨hash, key, value, hc⟩

/-- A content belongs to a listed index. -/
theorem mem_of_content (h : t.Sound is) {i : Nat} {c : UInt32 × K × V} (hc : t.content i = some c) :
    i ∈ is := h.mem_iff.mpr (lt_size_of_content hc)

/-- Every hash selects a bucket, if there are entries. -/
theorem bucket_lt (h : t.Sound is) {i : Nat} (hi : i < t.size) (hash : UInt32) :
    bucketIndex t.buckets hash < t.buckets := by
  refine bucketIndex_lt (fun hzero => ?_) hash
  have := h.unallocated hzero
  omega

/-- Only values change, and the order of traversal. -/
theorem revalue {t' : Table K V} {is' : List Nat} (h : t.Sound is) (hbuckets : t'.buckets = t.buckets)
    (hsize : t'.size = t.size) (hlink : t'.link = t.link) (horder : t'.order.Lists t.size is')
    (hkeys : ∀ {i hash key value}, t'.content i = some (hash, key, value) →
      ∃ old, t.content i = some (hash, key, old)) : t'.Sound is' where
  small := hsize ▸ h.small
  width := hbuckets ▸ h.width
  bounded := hbuckets ▸ h.bounded
  unallocated := by rw [hbuckets, hsize]; exact h.unallocated
  chained := by
    obtain ⟨chains, hch⟩ := h.chained
    refine ⟨chains, hch.congr hbuckets hlink fun i => ?_⟩
    cases hc : t'.content i with
    | none =>
        have hi : t.size ≤ i := by
          rw [← hsize]
          refine Nat.not_lt.mp fun hi => ?_
          rw [← content_isSome_iff, hc] at hi
          exact nomatch hi
        rw [content_eq_none hi]
    | some c =>
        obtain ⟨hash, key, value⟩ := c
        obtain ⟨old, hold⟩ := hkeys hc
        rw [hold]
        rfl
  order := hsize ▸ horder
  distinct := fun hi hj hkey => by
    obtain ⟨old, hi'⟩ := hkeys hi
    obtain ⟨old', hj'⟩ := hkeys hj
    exact h.distinct hi' hj' hkey

/-- Only the buckets change. -/
theorem rebuild {t' : Table K V} {k : Nat} (h : t.Sound is) (halike : t.Alike t')
    (hbuckets : t'.buckets = 2 ^ k) (hmax : 2 ^ k ≤ maxBuckets)
    (hchained : ∃ chains, t'.Chained none chains) : t'.Sound is where
  small := size_congr halike.content ▸ h.small
  width := fun _ => ⟨k, hbuckets⟩
  bounded := hbuckets ▸ hmax
  unallocated := fun hzero => by
    have := Nat.two_pow_pos k
    omega
  chained := hchained
  order := by
    rw [halike.order, size_congr halike.content]
    exact h.order
  distinct := by
    rw [halike.content]
    exact h.distinct

end Sound

/-! ## Finding -/

section Finding

variable {t : Table K V} {is : List Nat} {hash : UInt32} {key : K}

/-- An entry with this hash is on the chain of its bucket. -/
theorem Chained.mem_of_holds {chains : Nat → List Nat} (h : t.Chained none chains) {i : Nat}
    (hlt : bucketIndex t.buckets hash < t.buckets) (hi : t.holds hash key i = true) :
    i ∈ chains (bucketIndex t.buckets hash) := by
  obtain ⟨stored, value, hc, -⟩ := holds_iff.mp hi
  exact (h.mem_iff _ hlt i).mpr ⟨nofun, hash, _, hc, rfl⟩

variable [EquivBEq K]

/-- At most one entry has this hash and this key. -/
theorem Sound.holds_unique (h : t.Sound is) {i j : Nat} (hi : t.holds hash key i = true)
    (hj : t.holds hash key j = true) : i = j := by
  obtain ⟨stored, value, hci, hki⟩ := holds_iff.mp hi
  obtain ⟨stored', value', hcj, hkj⟩ := holds_iff.mp hj
  exact h.distinct hci hcj (BEq.trans hki (BEq.symm hkj))

/-- Finding tells the one entry with this hash and this key. -/
theorem Sound.find_eq (h : t.Sound is) (hash : UInt32) (key : K) :
    ∃ r, t.find hash key = .ok r ∧ ∀ i, r = some i ↔ t.holds hash key i = true := by
  by_cases hb : t.buckets = 0
  · refine ⟨none, by rw [find, if_pos hb], fun i => ⟨nofun, fun hi => ?_⟩⟩
    obtain ⟨stored, value, hc, -⟩ := holds_iff.mp hi
    have hlt := lt_size_of_content hc
    have hzero := h.unallocated hb
    omega
  · obtain ⟨chains, hch⟩ := h.chained
    have hlt := bucketIndex_lt hb hash
    refine ⟨(chains (bucketIndex t.buckets hash)).find? (t.holds hash key), ?_, fun i => ?_⟩
    · rw [find, if_neg hb, bucketOf_eq hb, Checked.ok_bind, hch.chain_eq hlt]
      rfl
    · refine ⟨List.find?_some, fun hi => ?_⟩
      have hmem := hch.mem_of_holds hlt hi
      obtain ⟨j, hj⟩ := Option.isSome_iff_exists.mp (List.find?_isSome.mpr ⟨i, hmem, hi⟩)
      rw [hj, h.holds_unique (List.find?_some hj) hi]

/-- Where the same indices are the ones looked for, finding tells the same. -/
theorem Sound.find_congr {t' : Table K V} {is' : List Nat} {hash' : UInt32} {key' : K} (h : t.Sound is)
    (h' : t'.Sound is') (hholds : ∀ i, t'.holds hash' key' i = t.holds hash key i) :
    t'.find hash' key' = t.find hash key := by
  obtain ⟨r, hr, hiff⟩ := h.find_eq hash key
  obtain ⟨r', hr', hiff'⟩ := h'.find_eq hash' key'
  rw [hr, hr']
  refine congrArg Except.ok (Option.ext fun i => ?_)
  rw [hiff', hiff, hholds]

end Finding

/-! ## Sizing -/

section Sizing

variable {t : Table K V} {is : List Nat}

/-- Rebuilding changes the buckets and nothing else. -/
theorem Sound.resize_meets (h : t.Sound is) {n k : Nat} (hn : n = 2 ^ k) :
    (t.resize n).Meets fun _ t' => t.Alike t' ∧ t'.Sound is := by
  have hne : n ≠ 0 := by
    have := Nat.two_pow_pos k
    omega
  rw [resize]
  by_cases hmax : maxBuckets < n
  · rw [if_pos hmax]
    exact Reply.meets_fail trivial
  · rw [if_neg hmax, if_neg hne]
    obtain ⟨heads, entries, heq, hbuckets, hcontent, hchained⟩ := rechain_spec (t := t) hne h.small
    rw [heq]
    have halike : t.Alike { t with heads, entries } := ⟨hcontent, rfl⟩
    refine Reply.Meets.mk_ok rfl ⟨halike, ?_⟩
    exact h.rebuild halike (hbuckets.trans hn) (hn ▸ Nat.not_lt.mp hmax) ⟨_, hchained⟩

/-- Empty buckets for a table that has none. -/
theorem Sound.allocated (h : t.Sound is) (hb : t.buckets = 0) {k : Nat} (hmax : 2 ^ k ≤ maxBuckets) :
    t.Alike { t with heads := Array.replicate (2 ^ k) Head.empty } ∧
      Sound { t with heads := Array.replicate (2 ^ k) Head.empty } is := by
  have halike : t.Alike { t with heads := Array.replicate (2 ^ k) Head.empty } := ⟨rfl, rfl⟩
  have hsize : (Array.replicate (2 ^ k) Head.empty).size = 2 ^ k := Array.size_replicate
  exact ⟨halike, h.rebuild halike hsize hmax ⟨_, chained_nil (h.unallocated hb) fun b => link_head_replicate rfl⟩⟩

/-- The first buckets. -/
theorem Sound.allocate_meets (h : t.Sound is) :
    t.allocate.Meets fun _ t' => t.Alike t' ∧ t'.Sound is ∧ t'.buckets ≠ 0 := by
  rw [allocate]
  by_cases hb : t.buckets = 0
  · rw [if_pos hb]
    rcases bucketsFor_cases t.expected t.loadFactor with ⟨k, hk, hmax⟩ | ⟨f, hf, hlimit⟩
    · rw [hk]
      obtain ⟨halike, hsound⟩ := h.allocated hb hmax
      refine ensure_meets _ ⟨halike, hsound, ?_⟩
      show (Array.replicate (2 ^ k) Head.empty).size ≠ 0
      rw [Array.size_replicate]
      exact Nat.ne_of_gt (Nat.two_pow_pos k)
    · rw [hf]
      exact Reply.meets_fail hlimit
  · rw [if_neg hb]
    exact Reply.meets_ok ⟨.refl t, h, hb⟩

/-- The number of entries to expect is of no consequence before the first insertion. -/
theorem Sound.expect (h : t.Sound is) (expected : Nat) : Sound { t with expected } is :=
  ⟨h.small, h.width, h.bounded, h.unallocated,
    h.chained.imp fun _ hch => hch.congr rfl rfl fun _ => rfl, h.order, h.distinct⟩

/-- Making room leaves the entries as they are, or is refused for a limit. -/
theorem Sound.reserve_meets (h : t.Sound is) (more : Nat) :
    (t.reserve more).Meets fun _ t' => t.Alike t' ∧ t'.Sound is := by
  rw [reserve]
  dsimp only
  by_cases hb : t.buckets = 0
  · rw [if_pos hb]
    exact Reply.meets_ok ⟨⟨rfl, rfl⟩, h.expect _⟩
  · rw [if_neg hb]
    refine Reply.Meets.andThen (P := fun _ t' => t.Alike t' ∧ t'.Sound is) ?_
      fun _ t' ht' => ensure_meets _ ht'
    split
    · rcases bucketsFor_cases (min (t.size + more) maxWord) t.loadFactor with ⟨k, hk, -⟩ | ⟨f, hf, hlimit⟩
      · rw [hk]
        exact h.resize_meets rfl
      · rw [hf]
        exact Reply.meets_fail hlimit
    · exact Reply.meets_ok ⟨.refl t, h⟩

/-- Shrinking leaves the entries as they are, or is refused for a limit. -/
theorem Sound.shrink_meets (h : t.Sound is) : t.shrink.Meets fun _ t' => t.Alike t' ∧ t'.Sound is := by
  rw [shrink]
  refine Reply.Meets.andThen (P := fun _ t' => t.Alike t' ∧ t'.Sound is) ?_
    fun _ t' ht' => Reply.Meets.mk_ok rfl ht'
  by_cases hsize : t.size = 0
  · rw [if_pos hsize]
    refine Reply.meets_ok ⟨⟨rfl, rfl⟩, ?_⟩
    exact ⟨h.small, fun hne => absurd rfl hne, Nat.zero_le _, fun _ => hsize,
      ⟨_, chained_nil hsize fun b => rfl⟩, h.order, h.distinct⟩
  · rw [if_neg hsize]
    rcases bucketsFor_cases t.size t.loadFactor with ⟨k, hk, -⟩ | ⟨f, hf, hlimit⟩
    · rw [hk]
      dsimp only
      split
      · exact h.resize_meets rfl
      · exact Reply.meets_ok ⟨.refl t, h⟩
    · rw [hf]
      exact Reply.meets_fail hlimit

/-- Growing leaves the entries as they are, or is refused for a limit. -/
theorem Sound.grow_meets (h : t.Sound is) (hb : t.buckets ≠ 0) :
    t.grow.Meets fun _ t' => t.Alike t' ∧ t'.Sound is := by
  rw [grow]
  split
  · exact Reply.meets_ok ⟨.refl t, h⟩
  · obtain ⟨k, hk⟩ := h.width hb
    have hdouble : 2 * t.buckets = 2 ^ (k + 1) := by rw [hk, Nat.pow_succ, Nat.mul_comm]
    rcases enlarge_cases t.loadFactor t.size 64 hdouble with ⟨m, hm⟩ | ⟨f, hf, hlimit⟩
    · rw [hm]
      exact Reply.Meets.map (h.resize_meets rfl)
    · rw [hf]
      exact Reply.meets_fail hlimit

end Sizing

end Table

end DenseHash
