import Mathlib.Algebra.Group.Nat.Defs
import DenseHash.Proofs.Table.Chains
import DenseHash.Table.Insert

/-!
# Building chains

A new entry is put in front of its chain. Rebuilding a table does that with all entries, one after the other,
so a rebuilt chain has the indices of its bucket in descending order, whatever the chains were before.

The numbers of buckets that sizing gives are powers of two, and it fails in no other way than by a limit of
size.
-/

namespace DenseHash

variable {K V : Type}

/-! ## Numbers of buckets -/

theorem powerOfTwoFrom_eq (n : Nat) : ∃ k, powerOfTwoFrom n = 2 ^ k := by
  rw [powerOfTwoFrom]
  split
  · exact ⟨0, rfl⟩
  · exact ⟨_, rfl⟩

/-- Widening keeps powers of two. -/
theorem widen_eq (loadFactor : Binary64) (count fuel : Nat) {size k : Nat} (h : size = 2 ^ k) :
    ∃ m, widen loadFactor count fuel size = 2 ^ m := by
  induction fuel generalizing size k with
  | zero => exact ⟨k, h⟩
  | succ fuel ih =>
      rw [widen]
      split
      · exact ih (k := k + 1) (by rw [h, Nat.pow_succ, Nat.mul_comm])
      · exact ⟨k, h⟩

/-- Sizing gives a power of two that is not too large, or fails by a limit. -/
theorem bucketsFor_cases (count : Nat) (loadFactor : Binary64) :
    (∃ k, bucketsFor count loadFactor = .ok (2 ^ k) ∧ 2 ^ k ≤ maxBuckets) ∨
      ∃ f, bucketsFor count loadFactor = .error f ∧ f.IsLimit := by
  obtain ⟨k, hk⟩ := powerOfTwoFrom_eq
    (max ((Meaning.ofNat count).div loadFactor.meaning).ceilWord minBuckets)
  obtain ⟨m, hm⟩ := widen_eq loadFactor count 32 hk
  simp only [bucketsFor, hm]
  by_cases hword : wordValues ≤ powerOfTwoFrom
      (max ((Meaning.ofNat count).div loadFactor.meaning).ceilWord minBuckets)
  · exact .inr ⟨_, if_pos hword, trivial⟩
  · rw [if_neg hword]
    by_cases hmax : maxBuckets < 2 ^ m
    · exact .inr ⟨_, if_pos hmax, trivial⟩
    · exact .inl ⟨m, if_neg hmax, Nat.not_lt.mp hmax⟩

/-- The same for the growth of a full table. -/
theorem enlarge_cases (loadFactor : Binary64) (count fuel : Nat) {size k : Nat} (h : size = 2 ^ k) :
    (∃ m, enlarge loadFactor count fuel size = .ok (2 ^ m)) ∨
      ∃ f, enlarge loadFactor count fuel size = .error f ∧ f.IsLimit := by
  induction fuel generalizing size k with
  | zero => exact .inr ⟨_, rfl, trivial⟩
  | succ fuel ih =>
      rw [enlarge]
      split
      · exact .inr ⟨_, rfl, trivial⟩
      · split
        · exact ih (k := k + 1) (by rw [h, Nat.pow_succ, Nat.mul_comm])
        · exact .inl ⟨k, by rw [h]⟩

namespace Table

variable {t : Table K V}

/-! ## In front of a chain -/

/-- The table with one more entry, to which the head of a bucket leads. -/
def prepend (t : Table K V) (bucket : Nat) (e : Entry K V) : Table K V :=
  { t with
    heads := t.heads.setIfInBounds bucket (.ofLink (.ofIndex t.size))
    entries := t.entries.push e }

theorem prepend_size (b : Nat) (e : Entry K V) : (t.prepend b e).size = t.size + 1 :=
  Array.size_push _

theorem prepend_buckets (b : Nat) (e : Entry K V) : (t.prepend b e).buckets = t.buckets :=
  Array.size_setIfInBounds

/-- A prepended entry is at the first free index. -/
theorem prepend_content (b : Nat) (e : Entry K V) :
    (t.prepend b e).content = Function.update t.content t.size (some (e.hash, e.key, e.value)) := by
  funext k
  show ((t.entries.push e)[k]?).map _ = _
  rw [Array.getElem?_push]
  by_cases hk : k = t.size
  · rw [if_pos (show k = t.entries.size from hk), hk, Function.update_self]
    rfl
  · rw [if_neg (show ¬k = t.entries.size from hk), Function.update_of_ne hk]
    rfl

/-- It leads to what the bucket led to, and the bucket leads to it. -/
theorem prepend_link {b : Nat} (hb : b < t.buckets) (hsmall : t.size < maxBuckets) (e : Entry K V) :
    (t.prepend b e).link =
      Function.update (Function.update t.link (.head b) (some t.size)) (.after t.size) e.next.index? := by
  have hindex : (Link.ofIndex t.size : ChainLink).index? = some t.size := by
    refine Link.index?_ofIndex (show _ < 0xFFFFFFFF from ?_)
    rw [maxBuckets] at hsmall
    omega
  funext a
  cases a with
  | head b' =>
      rw [Function.update_of_ne (by simp)]
      show ((t.heads.setIfInBounds b _)[b']?).bind _ = _
      rw [Array.getElem?_setIfInBounds]
      by_cases hbb : b = b'
      · rw [if_pos hbb, if_pos (show b < t.heads.size from hb), ← hbb, Function.update_self]
        show (Head.ofLink _).toLink.index? = _
        rw [Head.toLink_ofLink, hindex]
      · rw [if_neg hbb, Function.update_of_ne fun heq => hbb (Anchor.head.inj heq).symm]
        rfl
  | after k =>
      show ((t.entries.push e)[k]?).bind _ = _
      rw [Array.getElem?_push]
      by_cases hk : k = t.size
      · rw [if_pos (show k = t.entries.size from hk), hk, Function.update_self]
        rfl
      · rw [if_neg (show ¬k = t.entries.size from hk),
          Function.update_of_ne fun heq => hk (Anchor.after.inj heq), Function.update_of_ne (by simp)]
        rfl

/-- A new entry is put in front of its chain. -/
theorem Chained.prepend {chains : Nat → List Nat} {b : Nat} {e : Entry K V}
    (h : t.Chained none chains) (hb : b < t.buckets) (hsmall : t.size < maxBuckets)
    (hhash : bucketIndex t.buckets e.hash = b) (hnext : e.next.index? = t.link (.head b)) :
    (t.prepend b e).Chained none (Function.update chains b (t.size :: chains b)) := by
  have hlink := prepend_link hb hsmall e
  have hkeep : ∀ b' < t.buckets, ∀ k ∈ chains b', (t.prepend b e).link (.after k) = t.link (.after k) := by
    intro b' hb' k hk
    have hne : k ≠ t.size := Nat.ne_of_lt (h.lt_size hb' hk)
    rw [hlink, Function.update_of_ne fun heq => hne (Anchor.after.inj heq), Function.update_of_ne (by simp)]
  refine h.replace (prepend_buckets _ _) ?_ ?_ (fun k => ?_) (fun b' hb' hbb a ha => ?_)
    fun b' hb' hbb k => ?_
  · refine ⟨by rw [hlink, Function.update_of_ne (by simp), Function.update_self], ?_⟩
    refine (h.trail b hb).congr_start ?_ fun a ha => ?_
    · rw [hlink, Function.update_self, hnext]
    · obtain ⟨k, hk, rfl⟩ := List.mem_map.mp ha
      exact hkeep b hb k hk
  · exact List.nodup_cons.mpr ⟨fun hm => Nat.lt_irrefl _ (h.lt_size hb hm), h.nodup b hb⟩
  · rw [prepend_content, List.mem_cons, h.mem_iff b hb]
    by_cases hk : k = t.size
    · rw [hk, Function.update_self]
      simp [hhash]
    · rw [Function.update_of_ne hk]
      simp [hk]
  · rcases List.mem_cons.mp ha with rfl | ha
    · rw [hlink, Function.update_of_ne (by simp), Function.update_of_ne fun heq => hbb (Anchor.head.inj heq)]
    · obtain ⟨k, hk, rfl⟩ := List.mem_map.mp ha
      exact hkeep b' hb' k hk
  · rw [prepend_content, h.mem_iff b' hb']
    by_cases hk : k = t.size
    · rw [hk, Function.update_self, content_eq_none (Nat.le_refl _)]
      simp [hhash, hbb.symm]
    · rw [Function.update_of_ne hk]

/-! ## Rebuilding -/

/-- The chain that a bucket gets when the first `k` entries are chained anew. -/
def rechained (t : Table K V) (buckets k bucket : Nat) : List Nat :=
  ((List.range k).filter fun i =>
    (t.content i).map (fun c => bucketIndex buckets c.1) == some bucket).reverse

/-- The next entry goes to the front of its chain. -/
theorem rechained_succ {buckets k : Nat} {c : UInt32 × K × V} (h : t.content k = some c) :
    t.rechained buckets (k + 1) = Function.update (t.rechained buckets k) (bucketIndex buckets c.1)
      (k :: t.rechained buckets k (bucketIndex buckets c.1)) := by
  funext b
  rw [rechained, List.range_succ, List.filter_append, List.reverse_append]
  by_cases hb : b = bucketIndex buckets c.1
  · rw [hb, Function.update_self, List.filter_singleton, h]
    simp [rechained]
  · have hne : (bucketIndex buckets c.1 == b) = false := by simpa using Ne.symm hb
    rw [Function.update_of_ne hb, List.filter_singleton, h]
    simp [rechained, hne]

/-- The table has the first `k` entries of another one, on new chains. -/
structure Rechains (t : Table K V) (buckets k : Nat) (t' : Table K V) : Prop where
  size : t'.size = k
  width : t'.buckets = buckets
  content : ∀ i < k, t'.content i = t.content i
  chained : t'.Chained none (t.rechained buckets k)

/-- One more entry is chained. -/
theorem Rechains.step {t' : Table K V} {buckets k : Nat} {e : Entry K V} (h : t.Rechains buckets k t')
    (hn : buckets ≠ 0) (hsmall : k < maxBuckets) (he : t.content k = some (e.hash, e.key, e.value)) :
    t.Rechains buckets (k + 1) (t'.prepend (bucketIndex buckets e.hash)
      { e with next := (t'.heads.getD (bucketIndex buckets e.hash) .empty).toLink }) := by
  have hlt : bucketIndex buckets e.hash < t'.buckets := h.width.symm ▸ bucketIndex_lt hn e.hash
  have hget : t'.heads[bucketIndex buckets e.hash]? = some t'.heads[bucketIndex buckets e.hash] :=
    Array.getElem?_eq_getElem hlt
  have hnext : (t'.heads.getD (bucketIndex buckets e.hash) .empty).toLink.index? =
      t'.link (.head (bucketIndex buckets e.hash)) := by
    rw [Array.getD_eq_getD_getElem?, link, hget]
    rfl
  have hstep := h.chained.prepend
    (e := { e with next := (t'.heads.getD (bucketIndex buckets e.hash) .empty).toLink }) hlt
    (h.size.symm ▸ hsmall) (by rw [h.width]) hnext
  refine ⟨?_, (prepend_buckets _ _).trans h.width, fun i hi => ?_, ?_⟩
  · rw [prepend_size, h.size]
  · rw [prepend_content, h.size]
    by_cases hik : i = k
    · rw [hik, Function.update_self, he]
    · rw [Function.update_of_ne hik]
      exact h.content i (by omega)
  · rw [h.size, ← rechained_succ he] at hstep
    exact hstep

/-- Chaining all entries anew keeps what they hold, and makes sound chains. -/
theorem rechain_spec {buckets : Nat} (hn : buckets ≠ 0) (hsmall : t.size ≤ maxBuckets) :
    ∃ heads entries, rechain buckets t.entries = (heads, entries) ∧ heads.size = buckets ∧
      ({ t with heads, entries } : Table K V).content = t.content ∧
      ({ t with heads, entries } : Table K V).Chained none (t.rechained buckets t.size) := by
  have hfold : t.Rechains buckets t.size { t with
      heads := (rechain buckets t.entries).1, entries := (rechain buckets t.entries).2 } := by
    refine Array.foldl_induction (fun k (s : Array Head × Array (Entry K V)) =>
      t.Rechains buckets k { t with heads := s.1, entries := s.2 }) ?_ ?_
    · exact ⟨rfl, Array.size_replicate, fun i hi => absurd hi (Nat.not_lt_zero i),
        chained_nil rfl fun b => link_head_replicate rfl⟩
    · rintro ⟨k, hk : k < t.entries.size⟩ s h
      refine h.step hn (Nat.lt_of_lt_of_le hk hsmall) ?_
      rw [content, Array.getElem?_eq_getElem hk]
      rfl
  obtain ⟨hsize, hbuckets, hcontent, hchained⟩ := hfold
  refine ⟨_, _, rfl, hbuckets, funext fun i => ?_, hchained⟩
  by_cases hi : i < t.size
  · exact hcontent i hi
  · rw [content_eq_none (Nat.not_lt.mp hi), content_eq_none (hsize.symm ▸ Nat.not_lt.mp hi)]

end Table

end DenseHash
