import DenseHash.Proofs.Table.Change

/-!
# Rebuilding the chains

New buckets are filled from the entries in ascending order, each put in front of the chain of its bucket. What comes of
it depends on the stored hashes alone and not on the links that were there (`rechain_congr`), so a second rebuilding
undoes the first one and the entries, their indices and their order stay through both.

The chains are known index by index (`mem_rechained`, `rechained_descending`). A bucket among more buckets is known to
lie in one among fewer, and its chain in the chain there (`rechained_sublist`).
-/

namespace DenseHash

variable {K V : Type}

/-- An entry that is on no chain yet. -/
def Entry.unchained (e : Entry K V) : Entry K V := { e with next := .none }

/-- The links that entries had are of no consequence for new chains. -/
theorem rechain_unchained (buckets : Nat) (entries : Array (Entry K V)) :
    rechain buckets (entries.map Entry.unchained) = rechain buckets entries := by
  rw [rechain, rechain, Array.foldl_map]
  rfl

namespace Table

variable {t t' : Table K V} {n : Nat}

/-! ## New chains -/

/-- Without its links, an entry is its content. -/
theorem getElem?_unchained (t : Table K V) (i : Nat) :
    (t.entries.map Entry.unchained)[i]? = (t.content i).map fun c => ⟨c.2.1, c.2.2, c.1, .none⟩ := by
  rw [Array.getElem?_map, content, Option.map_map]
  rfl

/-- New chains depend on what the entries hold. -/
theorem rechain_congr (h : t'.content = t.content) (buckets : Nat) :
    rechain buckets t'.entries = rechain buckets t.entries := by
  have hsame : t'.entries.map Entry.unchained = t.entries.map Entry.unchained := by
    refine Array.ext_getElem? fun i => ?_
    rw [getElem?_unchained, getElem?_unchained, h]
  rw [← rechain_unchained, hsame, rechain_unchained]

/-- The table with its entries chained anew. -/
def rebuilt (t : Table K V) (n : Nat) : Table K V :=
  { t with heads := (rechain n t.entries).1, entries := (rechain n t.entries).2 }

/-- A resize within the bounds rebuilds the chains, and says so in the log. -/
theorem resize_two_pow (t : Table K V) {k : Nat} (hk : k ≤ 30) :
    t.resize (2 ^ k) = ⟨t.rebuilt (2 ^ k), [.resized t.buckets (2 ^ k) t.size], .ok ()⟩ := by
  have hmax : 2 ^ k ≤ maxBuckets := Nat.pow_le_pow_right (by decide) hk
  rw [resize, if_neg (Nat.not_lt.mpr hmax), if_neg (Nat.two_pow_pos k).ne']
  rfl

/-- A chain gets the entries whose hashes select its bucket. -/
theorem mem_rechained {b i : Nat} :
    i ∈ t.rechained n t.size b ↔ ∃ e, t.entries[i]? = some e ∧ bucketIndex n e.hash = b := by
  rw [rechained, List.mem_reverse, List.mem_filter, List.mem_range, content, Option.map_map]
  constructor
  · rintro ⟨-, hbucket⟩
    obtain ⟨e, he, hb⟩ := Option.map_eq_some_iff.mp (beq_iff_eq.mp hbucket)
    exact ⟨e, he, hb⟩
  · rintro ⟨e, he, hb⟩
    refine ⟨(Array.getElem?_eq_some_iff.mp he).1, ?_⟩
    rw [he]
    exact beq_iff_eq.mpr (congrArg some hb)

/-- The newest index comes first. -/
theorem rechained_descending (t : Table K V) (n k b : Nat) : (t.rechained n k b).Pairwise (· > ·) :=
  List.pairwise_reverse.mpr (List.pairwise_lt_range.filter _)

/-- Among more buckets a chain is what is left of the one that it was a part of. -/
theorem rechained_sublist {j k : Nat} (h : j ≤ k) (t : Table K V) (m b : Nat) :
    (t.rechained (2 ^ k) m b).Sublist (t.rechained (2 ^ j) m (b % 2 ^ j)) := by
  refine (List.monotone_filter_right _ fun i hi => ?_).reverse
  obtain ⟨c, hc, hb⟩ := Option.map_eq_some_iff.mp (beq_iff_eq.mp hi)
  rw [hc]
  refine beq_iff_eq.mpr (congrArg some ?_)
  rw [← hb, bucketIndex_mod h]

/-- With more buckets the longest chain is no longer than before. -/
theorem longest_rechained_le {j k : Nat} (h : j ≤ k) (t : Table K V) (m : Nat) :
    longest (t.rechained (2 ^ k) m) (2 ^ k) ≤ longest (t.rechained (2 ^ j) m) (2 ^ j) := by
  refine longest_le_iff.mpr fun b _ => ?_
  have hsplit := (rechained_sublist h t m b).length_le
  exact hsplit.trans (longest_le_iff.mp (Nat.le_refl _) _ (Nat.mod_lt b (Nat.two_pow_pos j)))

/-! ## Rebuilt tables -/

/-- A second rebuilding takes no notice of the first. -/
theorem rebuilt_rebuilt (hcontent : (t.rebuilt n).content = t.content) (m : Nat) :
    (t.rebuilt n).rebuilt m = t.rebuilt m := by
  rw [Table.rebuilt, rechain_congr hcontent]
  rfl

variable [BEq K] {is : List Nat}

/-- Rebuilding keeps the entries and the order, and makes the chains anew. -/
theorem Sound.rebuilt (h : t.Sound is) {k : Nat} (hk : k ≤ 30) :
    t.Alike (t.rebuilt (2 ^ k)) ∧ (t.rebuilt (2 ^ k)).Sound is ∧
      (t.rebuilt (2 ^ k)).Chained none (t.rechained (2 ^ k) t.size) := by
  have hresize := t.resize_two_pow hk
  obtain ⟨halike, hsound⟩ := (h.resize_meets rfl).of_ok (congrArg Reply.result hresize)
  rw [hresize] at halike hsound
  obtain ⟨heads, entries, heq, -, -, hchained⟩ := rechain_spec (t := t) (Nat.two_pow_pos k).ne' h.small
  refine ⟨halike, hsound, ?_⟩
  rw [Table.rebuilt, heq]
  exact hchained

/-- The table `t'` is what rebuilding leaves of `t`, with `n` buckets. -/
structure Rehashed (t : Table K V) (n : Nat) (t' : Table K V) : Prop where
  buckets : t'.buckets = n
  /-- Every entry stays at its index, and the order is the same. -/
  alike : t.Alike t'
  forward : t'.forward = t.forward
  backward : t'.backward = t.backward
  find : ∀ hash key, t'.find hash key = t.find hash key
  /-- A chain holds the entries of its bucket, the newest index first. -/
  chain : ∀ b < n, ∃ is, t'.chain b = .ok is ∧ is.Pairwise (· > ·) ∧
    ∀ i, i ∈ is ↔ ∃ e, t.entries[i]? = some e ∧ bucketIndex n e.hash = b

/-- So everything that is said of rebuilding holds of a sound table. -/
theorem Sound.rehashed [EquivBEq K] (h : t.Sound is) {k : Nat} (hk : k ≤ 30) :
    t.Rehashed (2 ^ k) (t.rebuilt (2 ^ k)) := by
  obtain ⟨halike, hsound, hchained⟩ := h.rebuilt hk
  have hbuckets : (t.rebuilt (2 ^ k)).buckets = 2 ^ k := rechain_size _ _
  have hsize := size_congr halike.content
  refine ⟨hbuckets, halike, ?_, ?_, ?_, ?_⟩
  · rw [forward, halike.order, hsize, ← forward]
  · rw [backward, halike.order, hsize, ← backward]
  · intro hash key
    exact h.find_congr hsound (holds_congr halike.content hash key)
  · intro b hb
    exact ⟨_, hchained.chain_eq (hbuckets.symm ▸ hb), t.rechained_descending _ _ b, fun _ => mem_rechained⟩

/-- Neither number of buckets loses anything, the larger one splits the chains of the smaller one, and the smaller one
    afterwards makes the table that it would have made at once. -/
theorem resize_splits_chains [EquivBEq K] (h : t.Reachable) {j k : Nat} (hjk : j ≤ k) (hk : k ≤ 30) :
    ∃ few many, t.resize (2 ^ j) = ⟨few, [.resized t.buckets (2 ^ j) t.size], .ok ()⟩ ∧
      t.resize (2 ^ k) = ⟨many, [.resized t.buckets (2 ^ k) t.size], .ok ()⟩ ∧
      t.Rehashed (2 ^ j) few ∧ t.Rehashed (2 ^ k) many ∧
      (∀ b < 2 ^ k, ∃ is js, many.chain b = .ok is ∧ few.chain (b % 2 ^ j) = .ok js ∧ is.Sublist js) ∧
      (∃ short long, many.longestChain = .ok short ∧ few.longestChain = .ok long ∧ short ≤ long) ∧
      many.resize (2 ^ j) = ⟨few, [.resized (2 ^ k) (2 ^ j) t.size], .ok ()⟩ := by
  obtain ⟨is, hs⟩ := h.intact
  have hj : j ≤ 30 := hjk.trans hk
  have hfew := hs.rehashed hj
  have hmany := hs.rehashed hk
  obtain ⟨-, -, hchained⟩ := hs.rebuilt hj
  obtain ⟨-, -, hchained'⟩ := hs.rebuilt hk
  refine ⟨t.rebuilt (2 ^ j), t.rebuilt (2 ^ k), t.resize_two_pow hj, t.resize_two_pow hk, hfew, hmany, ?_, ?_, ?_⟩
  · intro b hb
    have hmod : b % 2 ^ j < 2 ^ j := Nat.mod_lt b (Nat.two_pow_pos j)
    exact ⟨_, _, hchained'.chain_eq (hmany.buckets.symm ▸ hb), hchained.chain_eq (hfew.buckets.symm ▸ hmod),
      rechained_sublist hjk t _ b⟩
  · refine ⟨_, _, hchained'.longestChain_eq, hchained.longestChain_eq, ?_⟩
    rw [hfew.buckets, hmany.buckets]
    exact longest_rechained_le hjk t _
  · rw [resize_two_pow _ hj, rebuilt_rebuilt hmany.alike.content, hmany.buckets, size_congr hmany.alike.content]

/-- Four entries in one bucket, and in two of eight. -/
theorem resize_splits_chains_colliding :
    ∃ t few many : Table Nat Nat,
      t = (performAll [.insert 1 1 10, .insert 5 2 20, .insert 9 3 30, .insert 13 4 40, .removeAt 0]
        (empty (.ofMode true) .threeQuarters 0)).state ∧ t.Reachable ∧ 0 ≤ 3 ∧ 3 ≤ 30 ∧
      (t.resize (2 ^ 0)).state = few ∧ (t.resize (2 ^ 3)).state = many ∧
      t.Rehashed (2 ^ 0) few ∧ t.Rehashed (2 ^ 3) many ∧
      few.chain 0 = .ok [2, 1, 0] ∧ many.chain 1 = .ok [2] ∧ many.chain 5 = .ok [1, 0] ∧
      (many.resize (2 ^ 0)).state = few := by
  have hreach : (performAll [.insert 1 1 10, .insert 5 2 20, .insert 9 3 30, .insert 13 4 40, .removeAt 0]
      (empty (.ofMode true) .threeQuarters 0) : Reply (Table Nat Nat) (List (Report Nat Nat))).state.Reachable :=
    ⟨_, _, _, _, .linked true, rfl⟩
  obtain ⟨few, many, hfew, hmany, hrehashed, hrehashed', -, -, htwice⟩ :=
    resize_splits_chains hreach (Nat.zero_le 3) (by decide)
  refine ⟨_, few, many, rfl, hreach, by decide, by decide, by rw [hfew], by rw [hmany], hrehashed, hrehashed',
    ?_, ?_, ?_, by rw [htwice]⟩
  · rw [show few = (Table.resize _ _).state from congrArg Reply.state hfew.symm]
    decide +kernel
  · rw [show many = (Table.resize _ _).state from congrArg Reply.state hmany.symm]
    decide +kernel
  · rw [show many = (Table.resize _ _).state from congrArg Reply.state hmany.symm]
    decide +kernel

end Table

end DenseHash
