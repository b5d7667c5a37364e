import DenseHash.Proofs.Table.Insertion
import DenseHash.Proofs.Table.Removal
import DenseHash.Proofs.Table.Traversal
import DenseHash.Table.Action

/-!
# Runs of a table

Every action leaves a sound table: also one that is refused, and also one at an index that is not there. So a run
of any actions from an empty table leaves a table that is *well formed*: its chains hold every entry exactly once,
its order lists every index exactly once in both directions, and no walk along links is longer than the table.

* **Actions that give a result** are described by the lemmas about soundness.
* **Refused ones** leave the table as it was, but for two: buckets that were made or rebuilt before a limit was
  met stay, and so does an entry that was appended before the table could not grow.

In such a table it makes no difference whether an entry is removed by its key or at its index.
-/

namespace DenseHash

namespace Table

variable {K V : Type} [BEq K] {t t' : Table K V} {is : List Nat} {i : Nat}

/-- The table is sound, whatever its order lists. -/
def Intact (t : Table K V) : Prop := ∃ is, t.Sound is

/-! ## At one index -/

/-- Only an order that does not move anything lets an index pass that is not there. -/
theorem Sound.touch_missing {moved : Bool} (h : t.Sound is) (hi : t.size ≤ i) (ht : t.touch i = .ok (moved, t')) :
    moved = false ∧ t' = t := by
  obtain ⟨⟨moved', o⟩, ho, heq⟩ := Checked.bind_eq_ok ht
  obtain ⟨rfl, rfl⟩ := Prod.mk.inj (Except.ok.inj heq)
  have horder := h.order
  cases hord : t.order with
  | dense =>
      rw [hord] at ho
      obtain ⟨rfl, rfl⟩ := Prod.mk.inj (Except.ok.inj ho)
      exact ⟨rfl, by rw [← hord]⟩
  | linked byAccess thread =>
      rw [hord] at ho horder
      rw [Order.access] at ho
      split at ho
      · have hnode : thread.node i = (Corruption.outOfRange thread.nodes.size i).raise := by
          rw [Thread.node, Array.getElem?_eq_none (by rw [horder.1]; exact hi)]
        rw [Thread.unlink, hnode] at ho
        cases ho
      · obtain ⟨rfl, rfl⟩ := Prod.mk.inj (Except.ok.inj ho)
        exact ⟨rfl, by rw [← hord]⟩

theorem Intact.touch {moved : Bool} (h : t.Intact) (ht : t.touch i = .ok (moved, t')) : t'.Intact := by
  obtain ⟨is, hs⟩ := h
  by_cases hi : i < t.size
  · obtain ⟨as, bs, rfl⟩ := List.append_of_mem (hs.mem_iff.mpr hi)
    obtain ⟨t₁, ht₁, -, hsound, -⟩ := hs.touch_eq
    obtain rfl : t₁ = t' := (Prod.mk.inj (Except.ok.inj (ht₁.symm.trans ht))).2
    exact ⟨_, hsound⟩
  · obtain ⟨-, rfl⟩ := hs.touch_missing (Nat.not_lt.mp hi) ht
    exact ⟨is, hs⟩

theorem Intact.setValue {value : V} (h : t.Intact) (ht : t.setValue i value = .ok t') : t'.Intact := by
  obtain ⟨is, hs⟩ := h
  by_cases hi : i < t.size
  · obtain ⟨hash, key, old, hc⟩ := hs.content_of_mem (hs.mem_iff.mpr hi)
    obtain ⟨t₁, ht₁, hsound, -⟩ := hs.setValue_eq hc value
    obtain rfl : t₁ = t' := Except.ok.inj (ht₁.symm.trans ht)
    exact ⟨is, hsound⟩
  · rw [Table.setValue, if_neg hi] at ht
    cases ht

/-- A removal that gave a result was made at an index that is there. -/
theorem Sound.removeAt_of_ok {pair : K × V} (h : t.Sound is) (ht : t.removeAt i = .ok (pair, t')) :
    ∃ as bs, is = as ++ i :: bs ∧ t.Removes as bs i t' := by
  obtain ⟨e, he, -⟩ := Checked.bind_eq_ok ht
  have hc := content_of_entry he
  obtain ⟨as, bs, rfl⟩ := List.append_of_mem (h.mem_of_content hc)
  obtain ⟨t₁, ht₁, hremoves⟩ := h.removeAt_eq hc
  obtain rfl : t₁ = t' := (Prod.mk.inj (Except.ok.inj (ht₁.symm.trans ht))).2
  exact ⟨as, bs, rfl, hremoves⟩

/-- A removal that succeeds leaves the table intact. -/
theorem Intact.removeAt {pair : K × V} (h : t.Intact) (ht : t.removeAt i = .ok (pair, t')) : t'.Intact := by
  obtain ⟨is, hs⟩ := h
  obtain ⟨as, bs, rfl, hremoves⟩ := hs.removeAt_of_ok ht
  exact ⟨_, hremoves.sound⟩

/-- A removal by key removes nothing, or removes at an index. -/
theorem Sound.remove_of_ok {hash : UInt32} {key : K} {pair : Option (K × V)} (h : t.Sound is)
    (ht : t.remove hash key = .ok (pair, t')) : t' = t ∨ ∃ i p, t.removeAt i = .ok (p, t') := by
  rw [h.remove_eq] at ht
  obtain ⟨r, -, ht⟩ := Checked.bind_eq_ok ht
  cases r with
  | none => exact .inl (Prod.mk.inj (Except.ok.inj ht)).2.symm
  | some i =>
      obtain ⟨⟨p, t₁⟩, hremoved, ht⟩ := Checked.bind_eq_ok ht
      obtain rfl : t₁ = t' := (Prod.mk.inj (Except.ok.inj ht)).2
      exact .inr ⟨i, p, hremoved⟩

theorem Intact.remove {hash : UInt32} {key : K} {pair : Option (K × V)} (h : t.Intact)
    (ht : t.remove hash key = .ok (pair, t')) : t'.Intact := by
  obtain ⟨is, hs⟩ := id h
  rcases hs.remove_of_ok ht with rfl | ⟨i, p, hremoved⟩
  · exact h
  · exact h.removeAt hremoved

theorem Intact.cleared (h : t.Intact) : t.cleared.Intact := by
  obtain ⟨is, hs⟩ := h
  exact ⟨[], sound_cleared hs⟩

/-! ## Buckets -/

omit [BEq K] in
/-- A resize that is refused changes nothing. -/
theorem resize_of_error {n : Nat} {f : Fault} (h : (t.resize n).result = .error f) : (t.resize n).state = t := by
  rw [resize] at h ⊢
  split
  · rfl
  · rename_i hmax
    rw [if_neg hmax] at h
    split
    · rfl
    · rename_i hzero
      rw [if_neg hzero] at h
      cases h

/-- Refused or not, a resize leaves a sound table with the same entries. -/
theorem Sound.resize_leaves (h : t.Sound is) (k : Nat) :
    (t.resize (2 ^ k)).Leaves fun t' => t.Alike t' ∧ t'.Sound is := by
  cases hr : (t.resize (2 ^ k)).result with
  | ok u => exact (h.resize_meets rfl).of_ok hr
  | error f =>
      rw [Reply.Leaves, resize_of_error hr]
      exact ⟨.refl t, h⟩

theorem Sound.allocate_leaves (h : t.Sound is) : t.allocate.Leaves fun t' => t.Alike t' ∧ t'.Sound is := by
  rw [allocate]
  by_cases hb : t.buckets = 0
  · rw [if_pos hb]
    rcases bucketsFor_cases t.expected t.loadFactor with ⟨k, hk, hmax⟩ | ⟨f, hf, -⟩
    · rw [hk]
      dsimp only
      rw [Reply.Leaves, ensure_state]
      exact h.allocated hb hmax
    · rw [hf]
      exact ⟨.refl t, h⟩
  · rw [if_neg hb]
    exact ⟨.refl t, h⟩

/-- Refused or not, a request for room leaves a sound table with the same entries. -/
theorem Sound.reserve_leaves (h : t.Sound is) (more : Nat) :
    (t.reserve more).Leaves fun t' => t.Alike t' ∧ t'.Sound is := by
  rw [reserve]
  dsimp only
  by_cases hb : t.buckets = 0
  · rw [if_pos hb]
    exact ⟨⟨rfl, rfl⟩, h.expect _⟩
  · rw [if_neg hb]
    refine Reply.Leaves.andThen ?_ fun _ _ h' => by rwa [Reply.Leaves, ensure_state]
    split
    · rcases bucketsFor_cases (min (t.size + more) maxWord) t.loadFactor with ⟨k, hk, -⟩ | ⟨f, hf, -⟩
      · rw [hk]
        exact h.resize_leaves k
      · rw [hf]
        exact ⟨.refl t, h⟩
    · exact ⟨.refl t, h⟩

omit [BEq K] in
/-- A table that cannot be shrunk stays as it is. -/
theorem shrink_of_error {f : Fault} (h : t.shrink.result = .error f) : t.shrink.state = t := by
  rw [shrink] at h ⊢
  by_cases hsize : t.size = 0
  · rw [if_pos hsize] at h
    cases h
  · rw [if_neg hsize] at h ⊢
    cases hn : bucketsFor t.size t.loadFactor with
    | error f' => rfl
    | ok n =>
        rw [hn] at h
        dsimp only at h ⊢
        by_cases hlt : n < t.buckets
        · rw [if_pos hlt] at h ⊢
          cases hr : (t.resize n).result with
          | ok u =>
              rw [Reply.andThen_of_ok hr] at h
              cases h
          | error f' =>
              rw [Reply.andThen_of_error hr]
              exact resize_of_error hr
        · rw [if_neg hlt] at h
          cases h

/-- Refused or not, shrinking leaves a sound table with the same entries. -/
theorem Sound.shrink_leaves (h : t.Sound is) : t.shrink.Leaves fun t' => t.Alike t' ∧ t'.Sound is := by
  cases hr : t.shrink.result with
  | ok u => exact h.shrink_meets.of_ok hr
  | error f =>
      rw [Reply.Leaves, shrink_of_error hr]
      exact ⟨.refl t, h⟩

theorem Sound.grow_leaves (h : t.Sound is) (hb : t.buckets ≠ 0) : t.grow.Leaves fun t' => t.Alike t' ∧ t'.Sound is := by
  rw [grow]
  split
  · exact ⟨.refl t, h⟩
  · obtain ⟨k, hk⟩ := h.width hb
    have hdouble : 2 * t.buckets = 2 ^ (k + 1) := by rw [hk, Nat.pow_succ, Nat.mul_comm]
    rcases enlarge_cases t.loadFactor t.size 64 hdouble with ⟨m, hm⟩ | ⟨f, hf, -⟩
    · rw [hm]
      exact (h.resize_leaves m).map _
    · rw [hf]
      exact ⟨.refl t, h⟩

/-! ## Links -/

/-- A link leads to an entry, if it leads anywhere. -/
theorem Chained.link_lt {chains : Nat → List Nat} (h : t.Chained none chains) (hs : t.Sound is) {a : Anchor}
    {j : Nat} (hj : t.link a = some j) : j < t.size := by
  cases a with
  | head b =>
      by_cases hb : b < t.buckets
      · rw [(h.trail b hb).head] at hj
        exact h.lt_size hb (List.mem_of_head? hj)
      · rw [link, Array.getElem?_eq_none (show t.heads.size ≤ b from Nat.not_lt.mp hb)] at hj
        cases hj
  | after i =>
      by_cases hi : i < t.size
      · obtain ⟨hash, key, value, hc⟩ := hs.content_of_mem (hs.mem_iff.mpr hi)
        have hb := hs.bucket_lt hi hash
        obtain ⟨cs, ds, hsplit⟩ := h.split hc hb
        have htrail := h.trail _ hb
        rw [hsplit] at htrail
        rw [htrail.next_eq] at hj
        refine h.lt_size hb (hsplit ▸ List.mem_append_right cs (List.mem_cons_of_mem i ?_))
        exact List.mem_of_head? (by simpa using hj)
      · rw [link, Array.getElem?_eq_none (show t.entries.size ≤ i from Nat.not_lt.mp hi)] at hj
        cases hj

/-- The place that leads to an entry is found, and does lead there. -/
theorem Chained.exists_anchorOf {chains : Nat → List Nat} (h : t.Chained none chains) (hs : t.Sound is) {i : Nat}
    (hi : i < t.size) : ∃ a, t.anchorOf i = .ok a ∧ t.link a = some i := by
  obtain ⟨hash, key, value, hc⟩ := hs.content_of_mem (hs.mem_iff.mpr hi)
  have hb := hs.bucket_lt hi hash
  obtain ⟨cs, ds, hsplit⟩ := h.split hc hb
  have htrail := h.trail _ hb
  rw [hsplit] at htrail
  exact ⟨_, h.anchorOf_eq hc rfl hb hsplit, (Trail.append_cons_iff.mp htrail).1.last⟩

/-! ## Insertion -/

/-- What an insertion can have written, whether it was refused or not: nothing, a value under the same hash, or the
    entry after the last one. -/
inductive Writes (t : Table K V) (hash : UInt32) (key : K) (value : V) (t' : Table K V) : Prop where
  | nothing (content : t'.content = t.content)
  | value {i : Nat} {stored : K} {old : V} (found : t.content i = some (hash, stored, old))
      (content : t'.content = Function.update t.content i (some (hash, stored, value)))
  | entry (content : t'.content = Function.update t.content t.size (some (hash, key, value)))

variable [EquivBEq K]

/-- The table that an insertion leaves is sound even if it could not grow. -/
theorem Sound.insertAllocated_leaves (h : t.Sound is) (hb : t.buckets ≠ 0) (hash : UInt32) (key : K) (value : V) :
    (t.insertAllocated hash key value).Leaves fun t' => t'.Intact ∧ t.Writes hash key value t' := by
  obtain ⟨chains, hch⟩ := h.chained
  rcases hch.insertAllocated_cases hb hash key value with ⟨i, hi, heq⟩ | ⟨hnew, heq⟩
  · obtain ⟨stored, old, hc, -⟩ := holds_iff.mp hi
    obtain ⟨as, bs, rfl⟩ := List.append_of_mem (h.mem_of_content hc)
    obtain ⟨t', ht', -, hsound, hcontent⟩ := h.update_eq hc value
    rw [heq, ht']
    exact ⟨⟨_, hsound⟩, .value hc hcontent⟩
  · rw [heq]
    by_cases hfull : maxBuckets ≤ t.size
    · rw [if_pos hfull]
      exact ⟨⟨is, h⟩, .nothing rfl⟩
    · rw [if_neg hfull]
      obtain ⟨t₁, ht₁, -, hb₁, hsound, hcontent⟩ := h.append_eq hb (Nat.not_le.mp hfull) hnew value
      obtain ⟨halike, hsound'⟩ := hsound.grow_leaves hb₁
      rw [ht₁]
      exact ⟨⟨_, hsound'⟩, .entry (halike.content.trans hcontent)⟩

/-- Refused or not, an insertion leaves an intact table, to which it has written its entry in good order or nothing.
    -/
theorem Sound.insert_leaves (h : t.Sound is) (hash : UInt32) (key : K) (value : V) :
    (t.insert hash key value).Leaves fun t' => t'.Intact ∧ t.Writes hash key value t' := by
  obtain ⟨halike, hleft⟩ := h.allocate_leaves
  rw [insert]
  refine Reply.Leaves.andThen (Q := fun t' => t'.Intact ∧ t.Writes hash key value t')
    ⟨⟨is, hleft⟩, .nothing halike.content⟩ fun u hu _ => ?_
  obtain ⟨-, hsound, hb⟩ := h.allocate_meets.of_ok hu
  obtain ⟨hintact, hwrites⟩ := hsound.insertAllocated_leaves hb hash key value
  refine ⟨hintact, ?_⟩
  -- the first buckets hold the same
  cases hwrites with
  | nothing content => exact .nothing (content.trans halike.content)
  | value found content => exact .value (halike.content ▸ found) (halike.content ▸ content)
  | entry content => exact .entry (by rw [content, halike.content, size_congr halike.content])

theorem Intact.insert_leaves (h : t.Intact) (hash : UInt32) (key : K) (value : V) :
    (t.insert hash key value).Leaves Intact := by
  obtain ⟨is, hs⟩ := h
  exact (hs.insert_leaves hash key value).1

/-! ## Runs -/

omit [BEq K] [EquivBEq K] in
/-- A change that finds no damage is the only one that is made. -/
theorem ofChecked_leaves {α : Type} {outcome : Checked (α × Table K V)} {Q : Table K V → Prop} (h : Q t)
    (hok : ∀ a t', outcome = .ok (a, t') → Q t') : (t.ofChecked outcome).Leaves Q := by
  cases outcome with
  | ok r => exact hok r.1 r.2 rfl
  | error f => exact h

/-- One action. -/
theorem Intact.perform_leaves (h : t.Intact) (action : Action K V) : (t.perform action).Leaves Intact := by
  obtain ⟨is, hs⟩ := id h
  cases action with
  | insert hash key value => exact (h.insert_leaves hash key value).map _
  | find hash key => exact h
  | remove hash key => exact (ofChecked_leaves h fun _ _ ht => h.remove ht).map _
  | removeAt i => exact (ofChecked_leaves h fun _ _ ht => h.removeAt ht).map _
  | touch i => exact (ofChecked_leaves h fun _ _ ht => h.touch ht).map _
  | setValue i value =>
      refine (ofChecked_leaves h fun _ t' ht => ?_).map _
      cases hset : t.setValue i value with
      | ok u =>
          rw [hset] at ht
          obtain rfl : u = t' := (Prod.mk.inj (Except.ok.inj ht)).2
          exact h.setValue hset
      | error f =>
          rw [hset] at ht
          cases ht
  | reserve more => exact ⟨is, (hs.reserve_leaves more).2⟩
  | resize log =>
      rw [perform, Nat.one_shiftLeft]
      exact ⟨is, (hs.resize_leaves log).2⟩
  | shrink => exact ⟨is, hs.shrink_leaves.2⟩
  | clear => exact h.cleared
  | take =>
      refine (ofChecked_leaves h fun _ _ ht => ?_).map _
      obtain ⟨pairs, -, ht⟩ := Checked.bind_eq_ok ht
      exact (Prod.mk.inj (Except.ok.inj ht)).2 ▸ h.cleared

/-- Any number of actions. -/
theorem Intact.performAll_leaves (h : t.Intact) (actions : List (Action K V)) :
    (performAll actions t).Leaves Intact := by
  induction actions generalizing t with
  | nil => exact h
  | cons action actions ih =>
      exact (h.perform_leaves action).andThen fun _ _ h' => (ih h').map _

/-! ## Well-formed tables -/

/-- What is found can be removed at its index. -/
theorem Sound.removeAt_found {hash : UInt32} {key : K} (h : t.Sound is) (hfind : t.find hash key = .ok (some i)) :
    ∃ stored value t', t.content i = some (hash, stored, value) ∧ (stored == key) = true ∧
      t.removeAt i = .ok ((stored, value), t') := by
  obtain ⟨found, hfound, hholds⟩ := h.find_eq hash key
  obtain rfl : found = some i := Except.ok.inj (hfound.symm.trans hfind)
  obtain ⟨stored, value, hc, hkey⟩ := holds_iff.mp ((hholds i).mp rfl)
  obtain ⟨as, bs, rfl⟩ := List.append_of_mem (h.mem_of_content hc)
  obtain ⟨t', ht', -⟩ := h.removeAt_eq hc
  exact ⟨stored, value, t', hc, hkey, ht'⟩

/-- What a table looks like between two actions, said of its buckets, links and indices as they are stored. -/
structure WellFormed (t : Table K V) : Prop where
  small : t.size ≤ maxBuckets
  buckets : (t.buckets = 0 ∧ t.size = 0) ∨ ∃ k ≤ 30, t.buckets = 2 ^ k
  /-- A link leads nowhere or to an entry. -/
  links : ∀ {a j}, t.link a = some j → j < t.size
  /-- The walk from a bucket's head ends, and meets the entries of the bucket once each. -/
  chain : ∀ b < t.buckets, ∃ is, t.chain b = .ok is ∧ is.length ≤ t.size ∧ is.Nodup ∧
    ∀ i, i ∈ is ↔ ∃ e, t.entries[i]? = some e ∧ bucketIndex t.buckets e.hash = b
  /-- The walk to what leads to an entry ends there. -/
  anchor : ∀ i < t.size, ∃ a, t.anchorOf i = .ok a ∧ t.link a = some i
  /-- The walk along all chains ends. -/
  longest : ∃ n, t.longestChain = .ok n ∧ n ≤ t.size
  /-- So do those that look for a key. -/
  finds : ∀ hash key, ∃ r, t.find hash key = .ok r
  removes : ∀ hash key, ∃ r, t.remove hash key = .ok r
  inserts : ∀ hash key value f, (t.insert hash key value).result = .error f → f.IsLimit
  distinct : ∀ {i j : Nat} {e e' : Entry K V}, t.entries[i]? = some e → t.entries[j]? = some e' → e.hash = e'.hash →
    (e.key == e'.key) = true → i = j
  /-- The order lists every index once, and backwards in reverse. -/
  order : ∃ is, t.forward = .ok is ∧ t.backward = .ok is.reverse ∧ is.Perm (List.range t.size)
  /-- An index, and one more than it, is the word that stores it, and neither is among the last two words. -/
  words : ∀ i < t.size, i.toUInt32.toNat = i ∧ (i.toUInt32 + 1).toNat = i + 1 ∧ i + 1 < 0xFFFFFFFE

/-- An intact table is well-formed in every detail. -/
theorem Intact.wellFormed (h : t.Intact) : t.WellFormed := by
  obtain ⟨is, hs⟩ := h
  obtain ⟨chains, hch⟩ := hs.chained
  refine ⟨hs.small, ?_, hch.link_lt hs, ?_, fun i hi => hch.exists_anchorOf hs hi, ?_, ?_, ?_, ?_, ?_,
    ⟨is, hs.order.forward_eq, hs.order.backward_eq, hs.order.perm⟩, ?_⟩
  · by_cases hb : t.buckets = 0
    · exact .inl ⟨hb, hs.unallocated hb⟩
    · exact .inr (hs.exists_two_pow hb)
  · intro b hb
    refine ⟨chains b, hch.chain_eq hb, hch.length_le hb, hch.nodup b hb, fun i => ?_⟩
    rw [hch.mem_iff b hb]
    constructor
    · rintro ⟨-, hash, ⟨key, value⟩, hc, hbucket⟩
      obtain ⟨e, -, he, rfl, -⟩ := entry_eq hc
      exact ⟨e, he, hbucket⟩
    · rintro ⟨e, he, hbucket⟩
      exact ⟨nofun, e.hash, (e.key, e.value), by rw [content, he]; rfl, hbucket⟩
  · exact ⟨_, hch.longestChain_eq, longest_le_iff.mpr fun b hb => hch.length_le hb⟩
  · intro hash key
    obtain ⟨r, hr, -⟩ := hs.find_eq hash key
    exact ⟨r, hr⟩
  · intro hash key
    obtain ⟨r, hr, -⟩ := hs.find_eq hash key
    rw [hs.remove_eq, hr, Checked.ok_bind]
    cases r with
    | none => exact ⟨_, rfl⟩
    | some i =>
        obtain ⟨stored, value, t', -, -, ht'⟩ := hs.removeAt_found hr
        dsimp only
        exact ⟨_, by rw [ht']; rfl⟩
  · intro hash key value f hf
    exact (hs.insert_meets hash key value).of_error hf
  · intro i j e e' hi hj hhash hkey
    have hci : t.content i = some (e.hash, e.key, e.value) := by rw [content, hi]; rfl
    have hcj : t.content j = some (e.hash, e'.key, e'.value) := by rw [content, hj, hhash]; rfl
    exact hs.distinct hci hcj hkey
  -- an index is below `2 ^ 30`
  · intro i hi
    have hsmall : i < 2 ^ 30 := Nat.lt_of_lt_of_le hi hs.small
    have hword : i.toUInt32.toNat = i := by
      rw [Nat.toUInt32_eq, UInt32.toNat_ofNat']
      omega
    refine ⟨hword, ?_, by omega⟩
    rw [UInt32.toNat_add, hword]
    show (i + 1) % 2 ^ 32 = i + 1
    omega

/-- Whatever is done to a table that starts empty, in whichever order it is traversed, it stays well formed. -/
theorem run_wellFormed {order : Order} (h : order.Fresh) (loadFactor : Binary64) (expected : Nat)
    (actions : List (Action K V)) : (performAll actions (empty order loadFactor expected)).state.WellFormed :=
  Intact.wellFormed (Intact.performAll_leaves ⟨[], sound_empty h.lists loadFactor expected⟩ actions)

/-- One key under two hashes, a third entry on their chain, a use, and a removal that moves the last entry. -/
theorem run_wellFormed_colliding :
    ∃ t : Table Nat Nat,
      t = (performAll [.insert 5 1 10, .insert 1 2 20, .insert 9 1 30, .touch 0, .removeAt 1]
        (empty (.ofMode true) .threeQuarters 0)).state ∧
      t.WellFormed ∧ t.chain 1 = .ok [1, 0] ∧ t.forward = .ok [1, 0] ∧ t.find 9 1 = .ok (some 1) :=
  ⟨_, rfl, run_wellFormed (.linked true) .threeQuarters 0 _, rfl, rfl, rfl⟩

/-! ## Two ways to remove -/

omit [EquivBEq K] in
/-- A table that actions have made of an empty one. -/
def Reachable (t : Table K V) : Prop :=
  ∃ (order : Order) (loadFactor : Binary64) (expected : Nat) (actions : List (Action K V)),
    order.Fresh ∧ (performAll actions (empty order loadFactor expected)).state = t

/-- What actions lead to is intact. -/
theorem Reachable.intact (h : t.Reachable) : t.Intact := by
  obtain ⟨order, loadFactor, expected, actions, hfresh, rfl⟩ := h
  exact Intact.performAll_leaves ⟨[], sound_empty hfresh.lists loadFactor expected⟩ actions

/-- A removal by key walks the chain once and cuts the entry out on its way. It is the removal at the index where the
    key is found, which walks the chain for the link to that index: the same table is left, with the same links. -/
theorem remove_eq_removeAt_found (h : t.Reachable) (hash : UInt32) (key : K) :
    (∃ found, t.find hash key = .ok found) ∧
      (∀ t', t.remove hash key = .ok (none, t') ↔ t.find hash key = .ok none ∧ t' = t) ∧
      ∀ i, t.find hash key = .ok (some i) →
        ∃ stored value t', t.content i = some (hash, stored, value) ∧ (stored == key) = true ∧
          t.removeAt i = .ok ((stored, value), t') ∧ t.remove hash key = .ok (some (stored, value), t') := by
  obtain ⟨is, hs⟩ := h.intact
  obtain ⟨found, hfound, -⟩ := hs.find_eq hash key
  have hremove := hs.remove_eq hash key
  refine ⟨⟨found, hfound⟩, ?_, ?_⟩
  · intro t'
    rw [hremove, hfound, Checked.ok_bind]
    cases found with
    | none => simp [eq_comm]
    | some i =>
        obtain ⟨stored, value, t₁, -, -, ht₁⟩ := hs.removeAt_found hfound
        simp [ht₁, Checked.ok_bind]
  · intro i hi
    obtain ⟨stored, value, t', hc, hkey, ht'⟩ := hs.removeAt_found hi
    refine ⟨stored, value, t', hc, hkey, ht', ?_⟩
    rw [hremove, hi, Checked.ok_bind]
    dsimp only
    rw [ht']
    rfl

/-- Three entries on a chain: the one in the middle is removed, and a key that is not there is not. -/
theorem remove_eq_removeAt_found_middle :
    ∃ t : Table Nat Nat,
      t = (performAll [.insert 1 1 10, .insert 5 2 20, .insert 9 3 30]
        (empty (.ofMode true) .threeQuarters 0)).state ∧ t.Reachable ∧
      t.chain 1 = .ok [2, 1, 0] ∧ t.find 5 2 = .ok (some 1) ∧
      (∃ t', t.removeAt 1 = .ok ((2, 20), t') ∧ t.remove 5 2 = .ok (some (2, 20), t')) ∧
      t.find 5 4 = .ok none ∧ t.remove 5 4 = .ok (none, t) := by
  have hreach : (performAll [.insert 1 1 10, .insert 5 2 20, .insert 9 3 30]
      (empty (.ofMode true) .threeQuarters 0) : Reply (Table Nat Nat) (List (Report Nat Nat))).state.Reachable :=
    ⟨_, _, _, _, .linked true, rfl⟩
  obtain ⟨-, -, hfound⟩ := remove_eq_removeAt_found hreach 5 2
  obtain ⟨-, hmissing, -⟩ := remove_eq_removeAt_found hreach 5 4
  obtain ⟨stored, value, t', hc, -, hat, hremove⟩ := hfound 1 rfl
  have hstored : (some (5, 2, 20) : Option (UInt32 × Nat × Nat)) = some (5, stored, value) := hc
  obtain ⟨rfl, rfl⟩ := Prod.mk.inj (Prod.mk.inj (Option.some.inj hstored)).2
  exact ⟨_, rfl, hreach, rfl, rfl, ⟨t', hat, hremove⟩, rfl, (hmissing _).mpr ⟨rfl, rfl⟩⟩

end Table

end DenseHash
