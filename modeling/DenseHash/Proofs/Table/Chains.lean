import Mathlib.Data.List.Perm.Subperm
import Mathlib.Logic.Function.Basic
import DenseHash.Limits
import DenseHash.Proofs.Outcome
import DenseHash.Proofs.Trail
import DenseHash.Table.Growth
import DenseHash.Table.Removal
import DenseHash.Table.Traversal

/-!
# Chains are trails

The chain of a bucket is a trail whose places are anchors: the head of the bucket, then the entries.
`Table.Chained t off chains` says that the chain of bucket `b` is `chains b`, and that each entry is on the chain
of its own bucket and on no other, except that the entry at `off`, if there is one, is on none: a removal takes
an entry off its chain first and out of the array afterwards.

What an entry holds besides its link is its *content*. Links come and go, contents stay.
-/

namespace DenseHash

variable {K V : Type}

/-- The bucket of a hash is one of the buckets. -/
theorem bucketIndex_lt {buckets : Nat} (h : buckets ≠ 0) (hash : UInt32) :
    bucketIndex buckets hash < buckets := by
  have hle : bucketIndex buckets hash ≤ buckets - 1 := Nat.and_le_right
  omega

namespace Anchor

/-- The place that leads to the first accepted index of a chain. -/
theorem locate_append_cons {found : Nat → Bool} {is js : List Nat} {i : Nat} (a : Anchor)
    (hnot : ∀ k ∈ is, found k = false) (hi : found i = true) :
    locate found a (is ++ i :: js) = some (tip .after a is, i) := by
  induction is generalizing a with
  | nil => exact if_pos hi
  | cons k is ih =>
      have hk : found k = false := hnot k List.mem_cons_self
      show (if found k = true then some (a, k) else locate found (.after k) (is ++ i :: js)) = _
      rw [hk, if_neg Bool.false_ne_true]
      exact ih (.after k) fun m hm => hnot m (List.mem_cons_of_mem k hm)

theorem locate_eq_none {found : Nat → Bool} {is : List Nat} (a : Anchor)
    (hnot : ∀ k ∈ is, found k = false) : locate found a is = none := by
  induction is generalizing a with
  | nil => rfl
  | cons k is ih =>
      have hk : found k = false := hnot k List.mem_cons_self
      show (if found k = true then some (a, k) else locate found (.after k) is) = _
      rw [hk, if_neg Bool.false_ne_true]
      exact ih (.after k) fun m hm => hnot m (List.mem_cons_of_mem k hm)

end Anchor

namespace Table

variable {t : Table K V}

/-! ## Links and contents -/

/-- Where the link at an anchor leads. -/
def link (t : Table K V) : Anchor → Option Nat
  | .head bucket => t.heads[bucket]?.bind fun h => h.toLink.index?
  | .after i => t.entries[i]?.bind fun e => e.next.index?

/-- What the entry at an index holds besides its link. -/
def content (t : Table K V) (i : Nat) : Option (UInt32 × K × V) :=
  t.entries[i]?.map fun e => (e.hash, e.key, e.value)

/-- The indices below the size are those with a content. -/
theorem content_isSome_iff {i : Nat} : (t.content i).isSome ↔ i < t.size := by
  simp [content, size]

theorem lt_size_of_content {i : Nat} {c : UInt32 × K × V} (h : t.content i = some c) : i < t.size :=
  content_isSome_iff.mp (by rw [h]; rfl)

/-- Beyond the last entry there is nothing. -/
theorem content_eq_none {i : Nat} (h : t.size ≤ i) : t.content i = none := by
  rw [content, Array.getElem?_eq_none h]
  rfl

/-- What an entry that was read says. -/
theorem content_of_entry {i : Nat} {e : Entry K V} (h : t.entry i = .ok e) :
    t.content i = some (e.hash, e.key, e.value) := by
  rw [entry] at h
  cases he : t.entries[i]? with
  | none =>
      rw [he] at h
      exact nomatch h
  | some e' =>
      rw [he] at h
      obtain rfl : e' = e := Except.ok.inj h
      rw [content, he]
      rfl

/-- The entry behind a content. -/
theorem entry_eq {i : Nat} {hash : UInt32} {key : K} {value : V}
    (h : t.content i = some (hash, key, value)) :
    ∃ e, t.entry i = .ok e ∧ t.entries[i]? = some e ∧ e.hash = hash ∧ e.key = key ∧ e.value = value ∧
      e.next.index? = t.link (.after i) := by
  obtain ⟨e, he, hc⟩ := Option.map_eq_some_iff.mp h
  injection hc with h1 h2
  injection h2 with h2 h3
  refine ⟨e, ?_, he, h1, h2, h3, ?_⟩
  · rw [entry, he]
  · rw [link, he]
    rfl

/-- An index holds a key under a hash if it has the hash and an equal key. -/
theorem holds_iff [BEq K] {hash : UInt32} {key : K} {i : Nat} :
    t.holds hash key i = true ↔ ∃ stored value, t.content i = some (hash, stored, value) ∧
      (stored == key) = true := by
  rw [holds, content]
  cases he : t.entries[i]? with
  | none => simp
  | some e =>
      simp only [Bool.and_eq_true, beq_iff_eq, Option.map_some, Option.some.injEq, Prod.mk.injEq]
      constructor
      · rintro ⟨hh, hk⟩
        exact ⟨e.key, e.value, ⟨hh, rfl, rfl⟩, hk⟩
      · rintro ⟨stored, value, ⟨hh, rfl, -⟩, hk⟩
        exact ⟨hh, hk⟩

theorem holds_congr [BEq K] {t' : Table K V} (h : t'.content = t.content) (hash : UInt32) (key : K) (i : Nat) :
    t'.holds hash key i = t.holds hash key i := by
  rw [Bool.eq_iff_iff, holds_iff, holds_iff, h]

theorem redirect_size (a : Anchor) (l : ChainLink) : (t.redirect a l).size = t.size := by
  cases a with
  | head b => rfl
  | after i => exact Array.size_modify

theorem redirect_buckets (a : Anchor) (l : ChainLink) : (t.redirect a l).buckets = t.buckets := by
  cases a with
  | head b => exact Array.size_setIfInBounds
  | after i => rfl

theorem redirect_order (a : Anchor) (l : ChainLink) : (t.redirect a l).order = t.order := by
  cases a <;> rfl

/-- Redirecting a link changes no entry. -/
theorem redirect_content (a : Anchor) (l : ChainLink) : (t.redirect a l).content = t.content := by
  cases a with
  | head b => rfl
  | after i =>
      funext k
      show ((t.entries.modify i fun e => { e with next := l })[k]?).map _ = (t.entries[k]?).map _
      rw [Array.getElem?_modify]
      by_cases hik : i = k
      · rw [if_pos hik]
        cases t.entries[k]? <;> rfl
      · rw [if_neg hik]

/-- An anchor that a table has. -/
def HasAnchor (t : Table K V) : Anchor → Prop
  | .head bucket => bucket < t.buckets
  | .after i => i < t.size

/-- It changes what one place leads to. -/
theorem redirect_link {a : Anchor} (ha : t.HasAnchor a) (l : ChainLink) :
    (t.redirect a l).link = Function.update t.link a l.index? := by
  funext c
  cases a with
  | head b =>
      cases c with
      | after k => rw [Function.update_of_ne (by simp)]; rfl
      | head k =>
          show ((t.heads.setIfInBounds b (.ofLink l))[k]?).bind _ = _
          rw [Array.getElem?_setIfInBounds]
          by_cases hbk : b = k
          · rw [if_pos hbk, if_pos (show b < t.heads.size from ha), ← hbk, Function.update_self]
            show (Head.ofLink l).toLink.index? = _
            rw [Head.toLink_ofLink]
          · rw [if_neg hbk, Function.update_of_ne fun heq => hbk (Anchor.head.inj heq).symm]
            rfl
  | after i =>
      cases c with
      | head k => rw [Function.update_of_ne (by simp)]; rfl
      | after k =>
          show ((t.entries.modify i fun e => { e with next := l })[k]?).bind _ = _
          rw [Array.getElem?_modify]
          by_cases hik : i = k
          · rw [if_pos hik, ← hik, Function.update_self, Array.getElem?_eq_getElem ha]
            rfl
          · rw [if_neg hik, Function.update_of_ne fun heq => hik (Anchor.after.inj heq).symm]
            rfl

theorem bucketOf_eq (h : t.buckets ≠ 0) (hash : UInt32) :
    t.bucketOf hash = .ok (bucketIndex t.buckets hash) := by
  rw [bucketOf, if_neg h]

/-- The head of a bucket that is there can be read. -/
theorem headOf_eq {b : Nat} (h : b < t.buckets) :
    ∃ l, t.headOf b = .ok l ∧ l.index? = t.link (.head b) := by
  have hget : t.heads[b]? = some t.heads[b] := Array.getElem?_eq_getElem h
  refine ⟨t.heads[b].toLink, ?_, ?_⟩
  · rw [headOf, hget]
  · rw [link, hget]
    rfl

/-- The table after the last entry has taken the index `i`. -/
def pack (t : Table K V) (i : Nat) : Table K V := { t with entries := removePacked t.entries i }

theorem pack_getElem? {i : Nat} (hi : i < t.size) (k : Nat) :
    (t.pack i).entries[k]? =
      if k < t.size - 1 then t.entries[if k = i then t.size - 1 else k]? else none := by
  show (removePacked t.entries i)[k]? = _
  rw [getElem?_removePacked _ _ _ hi]
  show (if k < t.size - 1 then _ else none) = _
  by_cases hk : k < t.size - 1
  · rw [if_pos hk, if_pos hk]
    split <;> rfl
  · rw [if_neg hk, if_neg hk]

theorem pack_size {i : Nat} (hi : i < t.size) : (t.pack i).size = t.size - 1 :=
  size_removePacked _ _ hi

/-- After packing, the last entry has the index that became free, and the others have theirs. -/
theorem pack_content {i : Nat} (hi : i < t.size) (k : Nat) :
    (t.pack i).content k =
      if k < t.size - 1 then t.content (if k = i then t.size - 1 else k) else none := by
  rw [content, pack_getElem? hi]
  by_cases hk : k < t.size - 1
  · rw [if_pos hk, if_pos hk]
    rfl
  · rw [if_neg hk, if_neg hk]
    rfl

/-- What a table holds after the last entry has taken the index `i`: that entry there, the others where they
    were. -/
theorem pack_content_iff {i : Nat} {hash : UInt32} {pair : K × V} (hi : i < t.size - 1)
    (hc : t.content (t.size - 1) = some (hash, pair)) (P : UInt32 → Prop) (k : Nat) :
    (∃ hash' pair', (t.pack i).content k = some (hash', pair') ∧ P hash') ↔
      (k = i ∧ P hash) ∨ (k ≠ i ∧ k ≠ t.size - 1 ∧ ∃ hash' pair', t.content k = some (hash', pair') ∧ P hash') := by
  rw [pack_content (by omega)]
  by_cases hki : k = i
  · rw [if_pos (by omega), if_pos hki, hc]
    constructor
    · rintro ⟨hash', pair', heq, hP⟩
      cases heq
      exact .inl ⟨hki, hP⟩
    · rintro (⟨-, hP⟩ | ⟨hne, -⟩)
      · exact ⟨hash, pair, rfl, hP⟩
      · exact absurd hki hne
  · rw [if_neg hki]
    by_cases hkl : k < t.size - 1
    · rw [if_pos hkl]
      exact ⟨fun hk => .inr ⟨hki, by omega, hk⟩, fun hk => hk.elim (fun hk => absurd hk.1 hki) (·.2.2)⟩
    · rw [if_neg hkl]
      constructor
      · rintro ⟨_, _, heq, -⟩
        exact absurd heq.symm (Option.some_ne_none _)
      · rintro (⟨hk, -⟩ | ⟨-, hne, hash', pair', hck, -⟩)
        · exact absurd hk hki
        · have := lt_size_of_content hck
          omega

/-- An entry that was moved brings its link. -/
theorem pack_link_after {i k : Nat} (hi : i < t.size) (hk : k < t.size - 1) :
    (t.pack i).link (.after k) = t.link (.after (if k = i then t.size - 1 else k)) := by
  show ((t.pack i).entries[k]?).bind _ = _
  rw [pack_getElem? hi, if_pos hk]
  rfl

/-! ## Chains -/

/-- The chain of each bucket, with the one entry that may be on none. -/
structure Chained (t : Table K V) (off : Option Nat) (chains : Nat → List Nat) : Prop where
  trail : ∀ b < t.buckets, Trail Anchor.after t.link (.head b) (chains b) none
  nodup : ∀ b < t.buckets, (chains b).Nodup
  mem_iff : ∀ b < t.buckets, ∀ i, i ∈ chains b ↔
    some i ≠ off ∧ ∃ hash pair, t.content i = some (hash, pair) ∧ bucketIndex t.buckets hash = b

/-- A table without entries whose heads are all empty. -/
theorem chained_nil (hsize : t.size = 0) (hheads : ∀ b, t.link (.head b) = none) :
    t.Chained none fun _ => [] where
  trail := fun b _ => hheads b
  nodup := fun _ _ => List.nodup_nil
  mem_iff := fun b _ i => by
    have hnone : t.content i = none := content_eq_none (by omega)
    simp [hnone]

theorem link_head_replicate {n : Nat} {b : Nat}
    (h : t.heads = Array.replicate n .empty) : t.link (.head b) = none := by
  rw [link, h, Array.getElem?_replicate]
  split <;> rfl

namespace Chained

variable {off : Option Nat} {chains : Nat → List Nat} {b i : Nat}

/-- Chains depend on links, hashes and the number of buckets. -/
theorem congr {t' : Table K V} (h : t.Chained off chains) (hb : t'.buckets = t.buckets)
    (hlink : t'.link = t.link)
    (hcontent : ∀ i, (t'.content i).map Prod.fst = (t.content i).map Prod.fst) :
    t'.Chained off chains := by
  refine ⟨fun b hb' => hlink ▸ h.trail b (hb ▸ hb'), fun b hb' => h.nodup b (hb ▸ hb'),
    fun b hb' i => ?_⟩
  rw [h.mem_iff b (hb ▸ hb'), hb]
  have hex : ∀ c : Option (UInt32 × K × V), (∃ hash pair, c = some (hash, pair) ∧
      bucketIndex t.buckets hash = b) ↔ ∃ hash, c.map Prod.fst = some hash ∧
      bucketIndex t.buckets hash = b := by
    intro c
    cases c with
    | none => simp
    | some c =>
        obtain ⟨hash, pair⟩ := c
        simp
  rw [hex, hex, hcontent]

/-- The places along a chain are distinct. -/
theorem nodup_places (h : t.Chained off chains) (hb : b < t.buckets) :
    (Anchor.head b :: (chains b).map .after).Nodup := by
  refine List.nodup_cons.mpr ⟨by simp, (h.nodup b hb).map fun _ _ hab => Anchor.after.inj hab⟩

/-- Chains lead to entries. -/
theorem lt_size (h : t.Chained off chains) (hb : b < t.buckets) (hi : i ∈ chains b) : i < t.size := by
  obtain ⟨-, hash, pair, hc, -⟩ := (h.mem_iff b hb i).mp hi
  exact lt_size_of_content hc

/-- No entry is on two chains. -/
theorem bucket_unique (h : t.Chained off chains) {b' : Nat} (hb : b < t.buckets)
    (hb' : b' < t.buckets) (hi : i ∈ chains b) (hi' : i ∈ chains b') : b = b' := by
  obtain ⟨-, hash, pair, hc, rfl⟩ := (h.mem_iff b hb i).mp hi
  obtain ⟨-, hash', pair', hc', rfl⟩ := (h.mem_iff b' hb' i).mp hi'
  rw [hc] at hc'
  injection hc' with hc'
  injection hc' with hc' _
  rw [hc']

/-- The places on the chains of two buckets differ. -/
theorem place_ne (h : t.Chained off chains) {b' : Nat} (hb : b < t.buckets) (hb' : b' < t.buckets)
    (hne : b' ≠ b) {a : Anchor} (ha : a ∈ Anchor.head b :: (chains b).map .after) :
    a ∉ Anchor.head b' :: (chains b').map .after := by
  intro ha'
  rcases List.mem_cons.mp ha with rfl | ha
  · rcases List.mem_cons.mp ha' with heq | ha'
    · exact hne (Anchor.head.inj heq).symm
    · obtain ⟨k, -, hk⟩ := List.mem_map.mp ha'
      exact nomatch hk
  · obtain ⟨k, hk, rfl⟩ := List.mem_map.mp ha
    rcases List.mem_cons.mp ha' with heq | ha'
    · exact nomatch heq
    · obtain ⟨m, hm, heq⟩ := List.mem_map.mp ha'
      rw [Anchor.after.inj heq] at hm
      exact hne (h.bucket_unique hb' hb hm hk)

/-- The places along a chain are there. -/
theorem hasAnchor (h : t.Chained off chains) (hb : b < t.buckets) {a : Anchor}
    (ha : a ∈ Anchor.head b :: (chains b).map .after) : t.HasAnchor a := by
  rcases List.mem_cons.mp ha with rfl | ha
  · exact hb
  · obtain ⟨k, hk, rfl⟩ := List.mem_map.mp ha
    exact h.lt_size hb hk

/-- A chain is no longer than the table. -/
theorem length_le (h : t.Chained off chains) (hb : b < t.buckets) : (chains b).length ≤ t.size := by
  have hsub : chains b ⊆ List.range t.size := fun i hi => List.mem_range.mpr (h.lt_size hb hi)
  have := ((h.nodup b hb).subperm hsub).length_le
  rwa [List.length_range] at this

/-- Following links lists a chain. -/
theorem follow_eq (h : t.Chained off chains) (hb : b < t.buckets) {l : ChainLink}
    (hl : l.index? = t.link (.head b)) : t.follow l = .ok (chains b) := by
  rw [follow, hl, (h.trail b hb).head]
  refine walk_eq (fun is i js heq => ?_) (h.length_le hb)
  have hi : i ∈ chains b := heq ▸ List.mem_append_right is List.mem_cons_self
  obtain ⟨-, hash, ⟨key, value⟩, hc, -⟩ := (h.mem_iff b hb i).mp hi
  obtain ⟨e, he, -, -, -, -, hnext⟩ := entry_eq hc
  rw [successor, he, Checked.ok_bind, hnext]
  have htrail := heq ▸ h.trail b hb
  rw [htrail.next_eq]
  rfl

/-- Following the links from a bucket gives its chain. -/
theorem chain_eq (h : t.Chained off chains) (hb : b < t.buckets) : t.chain b = .ok (chains b) := by
  obtain ⟨l, hl, hlink⟩ := headOf_eq hb
  rw [chain, hl, Checked.ok_bind, h.follow_eq hb hlink]

/-- The place that leads to an entry. -/
theorem anchorOf_eq (h : t.Chained off chains) {is js : List Nat} {hash : UInt32} {pair : K × V}
    (hc : t.content i = some (hash, pair)) (hb : bucketIndex t.buckets hash = b)
    (hlt : b < t.buckets) (hsplit : chains b = is ++ i :: js) :
    t.anchorOf i = .ok (tip .after (.head b) is) := by
  obtain ⟨e, he, -, hhash, -⟩ := entry_eq hc
  have hne : t.buckets ≠ 0 := by omega
  have hnot : ∀ k ∈ is, (k == i) = false := by
    intro k hk
    have hd := hsplit ▸ h.nodup b hlt
    have hki : k ≠ i := fun heq =>
      (List.nodup_middle.mp hd).notMem (List.mem_append_left _ (heq ▸ hk))
    simpa using hki
  rw [anchorOf, he, Checked.ok_bind, hhash, bucketOf_eq hne, Checked.ok_bind, hb, h.chain_eq hlt,
    Checked.ok_bind, hsplit, Anchor.locate_append_cons _ hnot (beq_self_eq_true i)]
  rfl

/-! ## What happens to chains -/

/-- One chain is replaced, and no place of another chain changes. -/
theorem replace {t' : Table K V} {off' : Option Nat} {is : List Nat} (h : t.Chained off chains)
    (hbuckets : t'.buckets = t.buckets)
    (htrail : Trail Anchor.after t'.link (.head b) is none) (hnodup : is.Nodup)
    (hmem : ∀ k, k ∈ is ↔
      some k ≠ off' ∧ ∃ hash pair, t'.content k = some (hash, pair) ∧ bucketIndex t.buckets hash = b)
    (hlink : ∀ b' < t.buckets, b' ≠ b → ∀ a ∈ Anchor.head b' :: (chains b').map .after,
      t'.link a = t.link a)
    (hmem' : ∀ b' < t.buckets, b' ≠ b → ∀ k, k ∈ chains b' ↔
      some k ≠ off' ∧ ∃ hash pair, t'.content k = some (hash, pair) ∧ bucketIndex t.buckets hash = b') :
    t'.Chained off' (Function.update chains b is) := by
  refine ⟨fun b' hb' => ?_, fun b' hb' => ?_, fun b' hb' k => ?_⟩
  all_goals
    rw [hbuckets] at hb'
    by_cases hbb : b' = b
  · rw [hbb, Function.update_self]
    exact htrail
  · rw [Function.update_of_ne hbb]
    exact (h.trail b' hb').congr (hlink b' hb' hbb)
  · rw [hbb, Function.update_self]
    exact hnodup
  · rw [Function.update_of_ne hbb]
    exact h.nodup b' hb'
  · rw [hbb, Function.update_self, hbuckets]
    exact hmem k
  · rw [Function.update_of_ne hbb, hbuckets]
    exact hmem' b' hb' hbb k

/-- The place that leads to an entry is on its chain. -/
theorem tip_mem_places {is js : List Nat} (hsplit : chains b = is ++ js) :
    tip Anchor.after (.head b) is ∈ Anchor.head b :: (chains b).map Anchor.after := by
  rw [hsplit, List.map_append, ← List.cons_append]
  exact List.mem_append_left _ (tip_mem _ is)

/-- An entry is taken off its chain: what led to it leads behind it. -/
theorem unchain (h : t.Chained none chains) {is js : List Nat} (hb : b < t.buckets)
    (hsplit : chains b = is ++ i :: js) {l : ChainLink} (hl : l.index? = t.link (.after i)) :
    (t.redirect (tip .after (.head b) is) l).Chained (some i) (Function.update chains b (is ++ js)) := by
  have htip := tip_mem_places hsplit
  have hlink := redirect_link (h.hasAnchor hb htip) l
  have hd : (is ++ i :: js).Nodup := hsplit ▸ h.nodup b hb
  have hnot : i ∉ is ++ js := (List.nodup_middle.mp hd).notMem
  have hmem : i ∈ chains b := hsplit ▸ List.mem_append_right is List.mem_cons_self
  refine h.replace (redirect_buckets _ _) ?_ (hd.sublist (by simp)) (fun k => ?_)
    (fun b' hb' hbb a ha => ?_) fun b' hb' hbb k => ?_
  -- the link that led to `i` now leads behind it
  · refine (hsplit ▸ h.trail b hb).skip (hsplit ▸ h.nodup_places hb) ?_ fun a _ ha => ?_
    · rw [hlink, Function.update_self, hl]
    · rw [hlink, Function.update_of_ne ha]
  · have hall := h.mem_iff b hb k
    rw [hsplit] at hall
    rw [redirect_content]
    have hcons : k ∈ is ++ i :: js ↔ k = i ∨ k ∈ is ++ js := by simp [or_left_comm]
    constructor
    · intro hk
      refine ⟨fun heq => hnot (Option.some.inj heq ▸ hk), (hall.mp (hcons.mpr (.inr hk))).2⟩
    · rintro ⟨hne, hk⟩
      rcases hcons.mp (hall.mpr ⟨nofun, hk⟩) with rfl | hk
      · exact absurd rfl hne
      · exact hk
  · rw [hlink, Function.update_of_ne]
    exact fun heq => h.place_ne hb hb' hbb htip (heq ▸ ha)
  · rw [redirect_content, h.mem_iff b' hb' k]
    refine ⟨fun hk => ⟨fun heq => ?_, hk.2⟩, fun hk => ⟨nofun, hk.2⟩⟩
    -- `i` was on one chain only, so no other chain loses an entry
    have hmem' : i ∈ chains b' := Option.some.inj heq ▸ (h.mem_iff b' hb' k).mpr hk
    exact hbb (h.bucket_unique hb' hb hmem' hmem)

/-- The entry that is on no chain was the last one, and is given up. -/
theorem drop (h : t.Chained (some i) chains) (hi : i < t.size) (hlast : i = t.size - 1) :
    (t.pack i).Chained none chains := by
  have hcontent : ∀ k, k ≠ i → (t.pack i).content k = t.content k := by
    intro k hk
    rw [pack_content hi, if_neg hk]
    by_cases hkl : k < t.size - 1
    · rw [if_pos hkl]
    · rw [if_neg hkl, content_eq_none (by omega)]
  have hnone : (t.pack i).content i = none := by
    rw [pack_content hi, if_neg (by omega)]
  refine ⟨fun b hb => (h.trail b hb).congr fun a ha => ?_, h.nodup, fun b hb k => ?_⟩
  · rcases List.mem_cons.mp ha with rfl | ha
    · rfl
    · obtain ⟨k, hk, rfl⟩ := List.mem_map.mp ha
      have hki : k ≠ i := fun heq => ((h.mem_iff b hb k).mp hk).1 (congrArg some heq)
      have := h.lt_size hb hk
      rw [pack_link_after hi (by omega), if_neg hki]
  · show _ ↔ _ ∧ ∃ hash pair, _ ∧ bucketIndex t.buckets hash = b
    rw [h.mem_iff b hb]
    by_cases hki : k = i
    · rw [hki, hnone]
      simp
    · rw [hcontent k hki]
      simp [hki]

section Fill

variable {is js : List Nat} {hash : UInt32} {pair : K × V} {l : ChainLink}

/-- The entry that is off the chains is on none of them. -/
theorem off_notMem (h : t.Chained (some i) chains) (hb : b < t.buckets) : i ∉ chains b :=
  fun hi => ((h.mem_iff b hb i).mp hi).1 rfl

/-- When the last entry moves, the places of all others keep their links. -/
theorem pack_link (h : t.Chained (some i) chains) (hi : i < t.size - 1) (hb : b < t.buckets) {a : Anchor}
    (ha : a ∈ Anchor.head b :: (chains b).map .after) (hlast : a ≠ .after (t.size - 1)) (c : Anchor) (l : ChainLink) :
    ((t.redirect c l).pack i).link a = (t.redirect c l).link a := by
  rcases List.mem_cons.mp ha with rfl | ha
  · rfl
  · obtain ⟨k, hk, rfl⟩ := List.mem_map.mp ha
    have hlt := h.lt_size hb hk
    have hkl : k ≠ t.size - 1 := fun heq => hlast (congrArg Anchor.after heq)
    have hki : k ≠ i := fun heq => h.off_notMem hb (heq ▸ hk)
    have hsize : (t.redirect c l).size = t.size := redirect_size c l
    rw [pack_link_after (by omega) (by omega), if_neg hki]

/-- On its own chain, the last entry is replaced by the index that it has moved to. -/
theorem fill_trail (h : t.Chained (some i) chains) (hi : i < t.size - 1) (hb : b < t.buckets)
    (hsplit : chains b = is ++ (t.size - 1) :: js) (hl : l.index? = some i) :
    Trail Anchor.after ((t.redirect (tip .after (.head b) is) l).pack i).link (.head b) (is ++ i :: js) none := by
  have hlink := redirect_link (h.hasAnchor hb (tip_mem_places hsplit)) l
  have hplaces := h.nodup_places hb
  have hdist : (Anchor.head b :: (is ++ (t.size - 1) :: js).map .after).Nodup := hsplit ▸ hplaces
  rw [List.map_append, List.map_cons, ← List.cons_append] at hdist
  have hnot := (List.nodup_middle.mp hdist).notMem
  have htip : tip Anchor.after (.head b) is ∈ Anchor.head b :: is.map Anchor.after := tip_mem _ is
  have htipl : tip Anchor.after (.head b) is ≠ .after (t.size - 1) :=
    fun heq => hnot (List.mem_append_left _ (heq ▸ htip))
  have hkeep : ∀ a ∈ Anchor.head b :: (is ++ js).map .after,
      ((t.redirect (tip .after (.head b) is) l).pack i).link a = (t.redirect (tip .after (.head b) is) l).link a := by
    intro a ha
    rw [List.map_append, ← List.cons_append] at ha
    refine h.pack_link hi hb ?_ (fun heq => hnot (heq ▸ ha)) _ _
    rw [hsplit, List.map_append, List.map_cons, ← List.cons_append]
    exact List.mem_append.mpr ((List.mem_append.mp ha).imp_right (List.mem_cons_of_mem _))
  have hmoved : ((t.redirect (tip .after (.head b) is) l).pack i).link (.after i) =
      (t.redirect (tip .after (.head b) is) l).link (.after (t.size - 1)) := by
    have hsize : (t.redirect (tip .after (.head b) is) l).size = t.size := redirect_size _ l
    rw [pack_link_after (by omega) (by omega), if_pos rfl, hsize]
  refine (hsplit ▸ h.trail b hb).rename (hsplit ▸ hplaces) ?_ ?_ fun a ha hat => ?_
  · rw [hkeep _ (by rw [List.map_append]; exact List.mem_append_left _ htip), hlink, Function.update_self, hl]
  · rw [hmoved, hlink, Function.update_of_ne (Ne.symm htipl)]
  · rw [hkeep a ha, hlink, Function.update_of_ne hat]

/-- The last entry takes the index of the one that is on no chain, and what led to it leads there. -/
theorem fill (h : t.Chained (some i) chains) (hi : i < t.size - 1)
    (hc : t.content (t.size - 1) = some (hash, pair)) (hbucket : bucketIndex t.buckets hash = b)
    (hb : b < t.buckets) (hsplit : chains b = is ++ (t.size - 1) :: js) (hl : l.index? = some i) :
    ((t.redirect (tip .after (.head b) is) l).pack i).Chained none
      (Function.update chains b (is ++ i :: js)) := by
  let u := t.redirect (tip .after (.head b) is) l
  have hsize : u.size = t.size := redirect_size _ _
  have hcontent : u.content = t.content := redirect_content _ _
  have htip := tip_mem_places hsplit
  have hlink := redirect_link (h.hasAnchor hb htip) l
  have hd : (is ++ (t.size - 1) :: js).Nodup := hsplit ▸ h.nodup b hb
  have hlast : t.size - 1 ∈ chains b := hsplit ▸ List.mem_append_right is List.mem_cons_self
  have hrest : ∀ k, k ∈ is ++ js ↔ k ∈ chains b ∧ k ≠ t.size - 1 := by
    intro k
    have hnot := (List.nodup_middle.mp hd).notMem
    rw [hsplit, List.perm_middle.mem_iff, List.mem_cons]
    constructor
    · intro hk
      exact ⟨.inr hk, fun heq => hnot (heq ▸ hk)⟩
    · rintro ⟨hk | hk, hne⟩
      · exact absurd hk hne
      · exact hk
  -- the entries on a chain are those that were there, but for the one that moved
  have hcontents := fun b' k => pack_content_iff (t := u) (by rwa [hsize]) (by rwa [hsize, hcontent])
    (fun hash => bucketIndex t.buckets hash = b') k
  rw [hsize, hcontent] at hcontents
  refine h.replace (redirect_buckets _ _) (h.fill_trail hi hb hsplit hl) ?_ (fun k => ?_)
    (fun b' hb' hbb a ha => ?_) fun b' hb' hbb k => ?_
  · exact List.nodup_middle.mpr (List.nodup_cons.mpr
      ⟨fun hm => h.off_notMem hb ((hrest i).mp hm).1, (List.nodup_middle.mp hd).of_cons⟩)
  · rw [hcontents, List.perm_middle.mem_iff, List.mem_cons, hrest, h.mem_iff b hb k]
    constructor
    · rintro (hk | ⟨⟨hki, hk⟩, hkl⟩)
      · exact ⟨Option.some_ne_none k, .inl ⟨hk, hbucket⟩⟩
      · exact ⟨Option.some_ne_none k, .inr ⟨fun heq => hki (congrArg some heq), hkl, hk⟩⟩
    · rintro ⟨-, ⟨hk, -⟩ | ⟨hki, hkl, hk⟩⟩
      · exact .inl hk
      · exact .inr ⟨⟨fun heq => hki (Option.some.inj heq), hk⟩, hkl⟩
  · have hout : a ≠ tip .after (.head b) is := fun heq => h.place_ne hb hb' hbb htip (heq ▸ ha)
    have halast : a ≠ .after (t.size - 1) := fun heq =>
      h.place_ne hb hb' hbb (List.mem_cons_of_mem _ (List.mem_map_of_mem hlast)) (heq ▸ ha)
    rw [h.pack_link hi hb' ha halast, hlink, Function.update_of_ne hout]
  · rw [hcontents, h.mem_iff b' hb' k]
    constructor
    · rintro ⟨hki, hk⟩
      refine ⟨Option.some_ne_none k, .inr ⟨fun heq => hki (congrArg some heq), fun heq => ?_, hk⟩⟩
      exact hbb (h.bucket_unique hb' hb ((h.mem_iff b' hb' _).mpr ⟨heq ▸ hki, heq ▸ hk⟩) hlast)
    · rintro ⟨-, ⟨-, heq⟩ | ⟨hki, -, hk⟩⟩
      · exact absurd (heq.symm.trans hbucket) hbb
      · exact ⟨fun heq => hki (Option.some.inj heq), hk⟩

end Fill

end Chained

end Table

end DenseHash
