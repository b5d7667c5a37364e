import DenseHash.Proofs.Container.Run
import DenseHash.Proofs.Container.Stored
import DenseHash.Proofs.Presence

/-!
# The order of a linked container and its past

The order of a linked container does not only follow from one operation to the next: it can be read off the whole
history. A *use* of a key is an insertion of it or a lookup that counts and finds it, and it may have *created* the key.

* **`rank`** is the place of the last use of a key that counts in the history. In the order of use every use counts; in
  the order of insertion only those that created the key.
* **`Recalls`** follows a container through operations that return. It notes the uses, and which keys are there by what
  was asked and answered; it does not look into the container.
* The keys that are there are always listed by rising rank. So the first one is the one used, or inserted, the longest
  time ago.

A step keeps the keys in their order and drops some, or moves one to the end, or appends one. The first does not touch
the ranks, and the other two give the key at the end the highest one.
-/

namespace DenseHash

variable {K V α : Type}

/-! ## Histories -/

/-- A use of a key. -/
structure Use (K : Type) where
  key : K
  /-- The key was not there before. -/
  created : Bool
deriving DecidableEq

/-- The place of the last element that is accepted, counted from one; zero if there is none. -/
def lastPlace (accepts : α → Bool) (as : List α) : Nat := as.length - as.reverse.findIdx accepts

/-- One more element either has the last place, or changes nothing. -/
theorem lastPlace_concat (accepts : α → Bool) (as : List α) (a : α) :
    lastPlace accepts (as ++ [a]) = if accepts a then as.length + 1 else lastPlace accepts as := by
  rw [lastPlace, List.reverse_append, List.reverse_singleton, List.singleton_append, List.findIdx_cons,
    List.length_append, List.length_singleton]
  cases accepts a with
  | true => rfl
  | false => exact Nat.add_sub_add_right as.length 1 _

theorem lastPlace_le (accepts : α → Bool) (as : List α) : lastPlace accepts as ≤ as.length := Nat.sub_le _ _

section Rank

variable [BEq K]

/-- Whether a use decides on the place of a key. -/
def Use.counts (byAccess : Bool) (key : K) (u : Use K) : Bool := (byAccess || u.created) && u.key == key

/-- The place in a history of the last use of a key that counts. -/
def rank (byAccess : Bool) (uses : List (Use K)) (key : K) : Nat := lastPlace (Use.counts byAccess key) uses

/-- The uses that insertions are, one after the other. -/
def insertions (present : K → Bool) : List (K × V) → List (Use K)
  | [] => []
  | (key, _) :: rest => ⟨key, !present key⟩ :: insertions (fun k => present k || key == k) rest

/-- The uses that an operation makes of keys, where some keys are present. -/
def Operation.uses (present : K → Bool) : Operation K V → List (Use K)
  | .insert key _ => [⟨key, !present key⟩]
  | .get key | .modify key _ => if present key then [⟨key, false⟩] else []
  | .extend _ pairs => insertions present pairs
  | _ => []

variable {byAccess : Bool} {uses : List (Use K)} {u : Use K} {key key' : K}

/-- A use that counts gives its key the highest rank. -/
theorem rank_concat_of_counts (h : u.counts byAccess key = true) :
    rank byAccess (uses ++ [u]) key = uses.length + 1 := by
  rw [rank, lastPlace_concat, if_pos h]

/-- A use that does not count changes no rank. -/
theorem rank_concat_of_not_counts (h : u.counts byAccess key = false) :
    rank byAccess (uses ++ [u]) key = rank byAccess uses key := by
  rw [rank, lastPlace_concat, if_neg (Bool.eq_false_iff.mp h), rank]

theorem rank_le (byAccess : Bool) (uses : List (Use K)) (key : K) : rank byAccess uses key ≤ uses.length :=
  lastPlace_le _ _

/-- Equal keys have one rank. -/
theorem rank_congr [EquivBEq K] (h : (key == key') = true) : rank byAccess uses key = rank byAccess uses key' := by
  have hcounts : Use.counts byAccess key = Use.counts byAccess key' := by
    funext u
    rw [Use.counts, Use.counts, BEq.congr_right h]
  rw [rank, rank, hcounts]

end Rank

/-! ## Keys in the order of their ranks -/

section Ranked

variable [BEq K] {byAccess : Bool} {uses : List (Use K)} {u : Use K} {ks ks' as bs : List K} {key : K}

/-- The keys have been used, each one after those before it. -/
structure Ranked (byAccess : Bool) (uses : List (Use K)) (ks : List K) : Prop where
  used : ∀ k ∈ ks, 0 < rank byAccess uses k
  rising : ks.Pairwise fun k k' => rank byAccess uses k < rank byAccess uses k'

namespace Ranked

theorem nil (byAccess : Bool) (uses : List (Use K)) : Ranked byAccess uses [] :=
  ⟨fun _ hk => absurd hk List.not_mem_nil, .nil⟩

/-- Fewer keys are in order all the more. -/
theorem sublist (h : Ranked byAccess uses ks) (hs : ks'.Sublist ks) : Ranked byAccess uses ks' :=
  ⟨fun k hk => h.used k (hs.subset hk), h.rising.sublist hs⟩

/-- A use that counts for none of the keys. -/
theorem pass (h : Ranked byAccess uses ks) (hu : ∀ k ∈ ks, u.counts byAccess k = false) :
    Ranked byAccess (uses ++ [u]) ks := by
  constructor
  · intro k hk
    rw [rank_concat_of_not_counts (hu k hk)]
    exact h.used k hk
  · refine h.rising.imp_of_mem fun {k k'} hk hk' hlt => ?_
    rw [rank_concat_of_not_counts (hu k hk), rank_concat_of_not_counts (hu k' hk')]
    exact hlt

/-- A use that counts for a key at the end, and for none of the others. -/
theorem concat (h : Ranked byAccess uses ks) (hu : ∀ k ∈ ks, u.counts byAccess k = false)
    (hkey : u.counts byAccess key = true) : Ranked byAccess (uses ++ [u]) (ks ++ [key]) := by
  have hpassed := h.pass hu
  have hlast : rank byAccess (uses ++ [u]) key = uses.length + 1 := rank_concat_of_counts hkey
  constructor
  · intro k hk
    rcases List.mem_append.mp hk with hk | hk
    · exact hpassed.used k hk
    · rw [List.mem_singleton.mp hk, hlast]
      exact Nat.succ_pos _
  · refine List.pairwise_append.mpr ⟨hpassed.rising, List.pairwise_singleton _ _, fun k hk k' hk' => ?_⟩
    rw [List.mem_singleton.mp hk', hlast, rank_concat_of_not_counts (hu k hk)]
    exact Nat.lt_succ_of_le (rank_le byAccess uses k)

variable [EquivBEq K] {stored : K}

/-- Equal keys would have one rank. -/
theorem distinctKeys {ps : List (K × V)} (h : Ranked byAccess uses (ps.map Prod.fst)) : DistinctKeys ps := by
  refine (List.pairwise_map.mp h.rising).imp fun {p q} hlt => Bool.eq_false_iff.mpr fun hkey => ?_
  rw [rank_congr hkey] at hlt
  exact Nat.lt_irrefl _ hlt

/-- The other keys are not the one that is used. -/
theorem not_counts_others (h : Ranked byAccess uses (as ++ stored :: bs)) (hkey : (stored == u.key) = true) :
    ∀ k ∈ as ++ bs, u.counts byAccess k = false := by
  intro k hk
  have hne : (u.key == k) = false := by
    refine Bool.eq_false_iff.mpr fun heq => ?_
    have hrank : rank byAccess uses stored = rank byAccess uses k := rank_congr (BEq.trans hkey heq)
    obtain ⟨-, hbehind, hbefore⟩ := List.pairwise_append.mp h.rising
    rcases List.mem_append.mp hk with hk | hk
    · have := hbefore k hk stored List.mem_cons_self
      omega
    · have := (List.pairwise_cons.mp hbehind).1 k hk
      omega
  rw [Use.counts, hne, Bool.and_false]

/-- A key that was there is used: in the order of use it is the last one now. -/
theorem use (h : Ranked byAccess uses (as ++ stored :: bs)) (hkey : (stored == u.key) = true)
    (hcreated : u.created = false) : Ranked byAccess (uses ++ [u]) (DenseHash.used byAccess as stored bs) := by
  have hothers := h.not_counts_others hkey
  cases byAccess with
  | true =>
      have hrest : Ranked true uses (as ++ bs) :=
        h.sublist (List.Sublist.append_left (List.sublist_cons_self stored bs) as)
      refine hrest.concat hothers ?_
      rw [Use.counts, BEq.symm hkey]
      rfl
  | false =>
      refine h.pass fun k _ => ?_
      rw [Use.counts, hcreated]
      rfl

/-- A key that was not there is created at the end. -/
theorem create (h : Ranked byAccess uses ks) (hmissing : ∀ k ∈ ks, (k == key) = false) :
    Ranked byAccess (uses ++ [⟨key, true⟩]) (ks ++ [key]) := by
  refine h.concat (fun k hk => ?_) ?_
  · rw [Use.counts, BEq.comm, hmissing k hk, Bool.and_false]
  · rw [Use.counts, BEq.refl, Bool.or_true]
    rfl

end Ranked

end Ranked

/-! ## Listings -/

namespace Listing

/-- What a visitor leaves where nothing closes up. -/
theorem sift_keys {σ : Type} (keep : σ → K → V → σ × V × Bool) (state : σ) (ps : List (K × V)) :
    ((sift false keep state ps).1.map Prod.fst).Sublist (ps.map Prod.fst) := by
  induction state, ps using sift_induction false keep with
  | nil state => rw [sift]
  | stays state key value state' value' rest hkeep ih =>
      rw [sift_keep hkeep]
      exact ih.cons_cons key
  | goes state key value state' value' rest hkeep ih =>
      rw [sift_drop hkeep]
      exact ih.trans (List.sublist_cons_self key _)

/-- A removal in place leaves the other keys in order. -/
theorem removeAt_keys {l : Listing K V} (hpacked : l.packed = false) (i : Nat) :
    ((l.removeAt i).pairs.map Prod.fst).Sublist (l.pairs.map Prod.fst) := by
  rw [removeAt, hpacked, if_neg Bool.false_ne_true]
  exact (List.eraseIdx_sublist l.pairs i).map Prod.fst

variable [BEq K]

/-- The keys are listed by rising rank. -/
def Recent (uses : List (Use K)) (l : Listing K V) : Prop := Ranked l.byAccess uses (l.pairs.map Prod.fst)

variable {l : Listing K V} {uses : List (Use K)} {as bs : List (K × V)} {stored key : K} {value : V}

variable [EquivBEq K]

/-- A lookup, or an update, of a key that is there. -/
theorem recent_use (h : l.Recent uses) (hl : l.pairs = as ++ (stored, value) :: bs) (hkey : (stored == key) = true)
    (new : V) : (l.use as.length (stored, new)).Recent (uses ++ [⟨key, false⟩]) := by
  rw [Recent, hl, List.map_append, List.map_cons] at h
  rw [Recent, use_length hl]
  dsimp only
  rw [map_used]
  exact h.use hkey rfl

/-- An insertion uses its key, which creates an entry if the key was not present. -/
theorem recent_insert (h : l.Recent uses) (key : K) (value : V) :
    (l.insert key value).2.Recent (uses ++ [⟨key, !l.present key⟩]) := by
  rcases locate?_cases h.distinctKeys key with ⟨as, stored, old, bs, hl, hkey, hlocate⟩ | ⟨hmissing, hlocate⟩
  · rw [insert, hlocate, present_of_split hl hkey]
    exact recent_use h hl hkey value
  · rw [insert, hlocate, present_of_missing hmissing, Recent]
    dsimp only
    rw [List.map_append]
    refine Ranked.create h fun k hk => ?_
    obtain ⟨p, hp, rfl⟩ := List.mem_map.mp hk
    exact hmissing p hp

/-- Insertions one after the other. -/
theorem recent_insertAll (h : l.Recent uses) (pairs : List (K × V)) :
    (insertAll pairs l).Recent (uses ++ insertions l.present pairs) := by
  induction pairs generalizing l uses with
  | nil =>
      rw [insertions, List.append_nil]
      exact h
  | cons p pairs ih =>
      have hnext := ih (recent_insert h p.1 p.2)
      rw [present_insert h.distinctKeys, List.append_assoc] at hnext
      exact hnext

/-- One step: the uses that an operation makes are added to the history. -/
theorem recent_apply (h : l.Recent uses) (hpacked : l.packed = false) (op : Operation K V) :
    (l.apply op).2.Recent (uses ++ op.uses l.present) := by
  have hquiet {l' : Listing K V} (haccess : l'.byAccess = l.byAccess)
      (hkeys : (l'.pairs.map Prod.fst).Sublist (l.pairs.map Prod.fst)) : l'.Recent (uses ++ []) := by
    rw [List.append_nil, Recent, haccess]
    exact Ranked.sublist h hkeys
  cases op with
  | insert key value => exact recent_insert h key value
  | get key =>
      rcases locate?_cases h.distinctKeys key with ⟨as, stored, value, bs, hl, hkey, hlocate⟩ | ⟨hmissing, hlocate⟩
      · rw [apply, hlocate, Operation.uses, present_of_split hl hkey]
        exact recent_use h hl hkey value
      · rw [apply, hlocate, Operation.uses, present_of_missing hmissing]
        exact hquiet rfl (.refl _)
  | modify key change =>
      rcases locate?_cases h.distinctKeys key with ⟨as, stored, value, bs, hl, hkey, hlocate⟩ | ⟨hmissing, hlocate⟩
      · rw [apply, hlocate, Operation.uses, present_of_split hl hkey]
        exact recent_use h hl hkey (change value)
      · rw [apply, hlocate, Operation.uses, present_of_missing hmissing]
        exact hquiet rfl (.refl _)
  | remove key =>
      rcases locate?_cases h.distinctKeys key with ⟨as, stored, value, bs, -, -, hlocate⟩ | ⟨-, hlocate⟩
      · rw [apply, hlocate]
        exact hquiet (sameKind_removeAt l _).byAccess (removeAt_keys hpacked _)
      · rw [apply, hlocate]
        exact hquiet rfl (.refl _)
  | popFirst => exact hquiet (sameKind_removeAt l _).byAccess (removeAt_keys hpacked _)
  | popLast => exact hquiet (sameKind_removeAt l _).byAccess (removeAt_keys hpacked _)
  | retain keep =>
      refine hquiet rfl ?_
      rw [apply, hpacked]
      exact sift_keys _ _ _
  | extend hint pairs => exact recent_insertAll h pairs
  | drain => exact hquiet rfl (List.nil_sublist _)
  | clear => exact hquiet rfl (List.nil_sublist _)
  | revise moves change =>
      refine hquiet rfl ?_
      show ((Listing.revise change moves l.pairs).2.map Prod.fst).Sublist _
      rw [revise_keys]
  | _ => exact hquiet rfl (.refl _)

end Listing

/-! ## Containers -/

namespace Container

section History

variable [Backing] [BEq K] {c₀ c : Container K V} {uses : List (Use K)}

/-- What a container becomes by operations that return, by removals through cursors and by being copied, with the uses
    that were made of keys on the way and with the keys that are there in the end. Both are told by what was asked and
    answered. -/
inductive Recalls (c₀ : Container K V) : List (Use K) → (K → Bool) → Container K V → Prop where
  | start : Recalls c₀ [] (fun _ => false) c₀
  | apply {uses : List (Use K)} {present : K → Bool} {c : Container K V} (recalls : Recalls c₀ uses present c)
      (op : Operation K V) (answer : Answer K V) (returned : (c.apply op).result = .ok answer) :
      Recalls c₀ (uses ++ op.uses present) (op.presence present answer) (c.apply op).state
  | remove {uses : List (Use K)} {present : K → Bool} {c : Container K V} (recalls : Recalls c₀ uses present c)
      (cur : Cursor) : Recalls c₀ uses (presenceRemoved present (cur.remove c).result) (cur.remove c).state.1
  | copy {uses : List (Use K)} {present : K → Bool} {c : Container K V} (recalls : Recalls c₀ uses present c)
      (owner : OwnerId) : Recalls c₀ uses present (c.copy owner)

variable {present : K → Bool} {slots : List Slot} {ps : List (K × V)}

/-- A sound container whose removals do not disturb the order, and that lists the keys that are there by rising rank. -/
structure Orders (byAccess : Bool) (uses : List (Use K)) (present : K → Bool) (c : Container K V) : Prop where
  respects : c.hashing.Respects
  isPacked : c.store.isPacked = false
  mode : c.store.byAccess = byAccess
  lists : ∃ slots ps, c.Shows slots ps ∧ Ranked byAccess uses (ps.map Prod.fst) ∧ (c.listingOf ps).present = present

variable [EquivBEq K] {byAccess : Bool}

/-- One operation. -/
theorem Orders.apply (h : c.Orders byAccess uses present) {op : Operation K V} {answer : Answer K V}
    (hok : (c.apply op).result = .ok answer) :
    (c.apply op).state.Orders byAccess (uses ++ op.uses present) (op.presence present answer) := by
  obtain ⟨hr, hpacked, rfl, slots, ps, hshows, hranked, rfl⟩ := h
  obtain ⟨hanswer, slots', hshows', hev⟩ := (hshows.apply_meets hr op).of_ok hok
  have hkind := Listing.sameKind_apply op (c.listingOf ps)
  refine ⟨hev.hashing ▸ hr, ?_, hev.byAccess, slots', _, hshows', ?_, ?_⟩
  · rw [hev.isPacked, hpacked]
    rfl
  · have hrecent := Listing.recent_apply (l := c.listingOf ps) hranked hpacked op
    rwa [Listing.Recent, hkind.byAccess] at hrecent
  · rw [← hanswer, ← Listing.present_apply (l := c.listingOf ps) hranked.distinctKeys hpacked op]
    rfl

/-- A removal through a cursor, whichever it is. -/
theorem Orders.cursor_remove (h : c.Orders byAccess uses present) (cur : Cursor) :
    (cur.remove c).state.1.Orders byAccess uses (presenceRemoved present (cur.remove c).result) := by
  obtain ⟨hr, hpacked, hmode, slots, ps, hshows, hranked, hpresent⟩ := id h
  rcases hshows.cursor_remove_cases cur with ⟨hstate, hnone⟩ | ⟨p, as, slot, bs, rename, hp, rfl, hheld, hremoved⟩
  · have hsame : presenceRemoved present (cur.remove c).result = present := by
      cases hresult : (cur.remove c).result with
      | error f => rfl
      | ok outcome =>
          cases outcome with
          | error e => rfl
          | ok p => exact absurd hresult (hnone p)
    rw [hstate, hsame]
    exact h
  · have hps : ps = as.filterMap c.store.held ++ p :: bs.filterMap c.store.held := by
      rw [← hshows.pairs]
      exact filterMap_append_cons hheld
    refine ⟨hremoved.evolves.hashing ▸ hr, hremoved.kind.isPacked.trans hpacked,
      hremoved.kind.byAccess.trans hmode, _, _, hremoved.shows, hranked.sublist ?_, ?_⟩
    · rw [hps, hpacked]
      exact ((List.sublist_cons_self p _).append_left _).map Prod.fst
    · rw [hp, ← hpresent]
      exact Listing.present_removed (l := c.listingOf ps) hranked.distinctKeys hps c.store.isPacked BEq.rfl rfl

/-- Any number of them. -/
theorem Recalls.orders (h : c₀.Recalls uses present c) (h₀ : c₀.Orders byAccess [] fun _ => false) :
    c.Orders byAccess uses present := by
  induction h with
  | start => exact h₀
  | apply _ op answer returned ih => exact ih.apply returned
  | remove _ cur ih => exact ih.cursor_remove cur
  | copy _ owner ih =>
      obtain ⟨hr, hpacked, hmode, slots, ps, hshows, hranked, hpresent⟩ := ih
      exact ⟨hr, hpacked, hmode, slots, ps, hshows.copy owner, hranked, hpresent⟩

variable {settings : Settings} {hashing : Hashing K} {owner : OwnerId}

/-- A linked container lists the keys that are there, according to its history, by the places of their last uses in it:
    in the order of use, of all uses; in the order of insertion, of those that made the key present. So the first entry,
    which is what `popFirst` removes, is the one whose last use is the earliest, and the last entry is the one whose last
    use is the latest. -/
theorem linked_lists_by_last_use (hr : hashing.Respects)
    (hmake : make settings (.ofMode byAccess) hashing owner = .ok c₀) (hrecalls : c₀.Recalls uses present c) :
    ∃ ps, c.toList = .ok ps ∧
      (∀ key, (ps.any fun p => p.1 == key) = present key) ∧ (∀ key, c.contains key = .ok (present key)) ∧
      (∀ p ∈ ps, 0 < rank byAccess uses p.1) ∧
      (ps.Pairwise fun p q => rank byAccess uses p.1 < rank byAccess uses q.1) ∧
      (c.popFirst.result = .ok ps.head? ∧
        ∀ p, c.popFirst.result = .ok (some p) → ∀ q ∈ ps, rank byAccess uses p.1 ≤ rank byAccess uses q.1) ∧
      (c.popLast.result = .ok ps.getLast? ∧
        ∀ p, c.popLast.result = .ok (some p) → ∀ q ∈ ps, rank byAccess uses q.1 ≤ rank byAccess uses p.1) := by
  have h₀ : c₀.Orders byAccess [] fun _ => false := by
    obtain ⟨-, rfl⟩ := eq_of_make hmake
    exact ⟨hr, rfl, rfl, [], [], shows_of_make (.linked byAccess) hmake, .nil byAccess [], rfl⟩
  obtain ⟨hrespects, -, -, slots, ps, hshows, ⟨hused, hrising⟩, rfl⟩ := hrecalls.orders h₀
  have hcontains (key : K) : c.contains key = .ok ((c.listingOf ps).present key) := by
    rw [hshows.contains_eq hrespects, Listing.entry?, List.isSome_find?]
    rfl
  rw [List.pairwise_map] at hrising
  have hfirst : c.popFirst.result = .ok ps.head? := by
    obtain ⟨a, ha, hanswer, -⟩ := hshows.popFirst_gives
    rw [ha]
    exact congrArg Except.ok (Answer.pair.inj hanswer).symm
  have hlast : c.popLast.result = .ok ps.getLast? := by
    obtain ⟨a, ha, hanswer, -⟩ := hshows.popLast_gives
    rw [ha]
    exact congrArg Except.ok (Answer.pair.inj hanswer).symm
  refine ⟨ps, hshows.toList_eq, fun key => rfl, hcontains, fun p hp => hused p.1 (List.mem_map_of_mem hp), hrising,
    ⟨hfirst, fun p hp q hq => ?_⟩, ⟨hlast, fun p hp q hq => ?_⟩⟩
  · -- the others come after the first
    obtain ⟨rest, rfl⟩ := List.head?_eq_some_iff.mp (Except.ok.inj (hfirst.symm.trans hp))
    rcases List.mem_cons.mp hq with rfl | hq
    · exact Nat.le_refl _
    · exact Nat.le_of_lt ((List.pairwise_cons.mp hrising).1 q hq)
  · obtain ⟨front, rfl⟩ := List.getLast?_eq_some_iff.mp (Except.ok.inj (hlast.symm.trans hp))
    rcases List.mem_append.mp hq with hq | hq
    · exact Nat.le_of_lt ((List.pairwise_append.mp hrising).2.2 q hq p (List.mem_singleton_self p))
    · rw [List.mem_singleton.mp hq]

end History

/-- Two keys that collide, so that the entries move to the fallback; then the first one is looked up, and the other one
    is removed. -/
theorem linked_lists_by_last_use_colliding :
    ∃ (c₀ c : Container Nat Nat) (present : Nat → Bool),
      make { maxChain := 1 } (.ofMode true) ⟨fun _ => 0, ⟨fun _ _ => 0⟩⟩ 0 = .ok c₀ ∧
        c₀.Recalls [⟨1, true⟩, ⟨2, true⟩, ⟨1, false⟩] present c ∧ c.isFallback = true ∧ present 1 = true ∧
          present 2 = true ∧ c.toList = .ok [(2, 20), (1, 10)] ∧ c.popFirst.result = .ok (some (2, 20)) ∧
            c.popFirst.state.contains 1 = .ok true ∧ c.popFirst.state.contains 2 = .ok false := by
  have hr : Hashing.Respects (⟨fun _ => 0, ⟨fun _ _ => 0⟩⟩ : Hashing Nat) := ⟨fun _ => rfl, fun _ _ _ _ => rfl⟩
  have hmake : (make { maxChain := 1 } (.ofMode true) ⟨fun _ => 0, ⟨fun _ _ => 0⟩⟩ 0 :
      Except _ (Container Nat Nat)) = .ok _ := rfl
  have hrecalls := (((Recalls.start : Recalls (⟨⟨fun _ => 0, ⟨fun _ _ => 0⟩⟩,
    .table (.empty (.ofMode true) .threeQuarters 0), 1, 0, 0⟩ : Container Nat Nat) [] _ _).apply
      (.insert 1 10) (.value none) rfl).apply (.insert 2 20) (.value none) rfl).apply (.get 1) (.value (some 10)) rfl
  have hpopped := hrecalls.apply .popFirst (.pair (some (2, 20))) rfl
  obtain ⟨ps, hlist, hpresent, -, -, -, ⟨hfirst, -⟩, -⟩ := linked_lists_by_last_use hr hmake hrecalls
  obtain ⟨-, -, -, hcontains, -⟩ := linked_lists_by_last_use hr hmake hpopped
  obtain rfl : [(2, 20), (1, 10)] = ps := Except.ok.inj hlist
  exact ⟨_, _, _, hmake, hrecalls, rfl, (hpresent 1).symm, (hpresent 2).symm, hlist, hfirst, hcontains 1, hcontains 2⟩

end Container

end DenseHash
