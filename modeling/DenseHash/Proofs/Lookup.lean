import DenseHash.Proofs.Container.Run

/-!
# Listings as finite maps

Apart from its order, a listing is a finite map from keys to entries: the stored form of the key with its value.
`Lookup.apply` says what an operation does to the map and `Lookup.answer?` what it answers, where that does not
depend on the order. The map is not changed by a permutation of the listing, so it does not matter how a removal
closes up.
-/

namespace DenseHash

/-- The entry of each key. -/
abbrev Lookup (K V : Type) := K → Option (K × V)

/-- What the operation does to a map, the order of the entries does not matter for. A visitor that retains
    entries must then decide on each one by itself. -/
def Operation.Unordered {K V : Type} : Operation K V → Prop
  | .retain keep => ∀ seen key value, keep seen key value = keep [] key value
  | .popFirst | .popLast | .revise _ _ => False
  | _ => True

namespace Lookup

variable {K V : Type}

/-- What a visitor makes of an entry, if it keeps it. -/
def kept (keep : K → V → V × Bool) (p : K × V) : Option (K × V) :=
  if (keep p.1 p.2).2 then some (p.1, (keep p.1 p.2).1) else none

/-- The entries that a visitor keeps, with the values that it gives them. -/
def filter (keep : K → V → V × Bool) (m : Lookup K V) : Lookup K V := fun key => (m key).bind (kept keep)

/-- Keeping an entry does not change its key. -/
theorem kept_key {keep : K → V → V × Bool} {p q : K × V} (h : kept keep p = some q) : q.1 = p.1 := by
  rw [kept] at h
  split at h
  · rw [← Option.some.inj h]
  · exact nomatch h

/-- A visitor that decides on each entry by itself filters. -/
theorem sift_perm {keep : List (K × V) → K → V → V × Bool} (packed : Bool)
    (hkeep : ∀ seen key value, keep seen key value = keep [] key value) (seen ps : List (K × V)) :
    (Listing.sift packed (fun seen key value => ((key, value) :: seen, keep seen key value)) seen ps).1.Perm
      (ps.filterMap (kept (keep []))) := by
  induction seen, ps using Listing.sift_induction packed
    fun seen key value => ((key, value) :: seen, keep seen key value) with
  | nil seen =>
      rw [Listing.sift]
      exact .refl _
  | stays seen key value seen' value' rest hvisit ih =>
      have hnew : keep [] key value = (value', true) := (hkeep seen key value).symm.trans (Prod.mk.inj hvisit).2
      have hkept : kept (keep []) (key, value) = some (key, value') := by
        rw [kept, hnew]
        rfl
      rw [Listing.sift_keep hvisit, List.filterMap_cons_some hkept]
      exact ih.cons _
  | goes seen key value seen' value' rest hvisit ih =>
      have hnew : keep [] key value = (value', false) := (hkeep seen key value).symm.trans (Prod.mk.inj hvisit).2
      have hkept : kept (keep []) (key, value) = none := by
        rw [kept, hnew]
        rfl
      rw [Listing.sift_drop hvisit, List.filterMap_cons_none hkept]
      exact ih.trans ((closeUp_perm packed rest).filterMap _)

/-- What an operation answers, if a map can tell. -/
def answer? (op : Operation K V) (m : Lookup K V) : Option (Answer K V) :=
  match op with
  | .insert key _ | .get key | .peek key => some (.value ((m key).map Prod.snd))
  | .modify key change => some (.value ((m key).map fun (_, value) => change value))
  | .entry key | .remove key => some (.pair (m key))
  | .contains key => some (.flag (m key).isSome)
  | _ => none

/-- An operation whose answer a map can tell does not look at the order. -/
theorem unordered_of_answer? {op : Operation K V} {m : Lookup K V} {a : Answer K V} (h : answer? op m = some a) :
    op.Unordered := by
  cases op with
  | retain keep => exact nomatch h
  | popFirst => exact nomatch h
  | popLast => exact nomatch h
  | revise moves change => exact nomatch h
  | _ => trivial

variable [BEq K]

/-- What a list of entries says of each key. -/
def ofPairs (ps : List (K × V)) : Lookup K V := fun key => ps.find? fun p => p.1 == key

/-- A key keeps its stored form, if it has one. -/
def insert (key : K) (value : V) (m : Lookup K V) : Lookup K V := fun k =>
  if key == k then some (((m key).map Prod.fst).getD key, value) else m k

def erase (key : K) (m : Lookup K V) : Lookup K V := fun k => if key == k then none else m k

/-- What an operation does to a map. -/
def apply (op : Operation K V) (m : Lookup K V) : Lookup K V :=
  match op with
  | .insert key value => m.insert key value
  | .modify key change =>
    match m key with
    | some (_, value) => m.insert key (change value)
    | none => m
  | .remove key => m.erase key
  | .retain keep => m.filter (keep [])
  | .extend _ pairs => pairs.foldl (fun m (key, value) => m.insert key value) m
  | .drain | .clear => fun _ => none
  | _ => m

/-- Does operations one after the other. -/
def run (ops : List (Operation K V)) (m : Lookup K V) : Lookup K V := ops.foldl (fun m op => m.apply op) m

/-! ## The map of a list -/

variable {ps qs as bs : List (K × V)} {p : K × V} {key stored : K} {value : V}

theorem ofPairs_cons (p : K × V) (ps : List (K × V)) (k : K) :
    ofPairs (p :: ps) k = if p.1 == k then some p else ofPairs ps k := by
  rw [ofPairs, List.find?_cons]
  cases p.1 == k <;> rfl

/-- A key that no entry has is not in the map. -/
theorem ofPairs_eq_none (h : ∀ p ∈ ps, (p.1 == key) = false) : ofPairs ps key = none := by
  refine List.find?_eq_none.mpr fun p hp => ?_
  rw [h p hp]
  exact Bool.false_ne_true

/-- What is kept has distinct keys. -/
theorem distinctKeys_kept (keep : K → V → V × Bool) (hd : DistinctKeys ps) :
    DistinctKeys (ps.filterMap (kept keep)) := by
  refine List.Pairwise.filterMap (kept keep) (fun p q hpq p' hp' q' hq' => ?_) hd
  rw [kept_key hp', kept_key hq']
  exact hpq

variable [EquivBEq K]

/-- The map does not tell equal keys apart. -/
theorem ofPairs_congr (ps : List (K × V)) {k k' : K} (h : (k == k') = true) : ofPairs ps k = ofPairs ps k' := by
  rw [ofPairs, ofPairs]
  exact congrArg (ps.find? ·) (funext fun p => BEq.congr_right h)

/-- The map does not depend on the order of the list. -/
theorem ofPairs_perm (hd : DistinctKeys ps) (h : qs.Perm ps) : ofPairs qs = ofPairs ps := by
  funext k
  rcases split_or_missing ps k with ⟨as, stored, value, bs, rfl, hkey⟩ | hmissing
  · have hmem : (stored, value) ∈ qs := h.mem_iff.mpr (List.mem_append_right as List.mem_cons_self)
    obtain ⟨cs, ds, rfl⟩ := List.append_of_mem hmem
    rw [ofPairs, ofPairs, hd.find?_eq hkey, (hd.perm h).find?_eq hkey]
  · rw [ofPairs_eq_none hmissing, ofPairs_eq_none fun p hp => hmissing p (h.mem_iff.mp hp)]

/-- Seen from an entry: its key has it, and all other keys have what the other entries say. -/
theorem ofPairs_split (hd : DistinctKeys (as ++ (stored, value) :: bs)) (hkey : (stored == key) = true)
    (k : K) : ofPairs (as ++ (stored, value) :: bs) k =
      if key == k then some (stored, value) else ofPairs (as ++ bs) k := by
  have hperm := ofPairs_perm (hd.perm List.perm_middle.symm) List.perm_middle
  rw [← BEq.congr_left hkey]
  exact (congrFun hperm k).trans (ofPairs_cons (stored, value) (as ++ bs) k)

/-- No other entry has the key of an entry. -/
theorem ofPairs_rest (hd : DistinctKeys (as ++ (stored, value) :: bs)) (hkey : (stored == key) = true) :
    ofPairs (as ++ bs) key = none := by
  refine ofPairs_eq_none fun p hp => ?_
  have hne := (List.pairwise_cons.mp (hd.perm List.perm_middle.symm)).1 p hp
  rw [BEq.comm, ← hne]
  exact (BEq.congr_left hkey).symm

/-- A key that some entry has leads to that entry. -/
theorem ofPairs_present (hd : DistinctKeys (as ++ (stored, value) :: bs)) (hkey : (stored == key) = true) :
    ofPairs (as ++ (stored, value) :: bs) key = some (stored, value) := hd.find?_eq hkey

/-! ## Operations -/

/-- What an operation leaves of a listing is what it leaves of the map. -/
structure Tracks (m : Lookup K V) (l : Listing K V) : Prop where
  distinct : DistinctKeys l.pairs
  pairs : ofPairs l.pairs = m

/-- A use in which the value is replaced is an insertion into the map. -/
theorem tracks_used (byAccess : Bool) (hd : DistinctKeys (as ++ (stored, value) :: bs)) (new : V)
    (hkey : (stored == key) = true) {l : Listing K V} (hl : l.pairs = used byAccess as (stored, new) bs) :
    Tracks (insert key new (ofPairs (as ++ (stored, value) :: bs))) l := by
  have hd' : DistinctKeys (as ++ (stored, new) :: bs) := hd.of_map_eq (by simp)
  have hperm := used_perm byAccess as (stored, new) bs
  refine ⟨hl ▸ hd'.perm hperm, ?_⟩
  rw [hl, ofPairs_perm hd' hperm]
  funext k
  rw [insert, ofPairs_present hd hkey, ofPairs_split hd hkey, ofPairs_split hd' hkey]
  cases key == k <;> rfl

/-- A new entry at the end is an insertion into the map. -/
theorem tracks_absent (hd : DistinctKeys ps) (hmissing : ∀ p ∈ ps, (p.1 == key) = false) (value : V)
    {l : Listing K V} (hl : l.pairs = ps ++ [(key, value)]) :
    Tracks (insert key value (ofPairs ps)) l := by
  have hperm : (ps ++ [(key, value)]).Perm ((key, value) :: ps) := List.perm_append_singleton _ _
  have hd' : DistinctKeys ((key, value) :: ps) := by
    refine List.pairwise_cons.mpr ⟨fun p hp => ?_, hd⟩
    rw [BEq.comm]
    exact hmissing p hp
  refine ⟨hl ▸ hd'.perm hperm, ?_⟩
  rw [hl, ofPairs_perm hd' hperm]
  funext k
  rw [insert, ofPairs_eq_none hmissing, ofPairs_cons]
  rfl

/-- Inserting into the listing inserts into the map and answers what was there. -/
theorem tracks_insert {l : Listing K V} (hd : DistinctKeys l.pairs) (key : K) (value : V) :
    Tracks (insert key value (ofPairs l.pairs)) (l.insert key value).2 ∧
      (l.insert key value).1 = (ofPairs l.pairs key).map Prod.snd := by
  rcases split_or_missing l.pairs key with ⟨as, stored, old, bs, hl, hkey⟩ | hmissing
  · obtain ⟨hinsert, -⟩ := Listing.insert_present hd hl hkey value
    rw [hl] at hd
    rw [hinsert, hl, ofPairs_present hd hkey]
    exact ⟨tracks_used l.byAccess hd value hkey rfl, rfl⟩
  · obtain ⟨hinsert, -⟩ := Listing.insert_absent hmissing value
    rw [hinsert, ofPairs_eq_none hmissing]
    exact ⟨tracks_absent hd hmissing value rfl, rfl⟩

/-- A bulk load into the listing inserts its pairs into the map, one after the other. -/
theorem tracks_insertAll (pairs : List (K × V)) {l : Listing K V} (hd : DistinctKeys l.pairs) :
    Tracks (pairs.foldl (fun m (key, value) => insert key value m) (ofPairs l.pairs))
      (Listing.insertAll pairs l) := by
  induction pairs generalizing l with
  | nil => exact ⟨hd, rfl⟩
  | cons p pairs ih =>
      obtain ⟨hinsert, -⟩ := tracks_insert hd p.1 p.2
      have hrest := ih hinsert.distinct
      rw [hinsert.pairs] at hrest
      exact hrest

/-- However the gap is closed, the key is erased from the map. -/
theorem tracks_removed (packed : Bool) (hd : DistinctKeys (as ++ (stored, value) :: bs))
    (hkey : (stored == key) = true) {l : Listing K V} (hl : l.pairs = as ++ closeUp packed bs) :
    Tracks (erase key (ofPairs (as ++ (stored, value) :: bs))) l := by
  have hperm : (as ++ closeUp packed bs).Perm (as ++ bs) := (closeUp_perm packed bs).append_left as
  have hd' : DistinctKeys (as ++ bs) := hd.sublist ((List.sublist_cons_self _ bs).append_left as)
  refine ⟨hl ▸ hd'.perm hperm, ?_⟩
  rw [hl, ofPairs_perm hd' hperm]
  funext k
  rw [erase, ofPairs_split hd hkey]
  cases hk : key == k with
  | true => exact ofPairs_rest hd (BEq.trans hkey hk)
  | false => rfl

/-! ## Retaining -/

/-- Keeping entries filters the map. -/
theorem ofPairs_kept {keep : K → V → V × Bool} (hd : DistinctKeys ps) :
    ofPairs (ps.filterMap (kept keep)) = filter keep (ofPairs ps) := by
  funext k
  induction ps with
  | nil => rfl
  | cons p rest ih =>
      obtain ⟨hp, hrest⟩ := List.pairwise_cons.mp hd
      have hthere := ih hrest
      rw [filter] at hthere
      rw [filter, ofPairs_cons]
      cases hk : p.1 == k with
      | false =>
          cases hkept : kept keep p with
          | none =>
              rw [List.filterMap_cons_none hkept, hthere]
              rfl
          | some q =>
              rw [List.filterMap_cons_some hkept, ofPairs_cons, kept_key hkept, hk, hthere]
              rfl
      | true =>
          have hnone : ofPairs rest k = none := ofPairs_eq_none fun q hq => by
            rw [BEq.comm, ← BEq.congr_left hk]
            exact hp q hq
          rw [hnone] at hthere
          cases hkept : kept keep p with
          | none =>
              rw [List.filterMap_cons_none hkept, hthere]
              exact hkept.symm
          | some q =>
              rw [List.filterMap_cons_some hkept, ofPairs_cons, kept_key hkept, hk]
              exact hkept.symm

/-- A visitor that does not look at what it has seen filters the map. -/
theorem tracks_retain {keep : List (K × V) → K → V → V × Bool} {l : Listing K V} (hd : DistinctKeys l.pairs)
    (hkeep : ∀ seen key value, keep seen key value = keep [] key value) :
    Tracks (filter (keep []) (ofPairs l.pairs)) (l.apply (.retain keep)).2 := by
  have hperm := sift_perm l.packed hkeep [] l.pairs
  have hkept := distinctKeys_kept (keep []) hd
  refine ⟨hkept.perm hperm, ?_⟩
  rw [← ofPairs_kept hd]
  exact ofPairs_perm hkept hperm

/-! ## Every operation -/

/-- An operation for which the order does not matter leaves what it leaves of the map, and it answers what the
    map tells. -/
theorem tracks_apply {op : Operation K V} {l : Listing K V} (hop : op.Unordered) (hd : DistinctKeys l.pairs) :
    Tracks ((ofPairs l.pairs).apply op) (l.apply op).2 ∧
      ∀ a, answer? op (ofPairs l.pairs) = some a → (l.apply op).1 = a := by
  cases op with
  | insert key value =>
      obtain ⟨htracks, hold⟩ := tracks_insert hd key value
      refine ⟨htracks, fun a ha => ?_⟩
      rw [← Option.some.inj ha, ← hold]
      rfl
  | get key =>
      rcases split_or_missing l.pairs key with ⟨as, stored, value, bs, hl, hkey⟩ | hmissing
      · have hperm : (used l.byAccess as (stored, value) bs).Perm l.pairs := hl ▸ used_perm _ _ _ _
        rw [Listing.apply, Listing.locate?_eq_some hd hl hkey]
        dsimp only
        rw [Listing.use_length hl]
        refine ⟨⟨hd.perm hperm, ofPairs_perm hd hperm⟩, fun a ha => ?_⟩
        rw [← Option.some.inj ha, hl, ofPairs_present (hl ▸ hd) hkey]
        rfl
      · rw [Listing.apply, Listing.locate?_eq_none hmissing]
        refine ⟨⟨hd, rfl⟩, fun a ha => ?_⟩
        rw [← Option.some.inj ha, ofPairs_eq_none hmissing]
        rfl
  | modify key change =>
      rcases split_or_missing l.pairs key with ⟨as, stored, value, bs, hl, hkey⟩ | hmissing
      · have hpresent : ofPairs l.pairs key = some (stored, value) := by
          rw [hl, ofPairs_present (hl ▸ hd) hkey]
        rw [Listing.apply, Listing.locate?_eq_some hd hl hkey, apply, answer?, hpresent]
        dsimp only
        rw [Listing.use_length hl, hl]
        refine ⟨tracks_used l.byAccess (hl ▸ hd) (change value) hkey rfl, fun a ha => ?_⟩
        rw [← Option.some.inj ha]
        rfl
      · have habsent := ofPairs_eq_none hmissing
        rw [Listing.apply, Listing.locate?_eq_none hmissing, apply, answer?, habsent]
        refine ⟨⟨hd, rfl⟩, fun a ha => ?_⟩
        rw [← Option.some.inj ha]
        rfl
  | remove key =>
      rcases split_or_missing l.pairs key with ⟨as, stored, value, bs, hl, hkey⟩ | hmissing
      · rw [Listing.apply, Listing.locate?_eq_some hd hl hkey]
        dsimp only
        rw [Listing.removeAt_length hl, hl]
        refine ⟨tracks_removed l.packed (hl ▸ hd) hkey rfl, fun a ha => ?_⟩
        rw [← Option.some.inj ha, ofPairs_present (hl ▸ hd) hkey]
      · rw [Listing.apply, Listing.locate?_eq_none hmissing]
        refine ⟨⟨hd, funext fun k => ?_⟩, fun a ha => ?_⟩
        -- erasing a key that is absent leaves the map
        · show ofPairs l.pairs k = erase key (ofPairs l.pairs) k
          rw [erase]
          cases hk : key == k with
          | false => rfl
          | true =>
              refine ofPairs_eq_none fun p hp => ?_
              rw [← BEq.congr_right hk]
              exact hmissing p hp
        · rw [← Option.some.inj ha, ofPairs_eq_none hmissing]
  | retain keep => exact ⟨tracks_retain hd hop, fun a ha => absurd ha.symm (Option.some_ne_none a)⟩
  | extend hint pairs => exact ⟨tracks_insertAll pairs hd, fun a ha => absurd ha.symm (Option.some_ne_none a)⟩
  | drain => exact ⟨⟨.nil, rfl⟩, fun a ha => absurd ha.symm (Option.some_ne_none a)⟩
  | clear => exact ⟨⟨.nil, rfl⟩, fun a ha => absurd ha.symm (Option.some_ne_none a)⟩
  -- the next three tell the order
  | popFirst => exact hop.elim
  | popLast => exact hop.elim
  | revise moves change => exact hop.elim
  | peek key => exact ⟨⟨hd, rfl⟩, fun a ha => Option.some.inj ha⟩
  | entry key => exact ⟨⟨hd, rfl⟩, fun a ha => Option.some.inj ha⟩
  | contains key => exact ⟨⟨hd, rfl⟩, fun a ha => Option.some.inj ha⟩
  | _ => exact ⟨⟨hd, rfl⟩, fun a ha => absurd ha.symm (Option.some_ne_none a)⟩

/-- A run of a listing is a run of its map, whenever removal ceases to be packed. -/
theorem tracks_run {ops : List (Operation K V)} (hops : ∀ op ∈ ops, op.Unordered) {l : Listing K V}
    (hd : DistinctKeys l.pairs) (n : Nat) :
    Tracks (run ops (ofPairs l.pairs)) (l.runSwitching n ops).2 := by
  induction ops generalizing l n with
  | nil => exact ⟨hd, rfl⟩
  | cons op ops ih =>
      -- whether removal is packed by now changes the order only
      have hstep : Tracks ((ofPairs l.pairs).apply op) ((l.packedWhile (0 < n)).apply op).2 :=
        (tracks_apply (l := l.packedWhile (0 < n)) (hops op List.mem_cons_self) hd).1
      have hrest := ih (fun o ho => hops o (List.mem_cons_of_mem op ho)) hstep.distinct (n - 1)
      rw [hstep.pairs] at hrest
      exact hrest

end Lookup

end DenseHash
