import DenseHash.Equality
import DenseHash.DenseSet
import DenseHash.Proofs.Container.Stored
import DenseHash.Proofs.Refinement

/-!
# Equality of dense maps

Two dense maps are compared by counting their entries and looking those of the one up in the other. That this is equality
of finite maps takes three things, of which the last two hold of any history: equal keys have equal hashes, in both maps;
a lookup finds every entry; and no map has a key twice.

* **`DistinctKeys.covers`** is the counting: where as many entries are all found, none of the others is left over.
* **`Lookup.Agree`** is equality of finite maps, and an equivalence if the values are compared by one.
* **`Container.sameMap_is_equality`:** the comparison gives an answer, and it is equality of the finite maps, or of the
  sets of keys.
-/

namespace DenseHash

variable {K V : Type} [BEq K]

/-! ## Counting -/

section Counting

variable [EquivBEq K] {ps qs : List (K × V)}

/-- If the keys of `ps` are all in `qs`, then `qs` has at least as many entries, and if it has no more then its keys are
    all in `ps`. -/
theorem DistinctKeys.covers (hd : DistinctKeys ps) (h : ∀ p ∈ ps, ∃ q ∈ qs, (q.1 == p.1) = true) :
    ps.length ≤ qs.length ∧ (qs.length ≤ ps.length → ∀ q ∈ qs, ∃ p ∈ ps, (p.1 == q.1) = true) := by
  induction ps generalizing qs with
  | nil =>
      refine ⟨Nat.zero_le _, fun hlength q hq => ?_⟩
      obtain rfl := List.length_eq_zero_iff.mp (Nat.le_zero.mp hlength)
      exact nomatch hq
  | cons p ps ih =>
      obtain ⟨hp, hd⟩ := List.pairwise_cons.mp hd
      obtain ⟨q, hq, hqp⟩ := h p List.mem_cons_self
      obtain ⟨as, bs, rfl⟩ := List.append_of_mem hq
      -- the other keys differ from that of `p`, so they are found without its match
      have hrest : ∀ p' ∈ ps, ∃ q' ∈ as ++ bs, (q'.1 == p'.1) = true := by
        intro p' hp'
        obtain ⟨q', hq', hqp'⟩ := h p' (List.mem_cons_of_mem p hp')
        refine ⟨q', ?_, hqp'⟩
        rcases List.mem_append.mp hq' with hmem | hmem
        · exact List.mem_append_left bs hmem
        · rcases List.mem_cons.mp hmem with rfl | hmem
          · exact absurd ((hp p' hp').symm.trans (BEq.trans (BEq.symm hqp) hqp')) Bool.false_ne_true
          · exact List.mem_append_right as hmem
      obtain ⟨hle, hback⟩ := ih hd hrest
      rw [List.length_append] at hle hback
      rw [List.length_append, List.length_cons, List.length_cons]
      refine ⟨by omega, fun hlength q' hq' => ?_⟩
      rcases List.mem_append.mp hq' with hmem | hmem
      · obtain ⟨p', hp', hkey⟩ := hback (by omega) q' (List.mem_append_left bs hmem)
        exact ⟨p', List.mem_cons_of_mem p hp', hkey⟩
      · rcases List.mem_cons.mp hmem with rfl | hmem
        · exact ⟨p, List.mem_cons_self, BEq.symm hqp⟩
        · obtain ⟨p', hp', hkey⟩ := hback (by omega) q' (List.mem_append_right as hmem)
          exact ⟨p', List.mem_cons_of_mem p hp', hkey⟩

end Counting

/-! ## Equality of finite maps -/

namespace Lookup

/-- The same keys, and equal values under each. -/
structure Agree [BEq V] (m m' : Lookup K V) : Prop where
  keys : ∀ key, (m key).isSome = (m' key).isSome
  values : ∀ {key p q}, m key = some p → m' key = some q → (p.2 == q.2) = true

variable {ps qs : List (K × V)} {p : K × V} {key : K}

/-- A key is present if an entry of the list has an equal one. -/
theorem isSome_ofPairs : (ofPairs ps key).isSome = true ↔ ∃ p ∈ ps, (p.1 == key) = true := by
  rw [ofPairs, List.find?_isSome]

variable [EquivBEq K]

/-- What the list says of the key of one of its entries. -/
theorem ofPairs_of_mem (hd : DistinctKeys ps) (hp : p ∈ ps) : ofPairs ps p.1 = some p := by
  obtain ⟨as, bs, rfl⟩ := List.append_of_mem hp
  exact ofPairs_present hd BEq.rfl

/-- Two lists with the same keys have the same length. -/
theorem length_eq_of_keys (hp : DistinctKeys ps) (hq : DistinctKeys qs)
    (h : ∀ key, (ofPairs ps key).isSome = (ofPairs qs key).isSome) : ps.length = qs.length := by
  refine Nat.le_antisymm (hp.covers fun p hmem => ?_).1 (hq.covers fun q hmem => ?_).1
  · apply isSome_ofPairs.mp
    rw [← h, ofPairs_of_mem hp hmem]
    rfl
  · apply isSome_ofPairs.mp
    rw [h, ofPairs_of_mem hq hmem]
    rfl

/-- Maps are equal if they have as many entries, and those of the one are found in the other. -/
theorem agree_iff [BEq V] (hp : DistinctKeys ps) (hq : DistinctKeys qs) :
    Agree (ofPairs ps) (ofPairs qs) ↔
      ps.length = qs.length ∧ ∀ p ∈ ps, ∃ q, ofPairs qs p.1 = some q ∧ (p.2 == q.2) = true := by
  constructor
  · intro h
    refine ⟨length_eq_of_keys hp hq h.keys, fun p hmem => ?_⟩
    have hself := ofPairs_of_mem hp hmem
    have hsome : (ofPairs qs p.1).isSome = true := by
      rw [← h.keys, hself]
      rfl
    obtain ⟨q, hfound⟩ := Option.isSome_iff_exists.mp hsome
    exact ⟨q, hfound, h.values hself hfound⟩
  · rintro ⟨hlength, hfound⟩
    have hcovers := hp.covers fun p hmem => by
      obtain ⟨q, hq, -⟩ := hfound p hmem
      exact isSome_ofPairs.mp (Option.isSome_iff_exists.mpr ⟨q, hq⟩)
    constructor
    · intro key
      rw [Bool.eq_iff_iff, isSome_ofPairs, isSome_ofPairs]
      constructor
      · rintro ⟨p, hmem, hkey⟩
        obtain ⟨q, hq, -⟩ := hfound p hmem
        rw [ofPairs_congr qs hkey] at hq
        exact isSome_ofPairs.mp (Option.isSome_iff_exists.mpr ⟨q, hq⟩)
      · rintro ⟨q, hmem, hkey⟩
        -- here the counting is needed: no entry of `qs` is left over
        obtain ⟨p, hp, hpq⟩ := hcovers.2 (Nat.le_of_eq hlength.symm) q hmem
        exact ⟨p, hp, BEq.trans hpq hkey⟩
    · intro key p q hpkey hqkey
      obtain ⟨q', hq', hvalue⟩ := hfound p (List.mem_of_find?_eq_some hpkey)
      have hkey : (p.1 == key) = true := List.find?_some (p := fun p : K × V => p.1 == key) hpkey
      rw [ofPairs_congr qs hkey, hqkey] at hq'
      rw [Option.some.inj hq']
      exact hvalue

omit [BEq K] [EquivBEq K] in
/-- To agree at every key is an equivalence. -/
theorem agree_equivalence [BEq V] [EquivBEq V] : Equivalence (Agree (K := K) (V := V)) where
  refl m := ⟨fun _ => rfl, fun hp hq => by
    rw [Option.some.inj (hp.symm.trans hq)]
    exact BEq.rfl⟩
  symm h := ⟨fun key => (h.keys key).symm, fun hp hq => BEq.symm (h.values hq hp)⟩
  trans {m m' m''} h h' := by
    refine ⟨fun key => (h.keys key).trans (h'.keys key), fun {key p q} hp hq => ?_⟩
    have hsome : (m' key).isSome = true := by
      rw [← h.keys, hp]
      rfl
    obtain ⟨r, hr⟩ := Option.isSome_iff_exists.mp hsome
    exact BEq.trans (h.values hp hr) (h'.values hr hq)

end Lookup

/-! ## Containers -/

namespace Container

section Compared

variable [Backing]

/-- Two containers have the same keys. -/
def SameKeySet (a b : Container K V) : Prop :=
  ∀ key, ∃ present, a.contains key = .ok present ∧ b.contains key = .ok present

/-- Two containers have the same keys, and equal values under each. -/
structure SameMapping [BEq V] (a b : Container K V) : Prop where
  keys : a.SameKeySet b
  values : ∀ {key value value'}, a.peek key = .ok (some value) → b.peek key = .ok (some value') →
    (value == value') = true

/-- What a dense map can be: whatever its settings, its hash functions and its history, except that equal keys have equal
    hashes. -/
def IsDenseMap (d : Container K V) : Prop :=
  ∃ settings hashing owner c events,
    hashing.Respects ∧ make settings .dense hashing owner = .ok c ∧ c.Reaches Any events d

variable {a b : Container K V} {slots slots' : List Slot} {ps qs : List (K × V)}

/-- Two containers have the same keys if the maps that they are have the same domain. -/
theorem Maps.sameKeySet_iff {m m' : Lookup K V} (h : a.Maps m) (h' : b.Maps m') :
    a.SameKeySet b ↔ ∀ key, (m key).isSome = (m' key).isSome := by
  refine forall_congr' fun key => ?_
  rw [h.contains, h'.contains]
  constructor
  · rintro ⟨present, hpresent, hpresent'⟩
    exact (Except.ok.inj hpresent).trans (Except.ok.inj hpresent').symm
  · intro heq
    exact ⟨_, rfl, congrArg Except.ok heq.symm⟩

variable [BEq V]

/-- They map alike if these maps agree. -/
theorem Maps.sameMapping_iff {m m' : Lookup K V} (h : a.Maps m) (h' : b.Maps m') : a.SameMapping b ↔ m.Agree m' := by
  constructor
  · intro hsame
    refine ⟨(h.sameKeySet_iff h').mp hsame.keys, fun {key p q} hp hq => ?_⟩
    have hvalue : a.peek key = .ok (some p.2) := by
      rw [h.peek, hp]
      rfl
    have hvalue' : b.peek key = .ok (some q.2) := by
      rw [h'.peek, hq]
      rfl
    exact hsame.values hvalue hvalue'
  · intro hagree
    refine ⟨(h.sameKeySet_iff h').mpr hagree.keys, fun {key value value'} hp hq => ?_⟩
    rw [h.peek] at hp
    rw [h'.peek] at hq
    obtain ⟨p, hfound, rfl⟩ := Option.map_eq_some_iff.mp (Except.ok.inj hp)
    obtain ⟨q, hfound', rfl⟩ := Option.map_eq_some_iff.mp (Except.ok.inj hq)
    exact hagree.values hfound hfound'

/-- Looking entries up tells whether they are all there. -/
theorem Maps.includes_eq {m : Lookup K V} (h : b.Maps m) (ps : List (K × V)) :
    ∃ found, b.includes ps = .ok found ∧ (found = true ↔ ∀ p ∈ ps, ∃ q, m p.1 = some q ∧ (p.2 == q.2) = true) := by
  induction ps with
  | nil => exact ⟨true, rfl, fun _ p hp => (nomatch hp), fun _ => rfl⟩
  | cons p ps ih =>
      obtain ⟨key, value⟩ := p
      obtain ⟨found, hfound, hiff⟩ := ih
      rw [includes, h.peek, Checked.ok_bind, List.forall_mem_cons, ← hiff]
      cases hm : m key with
      | none =>
          refine ⟨false, rfl, fun hfalse => absurd hfalse Bool.false_ne_true, ?_⟩
          rintro ⟨⟨q, hq, -⟩, -⟩
          exact nomatch hq
      | some q =>
          dsimp only [Option.map_some]
          cases hvalue : value == q.2 with
          | true =>
              rw [if_pos rfl]
              refine ⟨found, hfound, fun hf => ⟨⟨q, rfl, hvalue⟩, hf⟩, And.right⟩
          | false =>
              rw [if_neg Bool.false_ne_true]
              refine ⟨false, rfl, fun hfalse => absurd hfalse Bool.false_ne_true, ?_⟩
              rintro ⟨⟨q', hq', hvalue'⟩, -⟩
              obtain rfl := Option.some.inj hq'
              exact hvalue.symm.trans hvalue'

variable [EquivBEq K]

/-- Comparing two containers gives an answer, and tells whether they map alike. -/
theorem Shows.sameMap_eq (h : a.Shows slots ps) (h' : b.Shows slots' qs) (hr : a.hashing.Respects)
    (hr' : b.hashing.Respects) : ∃ same, a.sameMap b = .ok same ∧ (same = true ↔ a.SameMapping b) := by
  rw [(h.maps hr).sameMapping_iff (h'.maps hr'), Lookup.agree_iff (h.distinctKeys hr) (h'.distinctKeys hr'),
    sameMap, h.size_eq, h'.size_eq]
  by_cases hlength : ps.length = qs.length
  · obtain ⟨found, hfound, hiff⟩ := (h'.maps hr').includes_eq ps
    refine ⟨found, ?_, hiff.trans ⟨fun hall => ⟨hlength, hall⟩, And.right⟩⟩
    rw [if_pos hlength, h.toList_eq]
    exact hfound
  · refine ⟨false, ?_, fun hfalse => absurd hfalse Bool.false_ne_true, fun hboth => absurd hboth.1 hlength⟩
    rw [if_neg hlength]
    rfl

/-! ## Dense maps -/

namespace IsDenseMap

omit [BEq V] [EquivBEq K] in
/-- What operations lead to from a new dense map is a dense map. -/
theorem intro {settings : Settings} {hashing : Hashing K} {owner : OwnerId} {events : List Event}
    (hr : hashing.Respects)
    (hmake : make settings .dense hashing owner = .ok a) (hreach : a.Reaches Any events b) : b.IsDenseMap :=
  ⟨settings, hashing, owner, a, events, hr, hmake, hreach⟩

omit [BEq V] in
/-- A dense map shows some entries. -/
theorem exists_shows (h : a.IsDenseMap) : a.hashing.Respects ∧ ∃ slots ps, a.Shows slots ps := by
  obtain ⟨settings, hashing, owner, c, events, hr, hmake, hreach⟩ := h
  obtain ⟨hhashing, hshows⟩ := hreach.exists_shows .dense hmake
  exact ⟨hhashing ▸ hr, hshows⟩

omit [BEq V] in
/-- A dense map is some finite map. -/
theorem exists_maps (h : a.IsDenseMap) : ∃ m, a.Maps m := by
  obtain ⟨hr, slots, ps, hshows⟩ := h.exists_shows
  exact ⟨_, hshows.maps hr⟩

/-- Comparing two dense maps tells whether they map alike. -/
theorem sameMap_eq (h : a.IsDenseMap) (h' : b.IsDenseMap) :
    ∃ same, a.sameMap b = .ok same ∧ (same = true ↔ a.SameMapping b) := by
  obtain ⟨hr, slots, ps, hshows⟩ := h.exists_shows
  obtain ⟨hr', slots', qs, hshows'⟩ := h'.exists_shows
  exact hshows.sameMap_eq hshows' hr hr'

/-- Maps that are compared as equal have one finite map, up to what their values are compared by. -/
theorem sameMap_iff {m m' : Lookup K V} (h : a.IsDenseMap) (h' : b.IsDenseMap) (hm : a.Maps m) (hm' : b.Maps m') :
    a.sameMap b = .ok true ↔ m.Agree m' := by
  obtain ⟨same, hsame, hiff⟩ := h.sameMap_eq h'
  rw [hsame, Except.ok.injEq, hiff, hm.sameMapping_iff hm']

end IsDenseMap

theorem sameMap_equivalence [EquivBEq V] :
    Equivalence fun a b : { c : Container K V // c.IsDenseMap } => a.1.sameMap b.1 = .ok true where
  refl := by
    rintro ⟨a, ha⟩
    obtain ⟨m, hm⟩ := ha.exists_maps
    exact (ha.sameMap_iff ha hm hm).mpr (Lookup.agree_equivalence.refl m)
  symm := by
    rintro ⟨a, ha⟩ ⟨b, hb⟩ hab
    obtain ⟨m, hm⟩ := ha.exists_maps
    obtain ⟨m', hm'⟩ := hb.exists_maps
    exact (hb.sameMap_iff ha hm' hm).mpr (Lookup.agree_equivalence.symm ((ha.sameMap_iff hb hm hm').mp hab))
  trans := by
    rintro ⟨a, ha⟩ ⟨b, hb⟩ ⟨c, hc⟩ hab hbc
    obtain ⟨m, hm⟩ := ha.exists_maps
    obtain ⟨m', hm'⟩ := hb.exists_maps
    obtain ⟨m'', hm''⟩ := hc.exists_maps
    exact (ha.sameMap_iff hc hm hm'').mpr (Lookup.agree_equivalence.trans ((ha.sameMap_iff hb hm hm').mp hab)
      ((hb.sameMap_iff hc hm' hm'').mp hbc))

omit [EquivBEq K] in
/-- Sets have no values to differ in. -/
theorem sameMapping_set_iff {s t : DenseSet K} : SameMapping s t ↔ SameKeySet s t :=
  ⟨SameMapping.keys, fun h => ⟨h, fun _ _ => rfl⟩⟩

/-- Whatever two dense maps have gone through, comparing them gives an answer. It says whether they have the same keys
    with equal values, wherever the entries are and however they are looked up; so it is an equivalence if the values are
    compared by one. For sets it says whether they have the same keys. -/
theorem sameMap_is_equality :
    (∀ a b : Container K V, a.IsDenseMap → b.IsDenseMap →
        ∃ same, a.sameMap b = .ok same ∧ (same = true ↔ a.SameMapping b)) ∧
      (EquivBEq V → Equivalence fun a b : { c : Container K V // c.IsDenseMap } => a.1.sameMap b.1 = .ok true) ∧
      (∀ s t : DenseSet K, s.IsDenseMap → t.IsDenseMap →
        ∃ same, s.sameMap t = .ok same ∧ (same = true ↔ s.SameKeySet t)) ∧
      Equivalence fun s t : { c : DenseSet K // c.IsDenseMap } => s.1.sameMap t.1 = .ok true := by
  refine ⟨fun a b ha hb => ha.sameMap_eq hb, fun _ => sameMap_equivalence, fun s t hs ht => ?_, sameMap_equivalence⟩
  obtain ⟨same, hsame, hiff⟩ := hs.sameMap_eq ht
  exact ⟨same, hsame, hiff.trans sameMapping_set_iff⟩

end Compared

/-- A map whose entries the flood guard has moved, and a table with other hashes that a removal has reordered. -/
theorem sameMap_is_equality_moved :
    ∃ a b : Container Nat Nat, a.IsDenseMap ∧ b.IsDenseMap ∧ a.isFallback = true ∧ b.isFallback = false ∧
      a.toList = .ok [(0, 1), (4, 2), (2, 3)] ∧ b.toList = .ok [(2, 3), (0, 1), (4, 2)] ∧ a.SameMapping b ∧
      b.sameMap a = .ok true := by
  have hmake (hashing : Hashing Nat) (owner : OwnerId) : (make { maxChain := 1 } .dense hashing owner : Except _
      (Container Nat Nat)) = .ok ⟨hashing, .table (.empty .dense .threeQuarters 0), 1, 0, owner⟩ := rfl
  have hr (g : Nat → UInt64) : Hashing.Respects (⟨g, g⟩ : Hashing Nat) :=
    ⟨fun h => by rw [eq_of_beq h], fun _ _ _ h => by rw [eq_of_beq h]⟩
  have ha := IsDenseMap.intro (hr fun k => k.toUInt64) (hmake _ 0)
    (.apply (.apply (.apply .start (.insert 0 1) trivial) (.insert 4 2) trivial) (.insert 2 3) trivial)
  have hb := IsDenseMap.intro (hr fun k => k.toUInt64 * 3) (hmake _ 1)
    (.apply (.apply (.apply (.apply (.apply (.apply .start (.insert 9 9) trivial) (.insert 0 1) trivial)
      (.insert 4 2) trivial) (.insert 2 5) trivial) (.remove 9) trivial) (.insert 2 3) trivial)
  obtain ⟨hmaps, hvalues, -⟩ := sameMap_is_equality (K := Nat) (V := Nat)
  obtain ⟨same, hsame, hiff⟩ := hmaps _ _ ha hb
  refine ⟨_, _, ha, hb, by decide +kernel, by decide +kernel, by decide +kernel, by decide +kernel, ?_, ?_⟩
  · apply hiff.mp
    exact Except.ok.inj (hsame.symm.trans (by decide +kernel))
  · apply (hvalues inferInstance).symm (x := ⟨_, ha⟩) (y := ⟨_, hb⟩)
    dsimp only
    decide +kernel

end Container

end DenseHash
