import DenseHash.Proofs.Container.Room
import DenseHash.Proofs.Container.Upkeep
import DenseHash.Proofs.Table.Buckets

/-!
# The load factor is kept

A container of any kind is made with settings that are accepted and goes through any operations that return, removals
through cursors and copies. As long as its entries are in a table, `LoadLaw` says:

* **Room.** There are no buckets and no entries, or the buckets are a power of two from 4 to `2 ^ 30`, and the entries
  are no more than the product of the buckets and the load factor, cut to an integer.
* **Growth.** An insertion of a new key into buckets that are there changes their number if and only if the table is
  full, and then doubles it, once. There is room for the entries again after that.
* **Nothing else.** An update changes no number of buckets, and neither does any other operation at single entries or
  at all of them, nor a removal through a cursor. What is left are the insertion of new keys, requests for room and
  shrinking.

A refused insertion can leave the largest table overfilled, so the law is one of runs that return.
-/

namespace DenseHash

variable {K V : Type} [BEq K] {t t' : Table K V} {loadFactor : Binary64}

/-! ## Tables -/

namespace Table

/-- A table with the load factor it was made with, that has room for its entries. -/
structure Sized (loadFactor : Binary64) (t : Table K V) : Prop where
  intact : t.Intact
  isLoad : t.loadFactor.IsLoad
  loadFactor : t.loadFactor = loadFactor
  least : t.buckets ≠ 0 → minBuckets ≤ t.buckets
  within : t.size ≤ t.capacity

namespace Sized

/-- The number of buckets is a power of two within the bounds. -/
theorem exists_two_pow (h : t.Sized loadFactor) (hb : t.buckets ≠ 0) : ∃ k, 2 ≤ k ∧ k ≤ 30 ∧ t.buckets = 2 ^ k := by
  obtain ⟨is, hs⟩ := h.intact
  obtain ⟨k, hk30, hk⟩ := hs.exists_two_pow hb
  have hmin : 2 ^ 2 ≤ 2 ^ k := hk ▸ h.least hb
  exact ⟨k, (Nat.pow_le_pow_iff_right (by decide)).mp hmin, hk30, hk⟩

/-- The capacity is the exact product, cut to an integer. -/
theorem capacity_eq (h : t.Sized loadFactor) : t.capacity = ⌊(t.buckets : ℚ) * loadFactor.value⌋₊ := by
  rw [capacity]
  split
  · rename_i hb
    rw [hb, Nat.cast_zero, zero_mul, Nat.floor_zero]
  · rename_i hb
    obtain ⟨k, -, hk30, hk⟩ := h.exists_two_pow hb
    rw [hk, capacityOf_two_pow h.isLoad (hk30.trans (by decide)), h.loadFactor]
    push_cast
    rfl

/-- Twice the buckets have room for one entry more. -/
theorem capacity_lt_double (h : t.Sized loadFactor) (hb : t.buckets ≠ 0) :
    t.capacity + 1 ≤ capacityOf (2 * t.buckets) loadFactor := by
  obtain ⟨k, hk2, hk30, hk⟩ := h.exists_two_pow hb
  rw [capacity, if_neg hb, hk, ← Nat.pow_succ', ← h.loadFactor]
  exact capacityOf_lt_double h.isLoad hk2 (by omega)

/-- What happens at single entries. -/
theorem of_addsNothing (h : t.Sized loadFactor) (ht : t.AddsNothing t') : t'.Sized loadFactor where
  intact := ht.intact
  isLoad := ht.keeps.loadFactor ▸ h.isLoad
  loadFactor := ht.keeps.loadFactor.trans h.loadFactor
  least := by
    rw [ht.buckets]
    exact h.least
  within := by
    have hcapacity : t'.capacity = t.capacity := by rw [capacity, capacity, ht.buckets, ht.keeps.loadFactor]
    rw [hcapacity]
    exact ht.size_le.trans h.within

/-- A table that was rebuilt for its entries is sized. -/
theorem refits (h : t.Sized loadFactor) (hrefits : t.Refits t') (halike : t.Alike t') (hkeeps : t.Keeps t')
    (hintact : t'.Intact) : t'.Sized loadFactor := by
  rcases hrefits.room (size_congr halike.content) hkeeps.loadFactor with rfl | ⟨hroom, hmin⟩
  · exact h
  · exact ⟨hintact, hkeeps.loadFactor ▸ h.isLoad, hkeeps.loadFactor.trans h.loadFactor, fun _ => hmin, hroom⟩

/-- Making room keeps the law, refused or not. -/
theorem reserve (h : t.Sized loadFactor) (more : Nat) : (t.reserve more).Leaves (Sized loadFactor) := by
  obtain ⟨is, hs⟩ := h.intact
  by_cases hb : t.buckets = 0
  · rw [reserve_unallocated hb]
    exact ⟨⟨is, hs.expect _⟩, h.isLoad, h.loadFactor, h.least, h.within⟩
  · obtain ⟨halike, hsound⟩ := hs.reserve_leaves more
    exact h.refits (reserve_refits hs.small hb more) halike (reserve_keeps hb more) ⟨is, hsound⟩

/-- Shrinking keeps it, refused or not. -/
theorem shrink (h : t.Sized loadFactor) : t.shrink.Leaves (Sized loadFactor) := by
  obtain ⟨is, hs⟩ := h.intact
  obtain ⟨halike, hsound⟩ := hs.shrink_leaves
  by_cases hsize : t.size = 0
  · refine ⟨⟨is, hsound⟩, t.shrink_loadFactor ▸ h.isLoad, t.shrink_loadFactor.trans h.loadFactor, fun hb => ?_, ?_⟩
    · rw [shrink_empty hsize] at hb
      exact absurd rfl hb
    · rw [size_congr halike.content, hsize]
      exact Nat.zero_le _
  · exact h.refits (shrink_refits hsize) halike (shrink_keeps hsize) ⟨is, hsound⟩

/-- The buckets in force are no fewer than the smallest table has. -/
theorem le_inForce (h : t.Sized loadFactor) {u : Unit} (hok : t.allocate.result = .ok u) : minBuckets ≤ t.inForce := by
  by_cases hb : t.buckets = 0
  · exact (bucketsFor_spec (bucketsFor_of_allocate hb hok)).2.2.1
  · exact inForce_of_ne hb ▸ h.least hb

variable [EquivBEq K] {hash : UInt32} {key : K} {value : V} {chain : Nat} {resized : Bool}

/-- An insertion that returns keeps it. One that is refused may leave an entry too many. -/
theorem insert (h : t.Sized loadFactor) (hash : UInt32) (key : K) (value : V) :
    (t.insert hash key value).Yields (Sized loadFactor) := by
  intro outcome hok
  obtain ⟨is, hs⟩ := h.intact
  have hlf := (t.insert_keeps hash key value).loadFactor
  cases outcome with
  | updated old moved => exact h.of_addsNothing (hs.insert_updated hok)
  | added chain resized =>
      refine ⟨h.intact.insert_leaves hash key value, hlf ▸ h.isLoad, hlf.trans h.loadFactor, fun hb => ?_,
        hs.insert_room hok⟩
      have hallocated := hok
      rw [Table.insert] at hallocated
      obtain ⟨u, hu, -⟩ := Reply.andThen_result_eq_ok hallocated
      have hforce := h.le_inForce hu
      rcases (hs.insert_resizes hok).2 with ⟨-, -, hsame⟩ | ⟨-, -, hgrown⟩
      · exact hsame.symm ▸ hforce
      · have := Nat.le_of_dvd (Nat.pos_of_ne_zero hb) (enlarge_dvd hgrown)
        omega

/-- A full table doubles its buckets for a new key, and no other does. -/
theorem insert_doubles (h : t.Sized loadFactor) (hb : t.buckets ≠ 0)
    (hok : (t.insert hash key value).result = .ok (.added chain resized)) :
    (t.insert hash key value).state.buckets = if t.size = t.capacity then 2 * t.buckets else t.buckets := by
  obtain ⟨is, hs⟩ := h.intact
  have hwithin := h.within
  have hresizes := (hs.insert_resizes hok).2
  rw [inForce_of_ne hb, ← show t.capacity = capacityOf t.buckets t.loadFactor from if_neg hb] at hresizes
  rcases hresizes with ⟨hroom, -, hsame⟩ | ⟨hfull, -, hgrown⟩
  · rw [if_neg (by omega), hsame]
  · have hdouble := h.capacity_lt_double hb
    have hbounded := hs.bounded
    have hword : 2 * maxBuckets < wordValues := by decide
    rw [← h.loadFactor] at hdouble
    rw [if_pos (by omega)]
    exact Except.ok.inj (hgrown.symm.trans (enlarge_of_room 63 (by omega) (by omega)))

end Sized

/-- Every operation that returns keeps the law. -/
theorem sized_upkeep [EquivBEq K] (loadFactor : Binary64) : Upkeep (Sized loadFactor : Table K V → Prop) where
  intact := fun h => h.intact
  addsNothing := fun h hadds => h.of_addsNothing hadds
  insert := fun h => h.insert
  reserve := fun h more => (h.reserve more).yields
  shrink := fun h => h.shrink.yields

end Table

/-! ## Containers -/

namespace Container

section Loaded

variable [Backing] {c d : Container K V} {key : K} {value : V}

/-- What holds of the table of a container that only operations that return have led to. -/
structure LoadLaw (loadFactor : Binary64) (d : Container K V) (t : Table K V) : Prop where
  buckets : t.buckets = 0 ∧ t.size = 0 ∨ ∃ k, 2 ≤ k ∧ k ≤ 30 ∧ t.buckets = 2 ^ k
  capacity : d.capacity? = some t.capacity ∧ t.capacity = ⌊(t.buckets : ℚ) * loadFactor.value⌋₊
  within : d.size ≤ t.capacity
  /-- Twice the buckets have room for one entry more, so growing never has to double them again. -/
  doubles : t.buckets ≠ 0 → t.capacity + 1 ≤ capacityOf (2 * t.buckets) loadFactor
  /-- A new key. -/
  grows : ∀ {key value t'}, t.buckets ≠ 0 → (d.insert key value).result = .ok none →
    (d.insert key value).state.store = .table t' →
      (t'.buckets ≠ t.buckets ↔ d.size = t.capacity) ∧ (t'.buckets ≠ t.buckets → t'.buckets = 2 * t.buckets) ∧
        t'.size = t.size + 1 ∧ t'.size ≤ t'.capacity
  /-- A key that is there. -/
  updates : ∀ {key value old}, (d.insert key value).result = .ok (some old) →
    ∃ t', (d.insert key value).state.store = .table t' ∧ t'.buckets = t.buckets
  steady : ∀ {op}, ¬MayRebuild op → ∃ t', (d.apply op).state.store = .table t' ∧ t'.buckets = t.buckets
  cursors : ∀ cur : Cursor, ∃ t', (cur.remove d).state.1.store = .table t' ∧ t'.buckets = t.buckets

/-- What keeps the form of storage keeps the number of buckets. -/
theorem KeepsForm.exists_table {α : Type} {r : Reply (Container K V) α} (h : KeepsForm c r) (hs : c.store = .table t) :
    ∃ t', r.state.store = .table t' ∧ t'.buckets = t.buckets := by
  have hform := h.form
  rw [hs] at hform
  cases hs' : r.state.store with
  | fallback f =>
      rw [hs'] at hform
      cases hform
  | table t' =>
      rw [hs'] at hform
      cases hform with
      | table hadds => exact ⟨t', rfl, hadds.buckets⟩

/-- A container that was just made has room for its entries. -/
theorem sized_of_make {settings : Settings} {order : Order} {hashing : Hashing K} {owner : OwnerId}
    (horder : order.Fresh)
    (hmake : make settings order hashing owner = .ok c) : c.OnTable (Table.Sized settings.loadFactor) := by
  obtain ⟨hcheck, rfl⟩ := eq_of_make hmake
  intro t ht
  obtain rfl := Store.table.inj ht
  exact ⟨⟨[], Table.sound_empty horder.lists _ _⟩, (Settings.of_check hcheck).1, rfl, fun hb => absurd rfl hb,
    Nat.zero_le _⟩

variable [EquivBEq K]

/-- A container whose table is sized obeys the law. -/
theorem loadLaw_of_sized (h : t.Sized loadFactor) (hd : d.store = .table t) : d.LoadLaw loadFactor t := by
  obtain ⟨is, hs⟩ := h.intact
  have hintact : d.store.Intact := by
    rw [hd]
    exact h.intact
  have hsize : d.size = t.size := by rw [size, hd]; rfl
  refine ⟨?_, ⟨by rw [capacity?, hd], h.capacity_eq⟩, hsize ▸ h.within, h.capacity_lt_double,
    fun hb hok hs' => ?_, fun hok => ?_,
    fun hop => (apply_keepsForm hintact hop).exists_table hd,
    fun cur => (cursor_remove_keepsForm hintact cur).exists_table hd⟩
  · by_cases hb : t.buckets = 0
    · exact .inl ⟨hb, hs.unallocated hb⟩
    · exact .inr (h.exists_two_pow hb)
  · obtain ⟨chain, resized, hadded, rfl⟩ := insert_of_none hd hok hs'
    have hdoubles := h.insert_doubles hb hadded
    rw [hsize, hdoubles]
    refine ⟨?_, ?_, (hs.insert_added hadded).2.1, hs.insert_room hadded⟩
    · split <;> simp_all
    · split <;> simp_all
  · obtain ⟨moved, hupdated, hs'⟩ := insert_of_some hd hok
    exact ⟨_, hs', (hs.insert_updated hupdated).buckets⟩

/-- The law of the load factor, over every run of operations that return, for every kind of container, every hash
    function and all settings that are accepted. -/
theorem load_factor_law {settings : Settings} {order : Order} {hashing : Hashing K} {owner : OwnerId}
    {events : List Event}
    (horder : order.Fresh) (hmake : make settings order hashing owner = .ok c) (hreach : c.Reaches Returns events d)
    (hd : d.store = .table t) : d.LoadLaw settings.loadFactor t :=
  loadLaw_of_sized ((Table.sized_upkeep settings.loadFactor).reaches hreach (sized_of_make horder hmake) t hd) hd

end Loaded

/-- Three entries fill the four buckets of a new table, and a fourth one doubles them. -/
theorem load_factor_law_full :
    ∃ (c d : Container Nat Nat) (t t' : Table Nat Nat),
      make {} .dense ⟨fun _ => 0, ⟨fun _ _ => 0⟩⟩ 0 = .ok c ∧ c.Reaches Returns [] d ∧ d.store = .table t ∧
        t.buckets = 4 ∧ (d.insert 4 40).state.store = .table t' ∧ t'.buckets = 8 ∧ d.LoadLaw .threeQuarters t := by
  have hreach : ((⟨⟨fun _ => 0, ⟨fun _ _ => 0⟩⟩, .table (.empty .dense .threeQuarters 0), 9, 0, 0⟩ :
      Container Nat Nat)).Reaches Returns [] _ :=
    .apply (.apply (.apply .start (.insert 1 10) ⟨.value none, rfl⟩) (.insert 2 20) ⟨.value none, rfl⟩)
      (.insert 3 30) ⟨.value none, rfl⟩
  have hmake : (make {} .dense ⟨fun _ => 0, ⟨fun _ _ => 0⟩⟩ 0 : Except _ (Container Nat Nat)) = .ok _ := rfl
  exact ⟨_, _, _, _, hmake, hreach, rfl, rfl, rfl, rfl, load_factor_law .dense hmake hreach rfl⟩

end Container

end DenseHash
