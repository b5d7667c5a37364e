import DenseHash.Proofs.Table.Roster

/-!
# Runs of a table refine runs of a roster

The state machine that the rosters are says what a run of a table reports: every index, every length of chain, and every
move in the order of use.

* **One action** that gives a result reports what the roster reports, and leaves what the roster lists
  (`Models.perform_of_ok`).
* **A fault** comes from a limit of size or from an index that is not there (`Models.perform_error`).
* **A run** is one action after the other (`run_eq_roster_run`).
-/

namespace DenseHash

namespace Table

variable {K V : Type} [BEq K] {t t' : Table K V} {r : Roster K V} {is as bs : List Nat} {i : Nat} {hash : UInt32}
  {key stored : K} {value old : V}

/-- A sound table that has the entries of a roster, at the same indices and in the same order. -/
structure Models (t : Table K V) (is : List Nat) (r : Roster K V) : Prop where
  sound : t.Sound is
  indexed : t.Tracks .dense (List.range t.size) r.indexed
  traversed : t.Tracks t.order is r.traversed

/-- An empty table has the entries of an empty roster. -/
theorem models_empty {order : Order} (h : order.Fresh) (loadFactor : Binary64) (expected : Nat) :
    (empty order loadFactor expected : Table K V).Models [] (.empty order) where
  sound := sound_empty h.lists loadFactor expected
  indexed := ⟨rfl, rfl, rfl, rfl⟩
  traversed := ⟨h.lists, rfl, rfl, rfl⟩

/-! ## Insertion into a roster -/

/-- A roster with the key updates it, wherever it stands in its two orders. -/
theorem Roster.insert_present {buckets place : Nat} {loadFactor : Binary64} {name stored : UInt32 × K} {old : V}
    (hindexed : r.indexed.locate? name = some (i, stored, old))
    (htraversed : r.traversed.locate? name = some (place, stored, old)) :
    r.insert buckets loadFactor name value =
      (.updated old (r.moves place), ⟨r.indexed.use i (stored, value), r.traversed.use place (stored, value)⟩) := by
  simp [Roster.insert, Listing.insert, hindexed, htraversed]

/-- A roster without the key appends it to both orders, and tells how long its chain is. -/
theorem Roster.insert_absent {buckets : Nat} {loadFactor : Binary64} {name : UInt32 × K}
    (hindexed : r.indexed.locate? name = none) (htraversed : r.traversed.locate? name = none) :
    r.insert buckets loadFactor name value =
      (.added (1 + r.load buckets name.1) (decide (capacityOf buckets loadFactor < r.size + 1)),
        ⟨{ r.indexed with pairs := r.indexed.pairs ++ [(name, value)] },
          { r.traversed with pairs := r.traversed.pairs ++ [(name, value)] }⟩) := by
  simp [Roster.insert, Listing.insert, hindexed, htraversed]

omit [BEq K] in
/-- Replacing an entry does not change the size. -/
theorem size_of_update {pair pair' : K × V} (hc : t.content i = some (hash, pair))
    (h : t'.content = Function.update t.content i (some (hash, pair'))) : t'.size = t.size := by
  rw [← length_hashes, hashes_of_update hc h, length_hashes]

omit [BEq K] in
/-- The indices, split at one of them. -/
theorem range_eq_append (hi : i < t.size) : ∃ bs, List.range t.size = List.range i ++ i :: bs := by
  obtain ⟨as, bs, hsplit⟩ := List.append_of_mem (List.mem_range.mpr hi)
  obtain ⟨rfl, -, -⟩ := range_split hsplit
  exact ⟨bs, hsplit⟩

namespace Models

/-! ## Reading -/

/-- A table with the same entries in the same order models the same roster. -/
theorem congr (h : t.Models is r) (hsound : t'.Sound is) (halike : t.Alike t') : t'.Models is r where
  sound := hsound
  indexed := by
    rw [size_congr halike.content]
    exact h.indexed.congr (congrArg List.range (size_congr halike.content).symm) (.refl _) halike.content
  traversed := h.traversed.congr hsound.order (halike.order ▸ .refl _) halike.content

/-- At each place in the order of indices stands the row of that index. -/
theorem getElem?_eq (h : t.Models is r) (i : Nat) : r.indexed.pairs[i]? = t.rowAt i := by
  by_cases hi : i < t.size
  · obtain ⟨row, hrow⟩ := exists_rowAt hi
    obtain ⟨bs, hrange⟩ := range_eq_append hi
    have hindexed := h.indexed
    rw [hrange] at hindexed
    obtain ⟨hpairs, hlength, -⟩ := hindexed.split hrow
    rw [List.length_range] at hlength
    rw [hpairs, List.getElem?_append_right (Nat.le_of_eq hlength), hlength, Nat.sub_self, List.getElem?_cons_zero, hrow]
  · rw [List.getElem?_eq_none (by rw [h.indexed.length_pairs]; omega), rowAt, Function.comp_apply,
      content_eq_none (Nat.not_lt.mp hi)]
    rfl

theorem row?_eq_none (h : t.Models is r) (hi : t.size ≤ i) : r.row? i = none := by
  rw [Roster.row?, h.getElem?_eq, rowAt, Function.comp_apply, content_eq_none hi]
  rfl

theorem size_eq (h : t.Models is r) : r.size = t.size := h.indexed.length_pairs

theorem hashes_eq (h : t.Models is r) : t.hashes = r.indexed.pairs.map fun row => row.1.1 := by
  rw [h.indexed.pairs, List.map_filterMap, Table.hashes_eq]
  refine List.filterMap_congr fun i _ => ?_
  rw [hashAt, rowAt, Function.comp_apply, Option.map_map]
  rfl

/-- The roster counts as many hashes for a bucket as the table has. -/
theorem load_eq (h : t.Models is r) (buckets : Nat) (hash : UInt32) :
    r.load buckets hash = t.hashes.countP fun hash' => bucketIndex buckets hash' == bucketIndex buckets hash := by
  rw [h.hashes_eq, List.countP_map]
  rfl

/-- Where a key stands, if it is there. -/
theorem indexed_present [EquivBEq K] (h : t.Models is r) (hc : t.content i = some (hash, stored, value))
    (hkey : (stored == key) = true) : r.indexed.locate? (hash, key) = some (i, (hash, stored), value) := by
  obtain ⟨bs, hrange⟩ := range_eq_append (lt_size_of_content hc)
  have hindexed := h.indexed
  rw [hrange] at hindexed
  rw [hindexed.locate?_present h.sound hc hkey, List.length_range]

/-- Where an entry stands in the traversal. -/
theorem row?_eq_some [EquivBEq K] (h : t.Models (as ++ i :: bs) r) (hc : t.content i = some (hash, stored, value)) :
    r.row? i = some (as.length, (hash, stored), value) := by
  rw [Roster.row?, h.getElem?_eq, rowAt_of_content hc]
  show (r.traversed.locate? (hash, stored)).bind _ = _
  rw [h.traversed.locate?_present h.sound hc BEq.rfl]
  rfl

/-- A use moves all entries but the last one, in the order of use. -/
theorem moves_eq (h : t.Models (as ++ i :: bs) r) : r.moves as.length = (t.order.byAccess && !bs.isEmpty) := by
  obtain ⟨row, hrow⟩ := h.traversed.exists_row i (by simp)
  obtain ⟨-, hlength, hempty⟩ := h.traversed.split hrow
  rw [Roster.moves, h.traversed.byAccess, h.traversed.length_pairs, ← h.sound.order.length_eq]
  congr 1
  cases bs with
  | nil => simp
  | cons b bs => simp

/-! ## One action -/

/-- Both lists of a roster follow a value that was replaced and so used. -/
theorem use (h : t.Models (as ++ i :: bs) r) (hc : t.content i = some (hash, stored, old))
    (hkind : t.order.SameKind t'.order) (hsound : t'.Sound (used t.order.byAccess as i bs))
    (hcontent : t'.content = Function.update t.content i (some (hash, stored, value))) :
    t'.Models (used t.order.byAccess as i bs)
      ⟨r.indexed.use i ((hash, stored), value), r.traversed.use as.length ((hash, stored), value)⟩ := by
  obtain ⟨bs', hrange⟩ := range_eq_append (lt_size_of_content hc)
  have hsize : t'.size = t.size := size_of_update hc hcontent
  refine ⟨hsound, ?_, h.traversed.use hc hkind hcontent hsound.order⟩
  have hindexed := h.indexed
  rw [hrange] at hindexed
  have hused := hindexed.use hc (.refl _) hcontent
    (show List.range i ++ i :: bs' = List.range t'.size by rw [hsize, hrange])
  rw [List.length_range] at hused
  rw [hsize, hrange]
  exact hused

/-- An insertion that returns does and reports what the roster does. -/
theorem insert_of_ok [EquivBEq K] {outcome : Inserted V} (h : t.Models is r)
    (hok : (t.insert hash key value).result = .ok outcome) :
    (r.insert t.inForce t.loadFactor (hash, key) value).1 = outcome ∧
      ∃ is', (t.insert hash key value).state.Models is' (r.insert t.inForce t.loadFactor (hash, key) value).2 := by
  obtain ⟨hinserts, hkind⟩ := (h.sound.insert_meets hash key value).of_ok hok
  cases hinserts with
  | @updated as bs i stored old t' split found same sound content =>
      subst split
      have hindexed := h.indexed_present found same
      have htraversed := h.traversed.locate?_present h.sound found same
      rw [Roster.insert_present hindexed htraversed]
      exact ⟨congrArg (Inserted.updated old) h.moves_eq, _, h.use found hkind sound content⟩
  | @added chain resized t' absent sound content =>
      obtain ⟨hchain, hgrown⟩ := h.sound.insert_resizes hok
      have hindexed := h.indexed.locate?_absent absent
      have htraversed := h.traversed.locate?_absent absent
      rw [Roster.insert_absent hindexed htraversed]
      refine ⟨?_, is ++ [t.size], sound, ?_, ?_⟩
      · rw [h.load_eq, h.size_eq, ← hchain]
        rcases hgrown with ⟨hroom, rfl, -⟩ | ⟨hfull, rfl, -⟩
        · rw [decide_eq_false (Nat.not_lt.mpr hroom)]
        · rw [decide_eq_true hfull]
      · have hsize := h.sound.size_of_listed sound
        rw [hsize, List.range_succ]
        exact h.indexed.push (.refl _) content (show _ = List.range _ by rw [hsize, List.range_succ])
      · exact h.traversed.push hkind content sound.order

/-- A removal at an index that succeeds returns and leaves what the roster does. -/
theorem removeAt_of_ok [EquivBEq K] {pair : K × V} (h : t.Models is r) (hok : t.removeAt i = .ok (pair, t')) :
    ∃ r' is', r.removeAt i = some (pair, r') ∧ t'.Models is' r' := by
  obtain ⟨e, he, -⟩ := Checked.bind_eq_ok hok
  have hc := content_of_entry he
  have hi := lt_size_of_content hc
  obtain ⟨as, bs, rfl⟩ := List.append_of_mem (h.sound.mem_of_content hc)
  obtain ⟨t₁, ht₁, hremoves⟩ := h.sound.removeAt_eq hc
  obtain ⟨rfl, rfl⟩ := Prod.mk.inj (Except.ok.inj (ht₁.symm.trans hok))
  have hcontent : ∀ k < t.size, k ≠ i → t₁.content (reindex i (t.size - 1) k) = t.content k := by
    intro k hk hne
    refine hremoves.content k ?_
    have hmem := h.sound.mem_iff.mpr hk
    simp only [List.mem_append, List.mem_cons] at hmem ⊢
    tauto
  refine ⟨_, _, by rw [Roster.removeAt, h.row?_eq_some hc]; rfl, hremoves.sound, ?_,
    h.traversed.removeAt hi hremoves.kind hcontent hremoves.sound.order⟩
  obtain ⟨bs', hrange⟩ := range_eq_append hi
  have hclosed : (List.range i ++ lastFirst bs').map (reindex i (t.size - 1)) = List.range t₁.size := by
    rw [map_reindex_range hrange, hremoves.size]
  have hindexed := h.indexed
  rw [hrange] at hindexed
  have hremoved := hindexed.removeAt hi (.refl _) hcontent hclosed
  rw [List.length_range] at hremoved
  rw [← hclosed]
  exact hremoved

/-- A use that succeeds moves what the roster moves. -/
theorem touch_of_ok [EquivBEq K] {moved : Bool} (h : t.Models is r) (hok : t.touch i = .ok (moved, t'))
    (buckets : Nat) (loadFactor : Binary64) :
    ∃ r' is', r.apply buckets loadFactor (.touch i) = some (.moved moved, r') ∧ t'.Models is' r' := by
  by_cases hi : i < t.size
  · obtain ⟨as, bs, rfl⟩ := List.append_of_mem (h.sound.mem_iff.mpr hi)
    obtain ⟨hash, key, value, hc⟩ := h.sound.content_of_mem (h.sound.mem_iff.mpr hi)
    obtain ⟨t₁, ht₁, hkind, hsound, hcontent⟩ := h.sound.touch_eq
    obtain ⟨rfl, rfl⟩ := Prod.mk.inj (Except.ok.inj (ht₁.symm.trans hok))
    have hsame : t₁.content = Function.update t.content i (some (hash, key, value)) := by
      rw [← hc, Function.update_eq_self, hcontent]
    have hsize : t₁.size = t.size := size_congr hcontent
    rw [Roster.apply, h.row?_eq_some hc, ← h.moves_eq]
    refine ⟨_, _, rfl, hsound, ?_, h.traversed.use hc hkind hsame hsound.order⟩
    rw [hsize]
    exact h.indexed.congr (congrArg List.range hsize.symm) (.refl _) hcontent
  · obtain ⟨rfl, rfl⟩ := h.sound.touch_missing (Nat.not_lt.mp hi) hok
    rw [Roster.apply, h.row?_eq_none (Nat.not_lt.mp hi)]
    exact ⟨r, is, rfl, h⟩

/-- A value that could be replaced is replaced in the roster. -/
theorem setValue_of_ok [EquivBEq K] (h : t.Models is r) (hok : t.setValue i value = .ok t')
    (buckets : Nat) (loadFactor : Binary64) :
    ∃ r' is', r.apply buckets loadFactor (.setValue i value) = some (.done, r') ∧ t'.Models is' r' := by
  have hi : i < t.size := by
    by_contra hi
    rw [Table.setValue, if_neg hi] at hok
    cases hok
  obtain ⟨as, bs, rfl⟩ := List.append_of_mem (h.sound.mem_iff.mpr hi)
  obtain ⟨hash, key, old, hc⟩ := h.sound.content_of_mem (h.sound.mem_iff.mpr hi)
  obtain ⟨t₁, ht₁, hsound, horder, hcontent⟩ := h.sound.setValue_eq hc value
  obtain rfl : t₁ = t' := Except.ok.inj (ht₁.symm.trans hok)
  have hsize : t₁.size = t.size := size_of_update hc hcontent
  obtain ⟨bs', hrange⟩ := range_eq_append hi
  have hindexed := h.indexed
  rw [hrange] at hindexed
  have hrevalued := hindexed.revalue hc hcontent (show _ = List.range _ by rw [hsize, hrange])
  rw [← hrange, List.length_range, ← hsize] at hrevalued
  rw [Roster.apply, h.row?_eq_some hc]
  exact ⟨_, _, rfl, hsound, hrevalued, horder ▸ h.traversed.revalue hc hcontent (horder ▸ hsound.order)⟩

theorem cleared (h : t.Models is r) : t.cleared.Models [] r.cleared where
  sound := sound_cleared h.sound
  indexed := ⟨rfl, rfl, h.indexed.packed, h.indexed.byAccess⟩
  traversed := ⟨(sound_cleared h.sound).order, rfl, h.traversed.packed.trans t.order.cleared_sameKind.2.symm,
    h.traversed.byAccess.trans t.order.cleared_sameKind.1.symm⟩

/-- The entries are traversed as the roster has them. -/
theorem pairs_eq (h : t.Models is r) : t.pairs = .ok (r.traversed.pairs.map fun row => (row.1.2, row.2)) := by
  rw [h.sound.pairs_eq, h.traversed.pairs, List.map_filterMap]
  refine congrArg Except.ok (List.filterMap_congr fun i _ => ?_)
  rw [pair?, rowAt, Function.comp_apply, Option.map_map]
  rfl

/-- A lookup finds the place in the order of indices. -/
theorem find_eq [EquivBEq K] (h : t.Models is r) (hash : UInt32) (key : K) :
    t.find hash key = .ok ((r.indexed.locate? (hash, key)).map Prod.fst) := by
  obtain ⟨found, hfind, hholds⟩ := h.sound.find_eq hash key
  rw [hfind]
  cases found with
  | none =>
      have habsent : ∀ i, t.holds hash key i = false := fun i => Bool.eq_false_iff.mpr fun hi => nomatch (hholds i).mpr hi
      rw [h.indexed.locate?_absent habsent]
      rfl
  | some i =>
      obtain ⟨stored, value, hc, hkey⟩ := holds_iff.mp ((hholds i).mp rfl)
      rw [h.indexed_present hc hkey]
      rfl

/-- A removal by key that returns does what the roster does. -/
theorem remove_of_ok [EquivBEq K] {pair : Option (K × V)} (h : t.Models is r)
    (hok : t.remove hash key = .ok (pair, t')) (buckets : Nat) (loadFactor : Binary64) :
    ∃ r' is', r.apply buckets loadFactor (.remove hash key) = some (.pair pair, r') ∧ t'.Models is' r' := by
  rw [h.sound.remove_eq, h.find_eq, Checked.ok_bind] at hok
  rw [Roster.apply]
  cases hlocate : r.indexed.locate? (hash, key) with
  | none =>
      rw [hlocate] at hok
      obtain ⟨rfl, rfl⟩ := Prod.mk.inj (Except.ok.inj hok)
      exact ⟨r, is, rfl, h⟩
  | some found =>
      obtain ⟨i, row⟩ := found
      rw [hlocate] at hok
      obtain ⟨⟨p, t₁⟩, hremoved, hok⟩ := Checked.bind_eq_ok hok
      obtain ⟨rfl, rfl⟩ := Prod.mk.inj (Except.ok.inj hok)
      obtain ⟨r', is', happly, hmodels⟩ := h.removeAt_of_ok hremoved
      refine ⟨r', is', ?_, hmodels⟩
      dsimp only
      rw [happly]
      rfl

end Models

omit [BEq K] in
/-- A change that may find damage gave a result: then it was made. -/
theorem ofChecked_of_ok {α β : Type} {outcome : Checked (α × Table K V)} {g : α → β} {b : β}
    (h : ((t.ofChecked outcome).map g).result = .ok b) :
    ∃ a t', outcome = .ok (a, t') ∧ g a = b ∧ ((t.ofChecked outcome).map g).state = t' := by
  cases outcome with
  | ok change => exact ⟨change.1, change.2, rfl, Except.ok.inj h, rfl⟩
  | error f => exact nomatch h

variable [EquivBEq K] {action : Action K V} {report : Report K V}

/-- An action that gives a result reports what the roster says, and leaves what the roster lists. -/
theorem Models.perform_of_ok (h : t.Models is r) (hok : (t.perform action).result = .ok report) :
    ∃ r' is', r.apply t.inForce t.loadFactor action = some (report, r') ∧ (t.perform action).state.Models is' r' := by
  cases action with
  | insert hash key value =>
      obtain ⟨outcome, houtcome, rfl⟩ := Reply.map_result_eq_ok hok
      obtain ⟨rfl, is', hmodels⟩ := h.insert_of_ok houtcome
      exact ⟨_, is', rfl, hmodels⟩
  | find hash key =>
      rw [perform, h.find_eq] at hok
      obtain rfl := Except.ok.inj hok
      exact ⟨r, is, rfl, h⟩
  | remove hash key =>
      obtain ⟨pair, t', hremoved, rfl, hstate⟩ := ofChecked_of_ok hok
      rw [perform, hstate]
      exact h.remove_of_ok hremoved _ _
  | removeAt i =>
      obtain ⟨pair, t', hremoved, rfl, hstate⟩ := ofChecked_of_ok hok
      obtain ⟨r', is', happly, hmodels⟩ := h.removeAt_of_ok hremoved
      rw [perform, hstate]
      exact ⟨r', is', by rw [Roster.apply, happly]; rfl, hmodels⟩
  | touch i =>
      obtain ⟨moved, t', htouched, rfl, hstate⟩ := ofChecked_of_ok hok
      rw [perform, hstate]
      exact h.touch_of_ok htouched _ _
  | setValue i value =>
      obtain ⟨u, t', hset, rfl, hstate⟩ := ofChecked_of_ok hok
      rw [perform, hstate]
      cases hset' : t.setValue i value with
      | ok t₁ =>
          rw [hset'] at hset
          obtain rfl : t₁ = t' := (Prod.mk.inj (Except.ok.inj hset)).2
          exact h.setValue_of_ok hset' _ _
      | error f =>
          rw [hset'] at hset
          cases hset
  | reserve more =>
      obtain ⟨u, hu, rfl⟩ := Reply.map_result_eq_ok hok
      obtain ⟨halike, hsound⟩ := (h.sound.reserve_meets more).of_ok hu
      exact ⟨r, is, rfl, h.congr hsound halike⟩
  | resize log =>
      obtain ⟨u, hu, rfl⟩ := Reply.map_result_eq_ok hok
      obtain ⟨halike, hsound⟩ := (h.sound.resize_meets (Nat.one_shiftLeft log)).of_ok hu
      exact ⟨r, is, rfl, h.congr hsound halike⟩
  | shrink =>
      obtain ⟨u, hu, rfl⟩ := Reply.map_result_eq_ok hok
      obtain ⟨halike, hsound⟩ := h.sound.shrink_meets.of_ok hu
      exact ⟨r, is, rfl, h.congr hsound halike⟩
  | clear =>
      obtain rfl := Except.ok.inj hok
      exact ⟨_, _, rfl, h.cleared⟩
  | take =>
      obtain ⟨pairs, t', htaken, rfl, hstate⟩ := ofChecked_of_ok hok
      rw [Table.take, h.pairs_eq, Checked.ok_bind] at htaken
      obtain ⟨rfl, rfl⟩ := Prod.mk.inj (Except.ok.inj htaken)
      rw [perform, hstate]
      exact ⟨_, _, rfl, h.cleared⟩

/-! ## Faults -/

omit [BEq K] [EquivBEq K] in
/-- The index that an action is done at. -/
def Action.index? : Action K V → Option Nat
  | .removeAt i | .touch i | .setValue i _ => some i
  | _ => none

/-- Whether an action may make or rebuild buckets. -/
def Action.sizes : Action K V → Bool
  | .insert .. | .reserve _ | .resize _ | .shrink => true
  | _ => false

/-- An action fails because of a limit of size, if it may make buckets, or because its index is not there. -/
theorem Models.perform_error {f : Fault} (h : t.Models is r) (herr : (t.perform action).result = .error f) :
    (f.IsLimit ∧ action.sizes = true) ∨ ∃ i, action.index? = some i ∧ t.size ≤ i := by
  have hthere : ∀ {i}, i < t.size → ∃ as bs hash key value, is = as ++ i :: bs ∧ t.content i = some (hash, key, value) := by
    intro i hi
    obtain ⟨as, bs, hsplit⟩ := List.append_of_mem (h.sound.mem_iff.mpr hi)
    obtain ⟨hash, key, value, hc⟩ := h.sound.content_of_mem (h.sound.mem_iff.mpr hi)
    exact ⟨as, bs, hash, key, value, hsplit, hc⟩
  cases action with
  | insert hash key value =>
      exact .inl ⟨(h.sound.insert_meets hash key value).of_error (Reply.map_result_eq_error herr), rfl⟩
  | find hash key =>
      rw [perform, h.find_eq] at herr
      cases herr
  | remove hash key =>
      obtain ⟨change, hremoved⟩ := (Intact.wellFormed ⟨is, h.sound⟩).removes hash key
      rw [perform, hremoved] at herr
      cases herr
  | removeAt i =>
      refine .inr ⟨i, rfl, Nat.not_lt.mp fun hi => ?_⟩
      obtain ⟨as, bs, hash, key, value, rfl, hc⟩ := hthere hi
      obtain ⟨t', ht', -⟩ := h.sound.removeAt_eq hc
      rw [perform, ht'] at herr
      cases herr
  | touch i =>
      refine .inr ⟨i, rfl, Nat.not_lt.mp fun hi => ?_⟩
      obtain ⟨as, bs, hash, key, value, rfl, hc⟩ := hthere hi
      obtain ⟨t', ht', -⟩ := h.sound.touch_eq
      rw [perform, ht'] at herr
      cases herr
  | setValue i value =>
      refine .inr ⟨i, rfl, Nat.not_lt.mp fun hi => ?_⟩
      obtain ⟨as, bs, hash, key, old, rfl, hc⟩ := hthere hi
      obtain ⟨t', ht', -⟩ := h.sound.setValue_eq hc value
      rw [perform, ht'] at herr
      cases herr
  | reserve more => exact .inl ⟨(h.sound.reserve_meets more).of_error (Reply.map_result_eq_error herr), rfl⟩
  | resize log =>
      have hmeets := h.sound.resize_meets (Nat.one_shiftLeft log)
      exact .inl ⟨hmeets.of_error (Reply.map_result_eq_error herr), rfl⟩
  | shrink => exact .inl ⟨h.sound.shrink_meets.of_error (Reply.map_result_eq_error herr), rfl⟩
  | clear => cases herr
  | take =>
      rw [perform, Table.take, h.pairs_eq] at herr
      cases herr

/-! ## Runs -/

omit [EquivBEq K] in
/-- The actions of a run, each with the buckets in force before it. -/
def withBuckets : List (Action K V) → Table K V → List (Nat × Action K V)
  | [], _ => []
  | action :: actions, t => (t.inForce, action) :: withBuckets actions (t.perform action).state

omit [EquivBEq K] in
/-- The load factor never changes. -/
theorem perform_loadFactor (h : t.Sound is) (action : Action K V) :
    (t.perform action).Leaves fun t' => t'.loadFactor = t.loadFactor := by
  have hintact : t.Intact := ⟨is, h⟩
  have hchecked : ∀ {α : Type} {outcome : Checked (α × Table K V)},
      (∀ a t', outcome = .ok (a, t') → t'.loadFactor = t.loadFactor) →
        (t.ofChecked outcome).Leaves fun t' => t'.loadFactor = t.loadFactor := fun hok => ofChecked_leaves rfl hok
  cases action with
  | insert hash key value => exact (t.insert_keeps hash key value).loadFactor
  | find hash key => rfl
  | remove hash key => exact (hchecked fun _ _ hok => (hintact.addsNothing_remove hok).keeps.loadFactor).map _
  | removeAt i => exact (hchecked fun _ _ hok => (removeAt_keeps hok).loadFactor).map _
  | touch i => exact (hchecked fun _ _ hok => (hintact.addsNothing_touch hok).keeps.loadFactor).map _
  | setValue i value =>
      refine (hchecked fun u t' hok => ?_).map _
      cases hset : t.setValue i value with
      | ok t₁ =>
          rw [hset] at hok
          obtain rfl : t₁ = t' := (Prod.mk.inj (Except.ok.inj hok)).2
          exact (hintact.addsNothing_setValue hset).keeps.loadFactor
      | error f =>
          rw [hset] at hok
          cases hok
  | reserve more => exact t.reserve_loadFactor more
  | resize log => exact (t.resize_keeps (1 <<< log)).loadFactor
  | shrink => exact t.shrink_loadFactor
  | clear => rfl
  | take =>
      refine (hchecked fun pairs t' hok => ?_).map _
      obtain ⟨_, -, hok⟩ := Checked.bind_eq_ok hok
      rw [← (Prod.mk.inj (Except.ok.inj hok)).2]
      rfl

/-- Any number of actions that all return. -/
theorem Models.performAll_of_ok {actions : List (Action K V)} {reports : List (Report K V)} (h : t.Models is r)
    (hok : (performAll actions t).result = .ok reports) :
    ∃ r' is', r.run t.loadFactor (withBuckets actions t) = some (reports, r') ∧
      (performAll actions t).state.Models is' r' := by
  induction actions generalizing t is r reports with
  | nil =>
      obtain rfl := Except.ok.inj hok
      exact ⟨r, is, rfl, h⟩
  | cons action actions ih =>
      obtain ⟨report, hreport, hrest, hstate⟩ := Reply.andThen_result_eq_ok hok
      obtain ⟨reports', hreports, rfl⟩ := Reply.map_result_eq_ok hrest
      obtain ⟨r₁, is₁, happly, hmodels₁⟩ := h.perform_of_ok hreport
      obtain ⟨r', is', hrun, hmodels⟩ := ih hmodels₁ hreports
      rw [perform_loadFactor h.sound action] at hrun
      refine ⟨r', is', ?_, ?_⟩
      · rw [withBuckets, Roster.run, happly]
        show (r₁.run t.loadFactor _).bind _ = _
        rw [hrun]
        rfl
      · rw [performAll, hstate]
        exact hmodels

/-- What can be seen of a table is what a roster lists. -/
structure Mirrors (t : Table K V) (r : Roster K V) : Prop where
  /-- At every index stands the entry that the roster has there. -/
  entries : ∀ i : Nat, (t.entries[i]?).map (fun (e : Entry K V) => ((e.hash, e.key), e.value)) = r.indexed.pairs[i]?
  /-- The table is traversed, in both directions, as the roster is. -/
  order : ∃ is, t.forward = .ok is ∧ t.backward = .ok is.reverse ∧
    is.map (fun i => r.indexed.pairs[i]?) = r.traversed.pairs.map some
  pairs : t.pairs = .ok (r.traversed.pairs.map fun row => (row.1.2, row.2))
  dense : t.order = .dense → r.traversed.pairs = r.indexed.pairs
  /-- Nothing but a limit of size keeps the table from doing an action at an index that is there. -/
  faults : ∀ {action f}, (t.perform action).result = .error f →
    (f.IsLimit ∧ action.sizes = true) ∨ ∃ i, action.index? = some i ∧ r.size ≤ i

/-- What can be seen of a table is what the roster says. -/
theorem Models.mirrors (h : t.Models is r) : t.Mirrors r where
  entries := by
    intro i
    rw [h.getElem?_eq, rowAt, Function.comp_apply, content, Option.map_map]
    rfl
  order := by
    refine ⟨is, h.sound.order.forward_eq, h.sound.order.backward_eq, ?_⟩
    rw [h.traversed.pairs, List.map_congr_left fun i _ => h.getElem?_eq i, map_some_filterMap h.traversed.exists_row]
  pairs := h.pairs_eq
  dense := by
    intro horder
    have hlists := h.sound.order
    rw [horder] at hlists
    rw [h.traversed.pairs, h.indexed.pairs, show is = List.range t.size from hlists]
  faults := by
    intro action f herr
    rw [h.size_eq]
    exact h.perform_error herr

/-- Whatever is done to a table that starts empty, under any hashes and in whichever order it is traversed: if no action
    fails, all of them report what the state machine of rosters reports, and the table mirrors the roster at the end. -/
theorem run_eq_roster_run {order : Order} (h : order.Fresh) (loadFactor : Binary64) (expected : Nat)
    (actions : List (Action K V)) {reports : List (Report K V)}
    (hok : (performAll actions (empty order loadFactor expected)).result = .ok reports) :
    ∃ r, (Roster.empty order).run loadFactor (withBuckets actions (empty order loadFactor expected)) = some (reports, r) ∧
      (performAll actions (empty order loadFactor expected)).state.Mirrors r := by
  obtain ⟨r, is, hrun, hmodels⟩ := (models_empty h loadFactor expected).performAll_of_ok hok
  exact ⟨r, hrun, hmodels.mirrors⟩

/-- One key under two hashes, which share a bucket with two other keys. The fourth entry is the first one too many. -/
theorem run_eq_roster_run_colliding :
    ∃ (actions : List (Action Nat Nat)) (reports : List (Report Nat Nat)) (t : Table Nat Nat) (r : Roster Nat Nat),
      actions = [.insert 5 1 10, .insert 9 1 20, .insert 1 2 30, .insert 13 3 40, .insert 5 1 11, .find 5 1,
        .remove 9 1] ∧
      t = (performAll actions (empty (.ofMode true) .threeQuarters 0)).state ∧
      (performAll actions (empty (.ofMode true) .threeQuarters 0)).result = .ok reports ∧
      reports = [.inserted (.added 1 false), .inserted (.added 2 false), .inserted (.added 3 false),
        .inserted (.added 4 true), .inserted (.updated 10 true), .index (some 0), .pair (some (1, 20))] ∧
      (Roster.empty (.ofMode true)).run .threeQuarters (withBuckets actions (empty (.ofMode true) .threeQuarters 0)) =
        some (reports, r) ∧ t.Mirrors r ∧ t.forward = .ok [2, 1, 0] := by
  have hok : (performAll [.insert 5 1 10, .insert 9 1 20, .insert 1 2 30, .insert 13 3 40, .insert 5 1 11, .find 5 1,
      .remove 9 1] (empty (.ofMode true) .threeQuarters 0) : Reply (Table Nat Nat) (List (Report Nat Nat))).result =
        .ok [.inserted (.added 1 false), .inserted (.added 2 false), .inserted (.added 3 false),
          .inserted (.added 4 true), .inserted (.updated 10 true), .index (some 0), .pair (some (1, 20))] := by
    decide +kernel
  obtain ⟨r, hrun, hmirrors⟩ := run_eq_roster_run (.linked true) .threeQuarters 0 _ hok
  exact ⟨_, _, _, r, rfl, rfl, hok, rfl, hrun, hmirrors, by decide +kernel⟩

end Table

end DenseHash
