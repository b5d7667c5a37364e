import DenseHash.Fallback.Ledger
import DenseHash.Proofs.Fallback.Removal
import DenseHash.Proofs.Fallback.Traversal
import DenseHash.Proofs.Listing

/-!
# Fallbacks refine ledgers

A fallback and a ledger have the same entries in the same slots and in the same order (`Models`). Each function of the
fallback does what the function of the ledger does, also where it is refused:

* **At one slot**, the place of the entry is the number of slots before it, so uses and removals are those of listings.
* **By key**, equal keys have equal hashes, so the key that the index leads to is the one that the list has.
-/

namespace DenseHash

namespace Fallback

variable [Backing] {K V : Type} {f f' : Fallback K V} {ss as bs : List Backing.Handle} {s : Backing.Handle}
  {hash : UInt64} {key stored : K} {value old : V} {l : Ledger K V}

/-! ## Rows -/

/-- What a ledger has for a slot. -/
def rowAt (f : Fallback K V) (s : Backing.Handle) : Option (K × Backing.Handle × V) :=
  (f.content s).map fun c => (c.2.1, s, c.2.2)

theorem rowAt_of_content (hc : f.content s = some (hash, key, value)) : f.rowAt s = some (key, s, value) := by
  rw [rowAt, hc]
  rfl

/-- Changing the content of a slot changes its row, and no other. -/
theorem rowAt_update {c : Option (UInt64 × K × V)} (h : f'.content = Function.update f.content s c) :
    f'.rowAt = Function.update f.rowAt s (c.map fun c => (c.2.1, s, c.2.2)) := by
  funext k
  rw [rowAt, h]
  by_cases hks : k = s
  · rw [hks, Function.update_self, Function.update_self]
  · rw [Function.update_of_ne hks, Function.update_of_ne hks]
    rfl

/-- A row names its slot. -/
theorem slot_of_rowAt {row : K × Backing.Handle × V} (h : f.rowAt s = some row) : row.2.1 = s := by
  obtain ⟨c, -, rfl⟩ := Option.map_eq_some_iff.mp h
  rfl

/-- The slots of the rows are the slots that they were read from. -/
theorem map_slot_filterMap (h : ∀ k ∈ ss, ∃ row, f.rowAt k = some row) :
    (ss.filterMap f.rowAt).map (fun row => row.2.1) = ss := by
  induction ss with
  | nil => rfl
  | cons k ss ih =>
      obtain ⟨row, hrow⟩ := h k List.mem_cons_self
      rw [List.filterMap_cons_some hrow, List.map_cons, slot_of_rowAt hrow,
        ih fun k' hk' => h k' (List.mem_cons_of_mem k hk')]

variable [BEq K]

/-- A sound fallback that has the entries of a ledger, in the same slots and in the same order. -/
structure Models (f : Fallback K V) (ss : List Backing.Handle) (l : Ledger K V) : Prop where
  sound : f.Sound ss
  respects : f.draws.Respects
  rows : l.listing.pairs = ss.filterMap f.rowAt
  packed : l.listing.packed = false
  byAccess : l.listing.byAccess = f.byAccess
  supply : l.supply = f.supply

/-- An empty fallback has the entries of an empty ledger. -/
theorem models_empty {draws : Draws K} (hr : draws.Respects) (byAccess : Bool) :
    (empty draws byAccess : Fallback K V).Models [] (.empty byAccess) where
  sound := sound_empty draws byAccess
  respects := hr
  rows := rfl
  packed := rfl
  byAccess := rfl
  supply := rfl

/-- The fallback has the entries of the ledger, whatever its order is. -/
def Refines (f : Fallback K V) (l : Ledger K V) : Prop := ∃ ss, f.Models ss l

namespace Models

/-- Equal keys are under equal hashes. -/
theorem digest_congr (h : f.Models ss l) {k k' : K} (hk : (k == k') = true) : f.digest k = f.digest k' :=
  h.respects.digest hk

/-- Every slot in the order has a row. -/
theorem exists_row (h : f.Models ss l) : ∀ k ∈ ss, ∃ row, f.rowAt k = some row := by
  intro k hk
  obtain ⟨⟨hash, key, value⟩, hc⟩ := Option.isSome_iff_exists.mp (h.sound.mem_iff.mp hk)
  exact ⟨_, rowAt_of_content hc⟩

/-- The ledger has its rows in the order of the fallback. -/
theorem slots_eq (h : f.Models ss l) : l.slots = ss := by
  rw [Ledger.slots, h.rows, map_slot_filterMap h.exists_row]

/-- The ledger has as many rows as the fallback has slots. -/
theorem length_eq (h : f.Models ss l) : l.listing.pairs.length = ss.length := by
  rw [← h.slots_eq, Ledger.slots, List.length_map]

/-- The ledger has the entries of the fallback, in order. -/
theorem pairs_eq (h : f.Models ss l) : l.pairs = ss.filterMap f.pair? := by
  rw [Ledger.pairs, h.rows, List.map_filterMap]
  refine List.filterMap_congr fun k _ => ?_
  rw [rowAt, Option.map_map]
  rfl

/-- A ledger, split at an entry, and where the entry stands. -/
theorem split (h : f.Models (as ++ s :: bs) l) (hc : f.content s = some (hash, stored, value)) :
    l.listing.pairs = as.filterMap f.rowAt ++ (stored, s, value) :: bs.filterMap f.rowAt ∧
      (as.filterMap f.rowAt).length = as.length := by
  refine ⟨h.rows.trans (filterMap_append_cons (rowAt_of_content hc)), ?_⟩
  refine List.filterMap_length_eq_length.mpr fun k hk => ?_
  obtain ⟨row, hrow⟩ := h.exists_row k (List.mem_append_left _ hk)
  rw [hrow]
  rfl

/-- The rows have distinct keys, since equal keys would be under one hash. -/
theorem distinctKeys (h : f.Models ss l) : DistinctKeys l.listing.pairs := by
  rw [DistinctKeys, h.rows]
  refine List.Pairwise.filterMap f.rowAt ?_ h.sound.nodup
  intro j k hne row hj row' hk
  obtain ⟨⟨hash, key, value⟩, hcj, rfl⟩ := Option.map_eq_some_iff.mp hj
  obtain ⟨⟨hash', key', value'⟩, hck, rfl⟩ := Option.map_eq_some_iff.mp hk
  refine Bool.eq_false_iff.mpr fun hkey => hne ?_
  have hlabel : f.label? j = some (hash, key) := label?_eq_some.mpr ⟨value, hcj⟩
  have hlabel' : f.label? k = some (hash', key') := label?_eq_some.mpr ⟨value', hck⟩
  -- equal keys are stored under one hash
  have hhash : hash' = hash := by
    rw [h.sound.hashed hlabel, h.sound.hashed hlabel', h.digest_congr hkey]
  exact h.sound.distinct hlabel (hhash ▸ hlabel') hkey

/-! ## Places -/

/-- The row of a slot is where the slot is in the order. -/
theorem row?_present (h : f.Models (as ++ s :: bs) l) (hc : f.content s = some (hash, stored, value)) :
    l.row? s = some (as.length, stored, value) := by
  obtain ⟨hpairs, hlength⟩ := h.split hc
  have hnot : s ∉ as := fun hs => (List.nodup_middle.mp h.sound.nodup).notMem (List.mem_append_left bs hs)
  have hbefore : (as.filterMap f.rowAt).findIdx? (fun row => row.2.1 == s) = none := by
    refine List.findIdx?_eq_none_iff.mpr fun row hrow => ?_
    obtain ⟨k, hk, hrow⟩ := List.mem_filterMap.mp hrow
    rw [slot_of_rowAt hrow]
    exact beq_eq_false_iff_ne.mpr fun heq => hnot (heq ▸ hk)
  rw [Ledger.row?, hpairs, List.findIdx?_append, hbefore, List.findIdx?_cons, if_pos (beq_self_eq_true s), hlength]
  simp [hlength]

/-- A slot that is not in the order has no row. -/
theorem row?_absent (h : f.Models ss l) (hs : s ∉ ss) : l.row? s = none := by
  rw [Ledger.row?, List.findIdx?_eq_none_iff.mpr]
  · rfl
  · intro row hrow
    have hmem : row.2.1 ∈ l.slots := List.mem_map_of_mem hrow
    rw [h.slots_eq] at hmem
    exact beq_eq_false_iff_ne.mpr fun heq => hs (heq ▸ hmem)

/-- Whatever the slot, the ledger has the entry that the fallback has there. -/
theorem row?_eq (h : f.Models ss l) (s : Backing.Handle) : (l.row? s).map Prod.snd = f.pair? s := by
  by_cases hs : s ∈ ss
  · obtain ⟨as, bs, rfl⟩ := List.append_of_mem hs
    obtain ⟨⟨hash, key, value⟩, hc⟩ := Option.isSome_iff_exists.mp (h.sound.mem_iff.mp hs)
    rw [h.row?_present hc, pair?, hc]
    rfl
  · have hnone : f.content s = none := by
      cases hc : f.content s with
      | none => rfl
      | some c => exact absurd (h.sound.mem_of_content hc) hs
    rw [h.row?_absent hs, pair?, hnone]
    rfl

/-- A use moves all entries but the last one, in the order of use. -/
theorem moves_eq (h : f.Models (as ++ s :: bs) l) : l.moves as.length = (f.byAccess && !bs.isEmpty) := by
  rw [Ledger.moves, h.byAccess, h.length_eq]
  congr 1
  cases bs with
  | nil => simp
  | cons b bs => simp

/-- A key that is there is found at the place of its slot. -/
theorem locate?_present [EquivBEq K] (h : f.Models (as ++ s :: bs) l) (hc : f.content s = some (hash, stored, value))
    (hkey : (stored == key) = true) : l.listing.locate? key = some (as.length, stored, s, value) := by
  obtain ⟨hpairs, hlength⟩ := h.split hc
  rw [Listing.locate?_eq_some h.distinctKeys hpairs hkey, hlength]

/-- A key that no slot holds is not found. -/
theorem locate?_absent (h : f.Models ss l) (hnew : ∀ s, ¬f.Holds key s) : l.listing.locate? key = none := by
  refine Listing.locate?_eq_none fun row hrow => Bool.eq_false_iff.mpr fun hkey => ?_
  rw [h.rows] at hrow
  obtain ⟨k, -, hk⟩ := List.mem_filterMap.mp hrow
  obtain ⟨⟨hash, stored, value⟩, hc, rfl⟩ := Option.map_eq_some_iff.mp hk
  have hlabel : f.label? k = some (hash, stored) := label?_eq_some.mpr ⟨value, hc⟩
  refine hnew k ⟨stored, ?_, hkey⟩
  rw [← h.digest_congr hkey, ← h.sound.hashed hlabel]
  exact hlabel

/-! ## At one slot -/

/-- An entry has been used, and may have got another value. -/
theorem use (h : f.Models (as ++ s :: bs) l) (hc : f.content s = some (hash, stored, old))
    (hsound : f'.Sound (used f.byAccess as s bs))
    (hcontent : f'.content = Function.update f.content s (some (hash, stored, value)))
    (hdraws : f'.draws = f.draws) (haccess : f'.byAccess = f.byAccess) (hsupply : f'.supply = f.supply) :
    f'.Models (used f.byAccess as s bs) { l with listing := l.listing.use as.length (stored, s, value) } := by
  obtain ⟨hpairs, hlength⟩ := h.split hc
  have hnot : s ∉ as ++ bs := (List.nodup_middle.mp h.sound.nodup).notMem
  rw [← hlength, Listing.use_length hpairs]
  refine ⟨hsound, hdraws ▸ h.respects, ?_, h.packed, h.byAccess.trans haccess.symm,
    h.supply.trans hsupply.symm⟩
  rw [rowAt_update hcontent, Option.map_some, filterMap_used_update hnot, h.byAccess]

/-- An entry has been removed. -/
theorem removeAt (h : f.Models (as ++ s :: bs) l) (hc : f.content s = some (hash, stored, value))
    (hsound : f'.Sound (as ++ bs)) (hcontent : f'.content = Function.update f.content s none)
    (hdraws : f'.draws = f.draws) (haccess : f'.byAccess = f.byAccess)
    (hsupply : f'.supply = Backing.release f.supply s) :
    f'.Models (as ++ bs) ⟨l.listing.removeAt as.length, Backing.release l.supply s⟩ := by
  obtain ⟨hpairs, hlength⟩ := h.split hc
  have hnot : s ∉ as ++ bs := (List.nodup_middle.mp h.sound.nodup).notMem
  rw [← hlength, Listing.removeAt_length hpairs]
  refine ⟨hsound, hdraws ▸ h.respects, ?_, h.packed, h.byAccess.trans haccess.symm,
    (congrArg (Backing.release · s) h.supply).trans hsupply.symm⟩
  rw [rowAt_update hcontent, filterMap_update_of_not_mem hnot, List.filterMap_append, h.packed]
  rfl

/-- A slot that is not in the order is vacant. -/
theorem node_absent (h : f.Models ss l) (hs : s ∉ ss) : f.node s = Corruption.vacantSlot.raise := by
  have hnone : f.node? s = none := by
    cases hn : f.node? s with
    | none => rfl
    | some n =>
        have hc : f.content s = some (n.hash, n.key, n.value) := by
          rw [content, hn]
          rfl
        exact absurd (h.sound.mem_of_content hc) hs
  rw [node, hnone]

/-- Unlinking a slot without a node reports it as vacant. -/
theorem unlink_absent (h : f.Models ss l) (hs : s ∉ ss) : f.unlink s = Corruption.vacantSlot.raise := by
  rw [unlink, h.node_absent hs]
  rfl

/-! ## What the functions do -/

/-- Using any slot, with a node or without. -/
theorem touch_echoes (h : f.Models ss l) (s : Backing.Handle) :
    (Reply.attempt f (f.touch s)).Echoes Refines (Reply.attempt l (l.touch s)) := by
  cases hb : f.byAccess with
  | false =>
      have htouch : f.touch s = .ok (false, f) := by
        rw [touch, if_neg fun hand => absurd (hb.symm.trans hand.1) Bool.false_ne_true]
      have htold : l.touch s = .ok (false, l) := by
        rw [Ledger.touch, if_neg (by rw [h.byAccess, hb]; exact Bool.false_ne_true)]
      exact .attempt_ok htouch htold ⟨ss, h⟩
  | true =>
      have haccess : l.listing.byAccess = true := h.byAccess.trans hb
      by_cases hs : s ∈ ss
      · obtain ⟨as, bs, rfl⟩ := List.append_of_mem hs
        obtain ⟨⟨hash, key, value⟩, hc⟩ := Option.isSome_iff_exists.mp (h.sound.mem_iff.mp hs)
        obtain ⟨f', htouch, halike, hsound⟩ := h.sound.touch_eq
        have hcontent : f'.content = Function.update f.content s (some (hash, key, value)) := by
          rw [halike.content, ← hc, Function.update_eq_self]
        refine .attempt_ok htouch ?_ ⟨_, h.use hc hsound hcontent halike.draws halike.byAccess halike.supply⟩
        rw [Ledger.touch, if_pos haccess, h.row?_present hc]
        dsimp only
        rw [h.moves_eq]
      · have hlast : f.last ≠ some s := by
          intro hlast
          rw [h.sound.lists.last_eq] at hlast
          exact hs (List.mem_of_getLast? hlast)
        refine .attempt_error (e := .corrupt .vacantSlot) ?_ ?_ ⟨ss, h⟩
        · rw [touch, if_pos ⟨hb, hlast⟩, h.unlink_absent hs]
          rfl
        · rw [Ledger.touch, if_pos haccess, h.row?_absent hs]
          rfl

/-- Removing at a slot that holds an entry removes its row, and gives the slot back. -/
theorem removeSlot_present (h : f.Models (as ++ s :: bs) l) (hc : f.content s = some (hash, stored, value)) :
    ∃ f', f.removeSlot s = .ok ((stored, value), f') ∧
      f'.Models (as ++ bs) ⟨l.listing.removeAt as.length, Backing.release l.supply s⟩ := by
  obtain ⟨f', hremoved, hsound, hdraws, haccess, hcontent⟩ := h.sound.removeSlot_eq hc
  exact ⟨f', hremoved, h.removeAt hc hsound hcontent hdraws haccess (h.sound.removeSlot_supply hremoved)⟩

/-- Removing at any slot, with a node or without. -/
theorem removeSlot_echoes (h : f.Models ss l) (s : Backing.Handle) :
    (Reply.attempt f (f.removeSlot s)).Echoes Refines (Reply.attempt l (l.removeSlot s)) := by
  by_cases hs : s ∈ ss
  · obtain ⟨as, bs, rfl⟩ := List.append_of_mem hs
    obtain ⟨⟨hash, key, value⟩, hc⟩ := Option.isSome_iff_exists.mp (h.sound.mem_iff.mp hs)
    obtain ⟨f', hremoved, hmodels⟩ := h.removeSlot_present hc
    refine .attempt_ok hremoved ?_ ⟨_, hmodels⟩
    rw [Ledger.removeSlot, h.row?_present hc]
  · refine .attempt_error (e := .corrupt .vacantSlot) ?_ ?_ ⟨ss, h⟩
    · rw [removeSlot, h.unlink_absent hs]
      rfl
    · rw [Ledger.removeSlot, h.row?_absent hs]
      rfl

section Keyed

variable [EquivBEq K]

/-- The index leads to the slot that the ledger has for the key. -/
theorem find_eq (h : f.Models ss l) (key : K) : f.find key = .ok (l.find key) := by
  obtain ⟨r, hr, hiff⟩ := h.sound.find_eq (fun hk => h.digest_congr hk) key
  rw [hr, Ledger.find]
  cases r with
  | some s =>
      obtain ⟨stored, hlabel, hkey⟩ := (hiff s).mp rfl
      obtain ⟨value, hc⟩ := label?_eq_some.mp hlabel
      obtain ⟨as, bs, rfl⟩ := List.append_of_mem (h.sound.mem_of_content hc)
      rw [h.locate?_present hc hkey]
      rfl
  | none =>
      rw [h.locate?_absent fun s hs => Option.some_ne_none s ((hiff s).mpr hs).symm]
      rfl

/-- An insertion updates the entry that has the key, or appends one. -/
theorem insert_eq (h : f.Models ss l) (key : K) (value : V) :
    ∃ f', f.insert key value = .ok ((l.insert key value).1, f') ∧ f'.Refines (l.insert key value).2 := by
  obtain ⟨r, f', hinsert, hinserts, hdraws, haccess⟩ := h.sound.insert_eq key value
  cases hinserts with
  | updated split found same sound content supply =>
      subst split
      rw [Ledger.insert, h.locate?_present found same]
      dsimp only
      rw [h.moves_eq]
      exact ⟨f', hinsert, _, h.use found sound content hdraws haccess supply⟩
  | added absent sound content supply =>
      have hslot : (Backing.draw l.supply).1 = f.fresh := by rw [h.supply, fresh]
      rw [Ledger.insert, h.locate?_absent absent]
      refine ⟨f', hinsert, _, sound, hdraws ▸ h.respects, ?_, h.packed, h.byAccess.trans haccess.symm, ?_⟩
      · rw [rowAt_update content, Option.map_some, filterMap_update_append_singleton h.sound.vacant, ← h.rows, ← hslot]
      · rw [supply, ← h.supply]

theorem remove_eq (h : f.Models ss l) (key : K) :
    ∃ f', f.remove key = .ok ((l.remove key).1, f') ∧ f'.Refines (l.remove key).2 := by
  obtain ⟨r, hr, hiff⟩ := h.sound.find_eq (fun hk => h.digest_congr hk) key
  rw [remove, hr, Checked.ok_bind, Ledger.remove]
  cases r with
  | some s =>
      obtain ⟨stored, hlabel, hkey⟩ := (hiff s).mp rfl
      obtain ⟨value, hc⟩ := label?_eq_some.mp hlabel
      obtain ⟨as, bs, rfl⟩ := List.append_of_mem (h.sound.mem_of_content hc)
      obtain ⟨f', hremoved, hmodels⟩ := h.removeSlot_present hc
      rw [h.locate?_present hc hkey]
      dsimp only
      rw [hremoved]
      exact ⟨f', rfl, _, hmodels⟩
  | none =>
      rw [h.locate?_absent fun s hs => Option.some_ne_none s ((hiff s).mpr hs).symm]
      exact ⟨f, rfl, ss, h⟩

end Keyed

/-! ## All entries -/

/-- A fallback that is emptied in place keeps its supply. -/
theorem cleared (h : f.Models ss l) : f.cleared.Models [] l.cleared where
  sound := sound_cleared f
  respects := h.respects
  rows := rfl
  packed := h.packed
  byAccess := h.byAccess
  supply := congrArg Backing.releaseAll h.supply

/-- Taking all entries out leaves a fallback that has not given out a slot yet. -/
theorem take_eq (h : f.Models ss l) : ∃ f', f.take = .ok (l.pairs, f') ∧ f'.Models [] l.renewed := by
  refine ⟨f.renewed, ?_, sound_renewed f, h.respects.drop 1, rfl, h.packed, h.byAccess, rfl⟩
  rw [take, h.sound.pairs_eq, h.pairs_eq]
  rfl

end Models

/-- Writing to slots replaces what they hold, and nothing else. -/
theorem Sound.writeAll_eq (h : f.Sound ss) (change : K → V → V) (hsub : bs ⊆ ss) (hnodup : bs.Nodup) :
    ∃ f', f.writeAll change bs = .ok (bs.filterMap f.pair?, f') ∧ f'.Sound ss ∧ f'.draws = f.draws ∧
      f'.byAccess = f.byAccess ∧ f'.supply = f.supply ∧
      (∀ k ∈ bs, f'.content k = (f.content k).map fun c => (c.1, c.2.1, change c.2.1 c.2.2)) ∧
      ∀ k ∉ bs, f'.content k = f.content k := by
  induction bs generalizing f with
  | nil => exact ⟨f, rfl, h, rfl, rfl, rfl, fun k hk => (nomatch hk), fun k _ => rfl⟩
  | cons s bs ih =>
      obtain ⟨hs, hnodup⟩ := List.nodup_cons.mp hnodup
      obtain ⟨⟨hash, key, value⟩, hc⟩ := Option.isSome_iff_exists.mp (h.mem_iff.mp (hsub List.mem_cons_self))
      obtain ⟨f₁, h₁, hsound₁, hdraws₁, haccess₁, hcontent₁⟩ := h.setValue_eq hc (change key value)
      obtain ⟨f', hrest, hsound, hdraws, haccess, hsupply, hin, hout⟩ :=
        ih hsound₁ (fun k hk => hsub (List.mem_cons_of_mem s hk)) hnodup
      obtain ⟨n, hn, -, -, rfl, rfl, -⟩ := node_eq hc
      have hother : ∀ k, k ≠ s → f₁.content k = f.content k := by
        intro k hk
        rw [hcontent₁, Function.update_of_ne hk]
      refine ⟨f', ?_, hsound, hdraws.trans hdraws₁, haccess.trans haccess₁, hsupply.trans (setValue_supply h₁), ?_, ?_⟩
      · have hpairs : bs.filterMap f₁.pair? = bs.filterMap f.pair? := by
          refine List.filterMap_congr fun k hk => ?_
          rw [pair?, pair?, hother k fun heq => hs (heq ▸ hk)]
        have hself : f.pair? s = some (n.key, n.value) := by
          rw [pair?, hc]
          rfl
        rw [writeAll, hn, Checked.ok_bind, h₁, Checked.ok_bind, hrest, hpairs, List.filterMap_cons_some hself]
        rfl
      · intro k hk
        rcases List.mem_cons.mp hk with rfl | hk
        · rw [hout k hs, hcontent₁, Function.update_self, hc]
          rfl
        · rw [hin k hk, hother k fun heq => hs (heq ▸ hk)]
      · intro k hk
        rw [List.mem_cons, not_or] at hk
        rw [hout k hk.2, hother k hk.1]

/-- Writes through references replace all values. -/
theorem Models.update_eq (h : f.Models ss l) (change : K → V → V) :
    ∃ f', f.update change = .ok (l.pairs, f') ∧ f'.Models ss (l.update change) := by
  obtain ⟨f', hwritten, hsound, hdraws, haccess, hsupply, hin, -⟩ :=
    h.sound.writeAll_eq change (List.Subset.refl ss) h.sound.nodup
  refine ⟨f', ?_, hsound, hdraws ▸ h.respects, ?_, h.packed, h.byAccess.trans haccess.symm,
    h.supply.trans hsupply.symm⟩
  · rw [update, h.sound.references_eq, Checked.ok_bind, hwritten, h.pairs_eq]
  · show l.listing.pairs.map _ = _
    rw [h.rows, List.map_filterMap]
    refine List.filterMap_congr fun k hk => ?_
    rw [rowAt, rowAt, hin k hk, Option.map_map, Option.map_map]
    rfl

end Fallback

end DenseHash
