import DenseHash.Proofs.Fallback.Ledger

/-!
# Runs of a fallback

Nodes, index and order of a fallback are kept apart, and every action has to change them together. Between two actions
they agree:

* **`WellFormed`** says so of a fallback as it is stored: the index files every slot once, under the hash of its key; no
  key has two slots; and the order visits every slot once, forwards and backwards.
* **`Mirrors`** says that nothing but the entries of a ledger, in their slots and in their order, can be seen.
* **`Refines.stale_vacant`** says that a slot leads nowhere once its entry was removed, for as long as the fallback is
  the same one.
* **`run_eq_ledger_run`:** whatever is done to a fallback that starts empty, it reports what a ledger reports, is refused
  where a ledger refuses, and has the entries that a ledger has.
-/

namespace DenseHash

namespace Fallback

variable [Backing] {K V : Type} {f : Fallback K V} {ss : List Backing.Handle}

/-- All slots in reverse order, found from the end. -/
def backward (f : Fallback K V) : Checked (List Backing.Handle) := walk .brokenOrder f.prev f.size f.last

/-- Walking backwards visits the slots in reverse. -/
theorem Lists.backward_eq (h : f.Lists ss) (hsize : ss.length ≤ f.size) : f.backward = .ok ss.reverse := by
  rw [backward, h.last_eq, ← List.head?_reverse]
  refine walk_eq (fun cs k ds heq => ?_) (by rwa [List.length_reverse])
  have hsplit : ss = ds.reverse ++ k :: cs.reverse := by
    rw [← List.reverse_reverse ss, heq]
    simp
  rw [hsplit] at h
  rw [h.prev_eq, List.getLast?_reverse]

variable [BEq K]

/-- What a fallback looks like between two actions, said of its nodes, index and links as they are stored. -/
structure WellFormed (f : Fallback K V) : Prop where
  /-- The index files the slot of every node once, under the hash in the node, and nothing else. -/
  index : ∀ hash slot,
    (f.filed hash).count slot = (f.node? slot).elim 0 fun n => if n.hash = hash then 1 else 0
  hashed : ∀ {slot : Backing.Handle} {n : Node K V}, f.node? slot = some n → n.hash = f.digest n.key
  distinct : ∀ {slot slot' : Backing.Handle} {n n' : Node K V}, f.node? slot = some n → f.node? slot' = some n' →
    (n.key == n'.key) = true → slot = slot'
  /-- The walk from the first slot ends, and meets every slot that has a node once. The walk back meets them in reverse. -/
  order : ∃ slots, f.slots = .ok slots ∧ f.backward = .ok slots.reverse ∧ slots.length = f.size ∧ slots.Nodup ∧
    ∀ slot : Backing.Handle, slot ∈ slots ↔ (f.node? slot).isSome = true
  /-- A key is found in the slot that has it, if there is one. -/
  finds : ∀ key, ∃ r, f.find key = .ok r ∧
    ∀ slot : Backing.Handle, r = some slot ↔ ∃ n, f.node? slot = some n ∧ (n.key == key) = true
  /-- Every slot that has a node was given out, so the supply does not give it out again. -/
  spent : ∀ {slot : Backing.Handle} {n : Node K V}, f.node? slot = some n → Backing.Spent f.supply slot

/-- What can be seen of a fallback is what a ledger lists. -/
structure Mirrors (f : Fallback K V) (l : Ledger K V) : Prop where
  /-- In every slot is the entry that the ledger has for it. -/
  entries : ∀ slot, (f.node? slot).map (fun n => (n.key, n.value)) = (l.row? slot).map Prod.snd
  slots : f.slots = .ok l.slots
  pairs : f.pairs = .ok l.pairs
  size : f.size = l.listing.pairs.length
  supply : f.supply = l.supply

/-! ## What a model has -/

namespace Models

variable {l : Ledger K V}

omit [BEq K] in
theorem label?_of_node {s : Backing.Handle} {n : Node K V} (hn : f.node? s = some n) :
    f.label? s = some (n.hash, n.key) := by
  rw [label?, content, hn]
  rfl

omit [BEq K] in
/-- Behind a label there is a node with that hash and key. -/
theorem node_of_label? {s : Backing.Handle} {hash : UInt64} {key : K} (h : f.label? s = some (hash, key)) :
    ∃ n, f.node? s = some n ∧ n.hash = hash ∧ n.key = key := by
  obtain ⟨value, hc⟩ := label?_eq_some.mp h
  obtain ⟨n, -, hn, hhash, hkey, -⟩ := node_eq hc
  exact ⟨n, hn, hhash, hkey⟩

/-- A slot is filed once under the hash of its node, and nowhere else. -/
theorem count_filed (h : f.Models ss l) (hash : UInt64) (slot : Backing.Handle) :
    (f.filed hash).count slot = (f.node? slot).elim 0 fun n => if n.hash = hash then 1 else 0 := by
  rw [(h.sound.filed_nodup hash).count]
  cases hn : f.node? slot with
  | none =>
      refine if_neg fun hmem => ?_
      obtain ⟨key, hlabel⟩ := (h.sound.filed_iff hash slot).mp hmem
      obtain ⟨n, hn', -⟩ := node_of_label? hlabel
      cases hn.symm.trans hn'
  | some n =>
      have hmem : slot ∈ f.filed hash ↔ n.hash = hash := by
        rw [h.sound.filed_iff, label?_of_node hn]
        simp
      dsimp only [Option.elim_some]
      simp only [hmem]

/-- A fallback that has the entries of a ledger is well-formed. -/
theorem wellFormed [EquivBEq K] (h : f.Models ss l) : f.WellFormed where
  index := h.count_filed
  hashed := fun hn => h.sound.hashed (label?_of_node hn)
  distinct := by
    intro slot slot' n n' hn hn' hkey
    have hhash : n'.hash = n.hash := by
      rw [h.sound.hashed (label?_of_node hn), h.sound.hashed (label?_of_node hn'), h.digest_congr hkey]
    exact h.sound.distinct (label?_of_node hn) (hhash ▸ label?_of_node hn') hkey
  order := by
    have hsize := Nat.le_of_eq h.sound.count.symm
    refine ⟨ss, h.sound.lists.slots_eq hsize, h.sound.lists.backward_eq hsize, h.sound.count.symm, h.sound.nodup, ?_⟩
    intro slot
    rw [h.sound.mem_iff, content, Option.isSome_map]
  finds := by
    intro key
    obtain ⟨r, hr, hiff⟩ := h.sound.find_eq (fun hk => h.digest_congr hk) key
    refine ⟨r, hr, fun slot => (hiff slot).trans ?_⟩
    constructor
    · rintro ⟨stored, hlabel, hkey⟩
      obtain ⟨n, hn, -, rfl⟩ := node_of_label? hlabel
      exact ⟨n, hn, hkey⟩
    · rintro ⟨n, hn, hkey⟩
      refine ⟨n.key, ?_, hkey⟩
      rw [← h.digest_congr hkey, ← h.sound.hashed (label?_of_node hn)]
      exact label?_of_node hn
  spent := fun hn => h.sound.spent _ (h.sound.listed (label?_of_node hn))

/-- Seen from outside, it is the ledger: the same entries in the same slots, forwards and backwards. -/
theorem mirrors (h : f.Models ss l) : f.Mirrors l where
  entries := by
    intro slot
    rw [h.row?_eq, pair?, content, Option.map_map]
    rfl
  slots := by rw [h.slots_eq, h.sound.lists.slots_eq (Nat.le_of_eq h.sound.count.symm)]
  pairs := by rw [h.pairs_eq, h.sound.pairs_eq]
  size := by rw [h.length_eq, h.sound.count]
  supply := h.supply.symm

end Models

/-! ## Actions -/

variable [EquivBEq K] {l : Ledger K V}

/-- One action. -/
theorem Refines.perform_echoes (h : f.Refines l) (action : Action K V) :
    (f.perform action).Echoes Refines (l.perform action) := by
  obtain ⟨ss, hmodels⟩ := id h
  cases action with
  | insert key value =>
      obtain ⟨f', hinsert, hf'⟩ := hmodels.insert_eq key value
      rw [perform, hinsert]
      exact ⟨rfl, hf'⟩
  | find key =>
      rw [perform, hmodels.find_eq]
      exact ⟨rfl, h⟩
  | touch slot => exact (hmodels.touch_echoes slot).map _
  | remove key =>
      obtain ⟨f', hremove, hf'⟩ := hmodels.remove_eq key
      rw [perform, hremove]
      exact ⟨rfl, hf'⟩
  | removeSlot slot => exact (hmodels.removeSlot_echoes slot).map _
  | update change =>
      obtain ⟨f', hupdate, hf'⟩ := hmodels.update_eq change
      rw [perform, hupdate]
      exact ⟨rfl, ss, hf'⟩
  | reserve more =>
      rw [perform, reserve, Ledger.perform, hmodels.length_eq, ← hmodels.sound.count]
      by_cases hfull : Backing.maxFiled < f.size + more
      · rw [if_pos hfull, if_pos hfull]
        exact ⟨rfl, h⟩
      · rw [if_neg hfull, if_neg hfull]
        exact ⟨rfl, h⟩
  | shrink => exact ⟨rfl, h⟩
  | clear => exact ⟨rfl, [], hmodels.cleared⟩
  | take =>
      obtain ⟨f', htake, hf'⟩ := hmodels.take_eq
      rw [perform, htake]
      exact ⟨rfl, [], hf'⟩

/-- Any number of actions. -/
theorem Refines.performAll_echoes (h : f.Refines l) (actions : List (Action K V)) :
    (performAll actions f).Echoes Refines (l.performAll actions) := by
  induction actions generalizing f l with
  | nil => exact ⟨rfl, h⟩
  | cons action actions ih =>
      exact (h.perform_echoes action).andThen fun report f' l' h' => (ih h').map fun reports => report :: reports

/-! ## Slots that hold nothing any more -/

/-- Whether an action leaves a new fallback, whose slots may bear names that were given out before. -/
def Action.renews : Action K V → Bool
  | .take => true
  | _ => false

namespace Ledger

omit [BEq K] [EquivBEq K]

variable {l' : Ledger K V} {slot : Backing.Handle}

/-- The slot was given out, and has no entry. -/
structure Stale (l : Ledger K V) (slot : Backing.Handle) : Prop where
  spent : Backing.Spent l.supply slot
  absent : slot ∉ l.slots

/-- What was given out stays so, and entries are put into slots that were not. -/
structure Supplies (l l' : Ledger K V) : Prop where
  spent : ∀ {slot}, Backing.Spent l.supply slot → Backing.Spent l'.supply slot
  slots : ∀ slot ∈ l'.slots, slot ∈ l.slots ∨ ¬Backing.Spent l.supply slot

theorem Supplies.refl (l : Ledger K V) : l.Supplies l := ⟨id, fun _ => .inl⟩

/-- No entry is put into a stale slot. -/
theorem Supplies.stale (h : l.Supplies l') (hstale : l.Stale slot) : l'.Stale slot where
  spent := h.spent hstale.spent
  absent := fun hslot => (h.slots slot hslot).elim hstale.absent (absurd hstale.spent)

/-- A use puts an entry back that was there. -/
theorem supplies_use {place : Nat} {key : K} {value : V} (hslot : slot ∈ l.slots) :
    l.Supplies { l with listing := l.listing.use place (key, slot, value) } := by
  refine ⟨id, fun slot' hslot' => .inl ?_⟩
  obtain ⟨row, hrow, rfl⟩ := List.mem_map.mp hslot'
  rw [Listing.use] at hrow
  split at hrow
  · rcases List.mem_append.mp hrow with hrow | hrow
    · exact List.mem_map_of_mem (List.mem_of_mem_eraseIdx hrow)
    · exact List.mem_singleton.mp hrow ▸ hslot
  · rcases List.mem_or_eq_of_mem_set hrow with hrow | rfl
    · exact List.mem_map_of_mem hrow
    · exact hslot

/-- A removal puts no entry anywhere. -/
theorem supplies_removeAt (place : Nat) (slot : Backing.Handle) :
    l.Supplies ⟨l.listing.removeAt place, Backing.release l.supply slot⟩ := by
  refine ⟨Backing.spent_release slot, fun slot' hslot' => .inl ?_⟩
  obtain ⟨row, hrow, rfl⟩ := List.mem_map.mp hslot'
  refine List.mem_map_of_mem ?_
  rw [Listing.removeAt] at hrow
  split at hrow
  · rcases List.mem_append.mp hrow with hrow | hrow
    · exact List.mem_of_mem_take hrow
    · exact List.mem_of_mem_drop ((lastFirst_perm _).mem_iff.mp hrow)
  · exact List.mem_of_mem_eraseIdx hrow

/-- A slot that has a row is one of those in order. -/
theorem mem_slots_of_row? {row : Nat × K × V} (h : l.row? slot = some row) : slot ∈ l.slots := by
  obtain ⟨place, hplace, -⟩ := Option.bind_eq_some_iff.mp h
  obtain ⟨hlt, hslot, -⟩ := List.findIdx?_eq_some_iff_getElem.mp hplace
  exact eq_of_beq hslot ▸ List.mem_map_of_mem (List.getElem_mem hlt)

/-- So is one that is located by its key. -/
theorem mem_slots_of_locate? [BEq K] {key stored : K} {place : Nat} {value : V}
    (h : l.listing.locate? key = some (place, stored, slot, value)) : slot ∈ l.slots := by
  obtain ⟨place', -, h⟩ := Option.bind_eq_some_iff.mp h
  obtain ⟨row, hrow, h⟩ := Option.bind_eq_some_iff.mp h
  cases h
  exact List.mem_map_of_mem (List.mem_of_getElem? hrow)

/-- One action, refused or not. -/
theorem perform_supplies [BEq K] {action : Action K V} (hkeep : action.renews = false) :
    (l.perform action).Leaves l.Supplies := by
  cases action with
  | insert key value =>
      show l.Supplies (l.insert key value).2
      rw [insert]
      split
      · rename_i hlocate
        exact supplies_use (mem_slots_of_locate? hlocate)
      · refine ⟨Backing.spent_draw, fun slot hslot => ?_⟩
        rw [slots, List.map_append, List.mem_append] at hslot
        refine hslot.imp_right fun hslot => ?_
        obtain rfl := List.mem_singleton.mp hslot
        exact Backing.not_spent_draw l.supply
  | find key => exact .refl l
  | touch slot =>
      refine Reply.Leaves.map ?_ _
      rw [touch]
      split
      · split
        · rename_i hrow
          exact supplies_use (mem_slots_of_row? hrow)
        · exact .refl l
      · exact .refl l
  | remove key =>
      show l.Supplies (l.remove key).2
      rw [remove]
      split
      · exact supplies_removeAt _ _
      · exact .refl l
  | removeSlot slot =>
      refine Reply.Leaves.map ?_ _
      rw [removeSlot]
      split
      · exact supplies_removeAt _ slot
      · exact .refl l
  | update change =>
      refine ⟨id, fun slot hslot => .inl ?_⟩
      have hslots : (l.update change).slots = l.slots := by simp [slots, update]
      exact hslots ▸ hslot
  | reserve more =>
      rw [perform]
      split <;> exact .refl l
  | shrink => exact .refl l
  | clear => exact ⟨Backing.spent_releaseAll, fun slot hslot => absurd hslot List.not_mem_nil⟩
  | take => cases hkeep

/-- Any number of actions. -/
theorem Stale.performAll [BEq K] (h : l.Stale slot) {actions : List (Action K V)}
    (hkeep : ∀ action ∈ actions, action.renews = false) : (l.performAll actions).Leaves (Stale · slot) := by
  induction actions generalizing l with
  | nil => exact h
  | cons action actions ih =>
      obtain ⟨hfirst, hrest⟩ := List.forall_mem_cons.mp hkeep
      have hstep : (l.perform action).Leaves (Stale · slot) := (perform_supplies hfirst).stale h
      exact hstep.andThen fun report l' h' => (ih h' hrest).map _

end Ledger

/-- A slot from which an entry was removed leads nowhere ever after, whatever is done to the fallback: only a fallback
    that all entries are taken out of gives names out anew. -/
theorem Refines.stale_vacant (h : f.Refines l) {slot : Backing.Handle} (hspent : Backing.Spent f.supply slot)
    (hvacant : f.node? slot = none) {actions : List (Action K V)}
    (hkeep : ∀ action ∈ actions, action.renews = false) : (performAll actions f).state.node? slot = none := by
  obtain ⟨-, ss', hmodels'⟩ := h.performAll_echoes actions
  obtain ⟨ss, hmodels⟩ := h
  have hstale : l.Stale slot := by
    refine ⟨hmodels.supply ▸ hspent, fun hslot => ?_⟩
    rw [hmodels.slots_eq, hmodels.sound.mem_iff, content, hvacant] at hslot
    cases hslot
  have habsent := (hstale.performAll hkeep).absent
  rw [hmodels'.slots_eq, hmodels'.sound.mem_iff, content] at habsent
  simpa using habsent

/-! ## Whole runs -/

/-- Whatever is done to a fallback that starts empty, on any backing, in either order and under any hash functions that do
    not tell equal keys apart: it stays well formed, it reports what the state machine of ledgers reports, it is refused
    where that refuses, and it mirrors the ledger that is left. -/
theorem run_eq_ledger_run {draws : Draws K} (hr : draws.Respects) (byAccess : Bool) (actions : List (Action K V)) :
    (performAll actions (empty draws byAccess)).state.WellFormed ∧
      (performAll actions (empty draws byAccess)).result = ((Ledger.empty byAccess).performAll actions).result ∧
      (performAll actions (empty draws byAccess)).state.Mirrors ((Ledger.empty byAccess).performAll actions).state := by
  have hempty : (empty draws byAccess : Fallback K V).Refines (.empty byAccess) := ⟨[], models_empty hr byAccess⟩
  obtain ⟨hresult, ss, hmodels⟩ := hempty.performAll_echoes actions
  exact ⟨hmodels.wellFormed, hresult, hmodels.mirrors⟩

end Fallback

/-- Four keys with one hash, in the order of use. They are moved from the front, replaced, removed from the front and from
    the middle, and written to. At last all are taken out, and the next key gets the first slot again. -/
theorem Fallback.run_eq_ledger_run_colliding :
    ∃ (draws : Draws Nat) (actions : List (Action Nat Nat)) (reports : List (Report Nat Nat)) (f : Fallback Nat Nat)
      (l : Ledger Nat Nat),
      actions = [.insert 1 10, .insert 3 30, .insert 5 50, .touch (0 : Nat), .insert 3 31, .removeSlot (2 : Nat), .find 5,
        .insert 7 70, .remove 3, .update fun key value => key + value] ∧
      reports = [.inserted none, .inserted none, .inserted none, .moved true, .inserted (some (30, true)),
        .pair (some (5, 50)), .slot none, .inserted none, .pair (some (3, 31)), .pairs [(1, 10), (7, 70)]] ∧
      f = (performAll actions (empty draws true)).state ∧
      (performAll actions (empty draws true)).result = .ok reports ∧
      l = ((Ledger.empty true).performAll actions).state ∧ l.listing.pairs = [(1, (0 : Nat), 11), (7, (3 : Nat), 77)] ∧
      f.WellFormed ∧ f.Mirrors l ∧ f.filed 1 = [(0 : Nat), (3 : Nat)] := by
  have hr : Draws.Respects ⟨fun _ (k : Nat) => (k % 2).toUInt64⟩ := fun _ _ _ hk => by rw [eq_of_beq hk]
  have hrun := run_eq_ledger_run hr true
    [.insert 1 10, .insert 3 30, .insert 5 50, .touch (0 : Nat), .insert 3 31, .removeSlot (2 : Nat), .find 5, .insert 7 70,
      .remove 3, .update fun key value => key + value]
  obtain ⟨hwell, hresult, hmirrors⟩ := hrun
  exact ⟨_, _, _, _, _, rfl, rfl, rfl, hresult.trans (by decide +kernel), rfl, by decide +kernel, hwell, hmirrors,
    by decide +kernel⟩

end DenseHash
