import DenseHash.Proofs.Container.Shows
import DenseHash.Proofs.Iter

/-!
# The parts of which operations are made

Reading, looking up a key, counting a use, replacing a value, removing an entry. Each changes a container at one
slot, so each is described at a slot with the slots before it and those behind it.
-/

namespace DenseHash

namespace Container

variable [Backing] {K V : Type} [BEq K]

/-- The container is sound; it traverses these slots, which hold these entries. -/
structure Shows (c : Container K V) (slots : List Slot) (ps : List (K × V)) : Prop where
  sound : c.store.Sound c.hashing slots
  pairs : slots.filterMap c.store.held = ps

/-- What a container that traversed `slots` became after `n` changes of structure shows these entries. -/
def Becomes (n : Nat) (c : Container K V) (slots : List Slot) (ps : List (K × V)) (c' : Container K V) :
    Prop :=
  ∃ slots', c'.Shows slots' ps ∧ c.Evolves n slots c' slots'

namespace Shows

variable {c : Container K V} {slots as bs : List Slot} {slot : Slot} {ps : List (K × V)} {key : K}
  {value : V} {p : K × V}

theorem becomes_self (h : c.Shows slots ps) : c.Becomes 0 slots ps c := ⟨slots, h, .refl c slots⟩

/-- No two entries have the same key. -/
theorem distinctKeys (h : c.Shows slots ps) (hr : c.hashing.Respects) : DistinctKeys ps :=
  h.pairs ▸ h.sound.distinctKeys hr

/-! ## Reading -/

/-- A slot in the traversal holds an entry, which stands among the others where the slot does. -/
theorem split (h : c.Shows (as ++ slot :: bs) ps) :
    ∃ p, c.store.held slot = some p ∧
      ps = as.filterMap c.store.held ++ p :: bs.filterMap c.store.held := by
  obtain ⟨p, hp⟩ := h.sound.mem_iff.mp (List.mem_append_right as List.mem_cons_self)
  exact ⟨p, hp, h.pairs ▸ filterMap_append_cons hp⟩

/-- Every slot that is traversed holds an entry. -/
theorem held_of_mem (h : c.Shows slots ps) (hslot : slot ∈ slots) : ∃ p, c.store.held slot = some p :=
  h.sound.mem_iff.mp hslot

/-- There are entries behind a slot if there are slots behind it. -/
theorem isEmpty_behind (h : c.Shows (as ++ slot :: bs) ps) :
    (bs.filterMap c.store.held).isEmpty = bs.isEmpty :=
  isEmpty_filterMap fun _ hb => h.held_of_mem (List.mem_append_right as (List.mem_cons_of_mem slot hb))

/-- As many entries as slots. -/
theorem length_held (h : c.Shows slots ps) (has : ∀ k ∈ as, k ∈ slots) :
    (as.filterMap c.store.held).length = as.length := by
  refine List.filterMap_length_eq_length.mpr fun slot hslot => ?_
  obtain ⟨p, hp⟩ := h.held_of_mem (has slot hslot)
  rw [hp]
  rfl

/-- The size is the number of entries. -/
theorem size_eq (h : c.Shows slots ps) : c.size = ps.length := by
  rw [size, h.sound.size_eq, ← h.pairs, h.length_held fun _ hk => hk]

theorem size_of_table {t : Table K V} (h : c.Shows slots ps) (hs : c.store = .table t) : t.size = ps.length := by
  rw [← h.size_eq, size, hs]
  rfl

/-- A script over the iterator reads the entries from both ends. -/
theorem iter_run_eq (h : c.Shows slots ps) (moves : List Move) :
    c.iter.run moves = .ok (Script.read moves ps) := by
  rw [iter, (Iter.window_start h.sound).run_eq, Iter.items, ← h.pairs]
  rfl

/-- Collected, the entries are in order. -/
theorem toList_eq (h : c.Shows slots ps) : c.toList = .ok ps := by
  rw [toList, iter, (Iter.window_start h.sound).toList_eq, Iter.items, ← h.pairs]
  rfl

theorem first_eq (h : c.Shows slots ps) : c.first = .ok ps.head? := by
  rw [first, h.sound.first_eq]
  cases slots with
  | nil =>
      obtain rfl : [] = ps := h.pairs
      rfl
  | cons slot bs =>
      obtain ⟨p, hp, rfl⟩ := split (c := c) (show c.Shows ([] ++ slot :: bs) ps from h)
      show (c.store.pair slot >>= _) = _
      rw [Store.pair_eq hp]
      rfl

theorem last_eq (h : c.Shows slots ps) : c.last = .ok ps.getLast? := by
  rw [last, h.sound.last_eq]
  rcases List.eq_nil_or_concat' slots with rfl | ⟨as, slot, rfl⟩
  · obtain rfl : [] = ps := h.pairs
    rfl
  · obtain ⟨p, hp, rfl⟩ := h.split
    rw [List.getLast?_concat]
    show (c.store.pair slot >>= _) = _
    rw [Store.pair_eq hp, List.filterMap_nil, List.getLast?_concat]
    rfl

/-! ## Looking up a key -/

/-- What looking a key up in a container that shows these entries can find. -/
inductive Found (c : Container K V) (key : K) : List Slot → List (K × V) → Option Slot → Prop where
  | present {as bs : List Slot} {slot : Slot} {stored : K} {value : V}
      (held : c.store.held slot = some (stored, value)) (same : (stored == key) = true) :
      Found c key (as ++ slot :: bs)
        (as.filterMap c.store.held ++ (stored, value) :: bs.filterMap c.store.held) (some slot)
  | absent {slots : List Slot} {ps : List (K × V)} (missing : ∀ p ∈ ps, (p.1 == key) = false) :
      Found c key slots ps none

/-- No entry has a key that no slot holds. -/
theorem missing (h : c.Shows slots ps)
    (hnot : ∀ slot stored value, c.store.held slot = some (stored, value) → (stored == key) = false) :
    ∀ p ∈ ps, (p.1 == key) = false := by
  intro p hp
  rw [← h.pairs] at hp
  obtain ⟨slot, -, hheld⟩ := List.mem_filterMap.mp hp
  exact hnot slot p.1 p.2 hheld

/-- What looking a key up can tell, whatever the hashes are. The slot that it leads to has the key, and no slot is missed
    that has the key under the hash of the one that is looked for. -/
inductive Tells (c : Container K V) (key : K) : Option Slot → Prop where
  | found {slot : Slot} {stored : K} {value : V} (held : c.store.held slot = some (stored, value))
      (same : (stored == key) = true) : Tells c key (some slot)
  | missed (absent : ∀ slot stored value, c.store.held slot = some (stored, value) → (stored == key) = true →
      ¬c.store.SameHash c.hashing stored key) : Tells c key none

/-- Looking up returns, and tells what it can whatever the hashes are. -/
theorem find_tells [EquivBEq K] (h : c.Shows slots ps) (key : K) : ∃ r, c.find key = .ok r ∧ Tells c key r := by
  rw [find]
  cases hs : c.store with
  | table t =>
      obtain ⟨is, rfl, ht, hhash⟩ := h.sound.exists_indices hs
      obtain ⟨r, hfind, hiff⟩ := ht.find_eq (c.storedHash key) key
      refine ⟨r.map .index, by dsimp only; rw [hfind]; rfl, ?_⟩
      cases r with
      | some i =>
          obtain ⟨stored, value, hheld, hkey, -⟩ := (Store.holds_table_iff hhash).mp ((hiff i).mp rfl)
          exact .found (hs ▸ hheld) hkey
      | none =>
          refine .missed fun slot stored value hheld hkey hsame => ?_
          rw [hs] at hheld hsame
          cases slot with
          | node k => cases hheld
          | index i =>
              have hholds := (Store.holds_table_iff hhash).mpr ⟨stored, value, hheld, hkey, hsame⟩
              exact absurd ((hiff i).mpr hholds).symm (Option.some_ne_none i)
  | fallback f =>
      obtain ⟨ss, rfl, hf, -⟩ := h.sound.exists_nodes hs
      obtain ⟨r, hfind, hfinds⟩ := hf.find_finds key
      refine ⟨r.map .node, by dsimp only; rw [hfind]; rfl, ?_⟩
      cases hfinds with
      | found hc hkey => exact .found (by rw [hs, Store.held, Fallback.pair?, hc]; rfl) hkey
      | missed habsent =>
          refine .missed fun slot stored value hheld hkey hsame => ?_
          rw [hs] at hheld hsame
          cases slot with
          | index i => cases hheld
          | node k => exact habsent k (Store.holds_of_held hf hheld hkey hsame)

/-- If every slot holds the same key, and is filed under the same hash, every lookup leads to the same slot. -/
theorem find_congr [EquivBEq K] {c' : Container K V} {slots' : List Slot} {ps' : List (K × V)} (h : c.Shows slots ps)
    (h' : c'.Shows slots' ps') (hhashing : c'.hashing = c.hashing) (hfiles : c.store.SameFiles c'.store)
    (hkeys : ∀ slot, (c'.store.held slot).map Prod.fst = (c.store.held slot).map Prod.fst) (key : K) :
    c'.find key = c.find key := by
  rw [find, find]
  cases hs : c.store with
  | table t =>
      cases hs' : c'.store with
      | fallback f' => exact (hs' ▸ hs ▸ hfiles : Store.SameFiles (.table t) (.fallback f')).elim
      | table t' =>
          obtain ⟨is, -, ht, hhash⟩ := h.sound.exists_indices hs
          obtain ⟨is', -, ht', hhash'⟩ := h'.sound.exists_indices hs'
          rw [hs, hs'] at hkeys
          have hholds (i : Nat) : t'.holds (c'.storedHash key) key i = t.holds (c.storedHash key) key i := by
            have hkey : (t'.pair? i).map Prod.fst = (t.pair? i).map Prod.fst := hkeys (.index i)
            rw [hhashing] at hhash'
            rw [Bool.eq_iff_iff, hhash'.holds_iff_key, hhash.holds_iff_key, hkey, storedHash, storedHash, hhashing]
          dsimp only
          rw [ht.find_congr ht' hholds]
  | fallback f =>
      cases hs' : c'.store with
      | table t' => exact (hs' ▸ hs ▸ hfiles : Store.SameFiles (.fallback f) (.table t')).elim
      | fallback f' =>
          obtain ⟨ss, -, hf, -⟩ := h.sound.exists_nodes hs
          obtain ⟨ss', -, hf', -⟩ := h'.sound.exists_nodes hs'
          rw [hs, hs'] at hkeys hfiles
          dsimp only
          rw [hf.find_congr hf' hfiles.1 hfiles.2 (fun k => hkeys (.node k)) key]

/-- Where equal keys have equal hashes, it tells the slot that holds the key, if there is one. -/
theorem find_eq_iff [EquivBEq K] (h : c.Shows slots ps) (hr : c.hashing.Respects) (key : K) :
    ∃ r, c.find key = .ok r ∧
      ∀ slot, r = some slot ↔ ∃ stored value, c.store.held slot = some (stored, value) ∧
        (stored == key) = true := by
  obtain ⟨r, hfind, htells⟩ := h.find_tells key
  refine ⟨r, hfind, fun slot => ?_⟩
  cases htells with
  | found hheld hkey =>
      constructor
      · rintro ⟨⟩
        exact ⟨_, _, hheld, hkey⟩
      · rintro ⟨stored', value', hheld', hkey'⟩
        rw [h.sound.distinct hr hheld hheld' (BEq.trans hkey (BEq.symm hkey'))]
  | missed habsent =>
      refine Iff.intro (fun hs => nomatch hs) ?_
      rintro ⟨stored, value, hheld, hkey⟩
      exact absurd (h.sound.sameHash hr hkey) (habsent slot stored value hheld hkey)

/-- Where equal keys have equal hashes, looking up finds the key or shows that it is missing. -/
theorem find_eq [EquivBEq K] (h : c.Shows slots ps) (hr : c.hashing.Respects) (key : K) :
    ∃ r, c.find key = .ok r ∧ Found c key slots ps r := by
  obtain ⟨r, hr', hiff⟩ := h.find_eq_iff hr key
  refine ⟨r, hr', ?_⟩
  cases r with
  | some slot =>
      obtain ⟨stored, value, hheld, hkey⟩ := (hiff slot).mp rfl
      obtain ⟨as, bs, rfl⟩ := List.append_of_mem (h.sound.mem_iff.mpr ⟨_, hheld⟩)
      obtain ⟨p, hp, rfl⟩ := h.split
      rw [hheld] at hp
      cases hp
      exact .present hheld hkey
  | none =>
      refine .absent (h.missing fun slot stored value hheld => ?_)
      refine Bool.eq_false_iff.mpr fun hkey => ?_
      exact nomatch (hiff slot).mpr ⟨stored, value, hheld, hkey⟩

/-! ## Using and replacing -/

/-- Using an entry counts a change if the entry is moved, and changes no entry. -/
theorem touch_gives (h : c.Shows (as ++ slot :: bs) ps) :
    (c.touch slot).Gives fun _ c' => c'.store.held = c.store.held ∧
      c'.store.Sound c'.hashing (used c.store.byAccess as slot bs) ∧
      c.Evolves (c.store.byAccess && !bs.isEmpty).toNat (as ++ slot :: bs) c'
        (used c.store.byAccess as slot bs) := by
  obtain ⟨s, hs, hkind, hsound, hheld⟩ := h.sound.touch_eq
  rw [touch]
  rw [hs]
  cases hmoved : (c.store.byAccess && !bs.isEmpty) with
  | true => exact Reply.gives_ok ⟨hheld, hsound, .counted hkind⟩
  | false =>
      refine Reply.gives_ok ⟨hheld, hsound, .silent hkind ?_⟩
      rw [used_of_not_moved hmoved, Store.labels, hheld]
      rfl

/-- The lookup of a key that is there, if nothing is done with the value. -/
theorem get_present (h : c.Shows (as ++ slot :: bs) ps) (hp : c.store.held slot = some (key, value)) :
    ((c.touch slot).andThen fun _ c' =>
      match c'.store.pair slot with
      | .ok (_, value) => .ok c' (some value)
      | .error e => .fail c' e).Gives fun a c' => a = some value ∧
        c.Becomes (c.store.byAccess && !bs.isEmpty).toNat (as ++ slot :: bs)
          (used c.store.byAccess (as.filterMap c.store.held) (key, value) (bs.filterMap c.store.held)) c' := by
  refine h.touch_gives.andThen fun _ c' hc' => ?_
  obtain ⟨hheld, hsound, hev⟩ := hc'
  rw [Store.pair_eq (hheld ▸ hp)]
  refine Reply.gives_ok ⟨rfl, _, ⟨hsound, ?_⟩, hev⟩
  rw [hheld]
  exact filterMap_used _ hp

/-- Replacing a value in a store, seen from the container. -/
theorem setValue_eq (h : c.Shows slots ps) (hp : c.store.held slot = some (key, value)) (new : V) :
    ∃ s, c.store.setValue slot new = .ok s ∧ c.store.SameKind s ∧
      s.held = Function.update c.store.held slot (some (key, new)) ∧
      Shows { c with store := s } slots (slots.filterMap s.held) ∧
      c.Evolves 0 slots { c with store := s } slots := by
  obtain ⟨s, hs, hkind, hsound, hheld⟩ := h.sound.setValue_eq hp new
  exact ⟨s, hs, hkind, hheld, ⟨hsound, rfl⟩, .silent hkind (Store.labels_of_update hp hheld slots)⟩

/-- When the entry in a slot is replaced, the others stay. -/
theorem held_replaced {s : Store K V} (h : c.Shows (as ++ slot :: bs) ps)
    (hheld : s.held = Function.update c.store.held slot (some p)) :
    s.held slot = some p ∧ as.filterMap s.held = as.filterMap c.store.held ∧
      bs.filterMap s.held = bs.filterMap c.store.held := by
  have hnot : slot ∉ as ++ bs := (List.nodup_middle.mp h.sound.nodup).notMem
  rw [List.mem_append, not_or] at hnot
  rw [hheld, Function.update_self, filterMap_update_of_not_mem hnot.1, filterMap_update_of_not_mem hnot.2]
  exact ⟨rfl, rfl, rfl⟩

/-- A slot that is used and has its entry replaced: the slots in their new order hold the entries in theirs. -/
theorem used_replaced {s : Store K V} (h : c.Shows (as ++ slot :: bs) ps)
    (hheld : s.held = Function.update c.store.held slot (some p)) (byAccess : Bool) :
    (used byAccess as slot bs).filterMap s.held =
      used byAccess (as.filterMap c.store.held) p (bs.filterMap c.store.held) := by
  rw [hheld]
  exact filterMap_used_update (List.nodup_middle.mp h.sound.nodup).notMem byAccess p

/-- The use of a key that is there, with its value replaced afterwards. -/
theorem modify_present (h : c.Shows (as ++ slot :: bs) ps) (hp : c.store.held slot = some (key, value))
    (g : V → V) :
    ((c.touch slot).andThen fun _ c' =>
      c'.ofStore (do
        let (_, value) ← c'.store.pair slot
        let store ← c'.store.setValue slot (g value)
        pure (some (g value), store))).Gives fun a c' => a = some (g value) ∧
          c.Becomes (c.store.byAccess && !bs.isEmpty).toNat (as ++ slot :: bs)
            (used c.store.byAccess (as.filterMap c.store.held) (key, g value)
              (bs.filterMap c.store.held)) c' := by
  refine h.touch_gives.andThen fun _ c' hc' => ?_
  obtain ⟨hheld, hsound, hev⟩ := hc'
  have hp' : c'.store.held slot = some (key, value) := hheld ▸ hp
  have hused : c'.Shows (used c.store.byAccess as slot bs) _ := ⟨hsound, rfl⟩
  obtain ⟨s, hs, -, hupdate, hshows, hev'⟩ := hused.setValue_eq hp' (g value)
  rw [Store.pair_eq hp', Checked.ok_bind]
  dsimp only
  rw [hs]
  rw [hheld] at hupdate
  exact Reply.gives_ok ⟨rfl, _, ⟨hshows.sound, h.used_replaced hupdate c.store.byAccess⟩, hev.trans hev'⟩

/-! ## Removing -/

/-- What is left of a container when the entry in a slot was removed. -/
structure Removed (c : Container K V) (as : List Slot) (slot : Slot) (bs : List Slot)
    (rename : Slot → Slot) (c' : Container K V) : Prop where
  kind : c.store.SameKind c'.store
  sound : c'.store.Sound c'.hashing ((as ++ closeUp c.store.isPacked bs).map rename)
  front : (as.map rename).filterMap c'.store.held = as.filterMap c.store.held
  back : ((closeUp c.store.isPacked bs).map rename).filterMap c'.store.held =
    closeUp c.store.isPacked (bs.filterMap c.store.held)
  evolves : c.Evolves 1 (as ++ slot :: bs) c' ((as ++ closeUp c.store.isPacked bs).map rename)

/-- What is shown after a removal: the entries in front of the gap, and those behind it as the gap is closed. -/
theorem Removed.shows {rename : Slot → Slot} {c' : Container K V} (h : Removed c as slot bs rename c') :
    c'.Shows ((as ++ closeUp c.store.isPacked bs).map rename)
      (as.filterMap c.store.held ++ closeUp c.store.isPacked (bs.filterMap c.store.held)) :=
  ⟨h.sound, by rw [List.map_append, List.filterMap_append, h.front, h.back]⟩

/-- A removal from the storage is counted, and seen from the container it is one. -/
theorem removed_of_store {s : Store K V} {rename : Slot → Slot} (h : c.Shows (as ++ slot :: bs) ps)
    (hremoves : c.store.Removes c.hashing as bs rename s) :
    Removed c as slot bs rename ({ c with store := s } : Container K V).bump where
  kind := hremoves.kind
  sound := hremoves.sound
  front := by
    rw [List.filterMap_map]
    exact List.filterMap_congr fun k hk => hremoves.held k (List.mem_append_left bs hk)
  back := by
    have hheld : ∀ b ∈ bs, ∃ p, c.store.held b = some p := fun b hb =>
      h.held_of_mem (List.mem_append_right as (List.mem_cons_of_mem slot hb))
    rw [List.filterMap_map, ← filterMap_closeUp hheld]
    refine List.filterMap_congr fun k hk => hremoves.held k ?_
    exact List.mem_append_right as ((closeUp_perm _ bs).mem_iff.mp hk)
  evolves := .counted hremoves.kind

/-- Removing at a slot gives its entry. A cursor that asks where to go on is told the new name of the next slot. -/
theorem removeSlot_gives {upcoming : Option Slot} (h : c.Shows (as ++ slot :: bs) ps)
    (hp : c.store.held slot = some p) (hup : upcoming = none ∨ upcoming = bs.head?) :
    (c.removeSlot slot upcoming).Gives fun r c' => r.1 = p ∧ ∃ rename, Removed c as slot bs rename c' ∧
      (upcoming = bs.head? → r.2 = (closeUp c.store.isPacked bs).head?.map rename) := by
  obtain ⟨resume, rename, s, hs, hremoves, hresume⟩ := h.sound.removeSlot_eq hp hup
  rw [removeSlot]
  rw [hs]
  exact Reply.gives_ok ⟨rfl, rename, removed_of_store h hremoves, hresume⟩

/-- A removal that gave a result was made at a slot that is traversed, and gave what was there. -/
theorem removeSlot_of_ok {upcoming : Option Slot} {r : (K × V) × Option Slot} (h : c.Shows slots ps)
    (hrem : (c.removeSlot slot upcoming).result = .ok r) :
    ∃ as bs rename, slots = as ++ slot :: bs ∧ c.store.held slot = some r.1 ∧
      Removed c as slot bs rename (c.removeSlot slot upcoming).state := by
  rw [removeSlot] at hrem ⊢
  cases hs : c.store.removeSlot slot upcoming with
  | error f =>
      rw [hs] at hrem
      exact nomatch hrem
  | ok removed =>
      obtain ⟨r', s⟩ := removed
      rw [hs] at hrem
      obtain rfl : r' = r := Except.ok.inj hrem
      obtain ⟨as, bs, rename, rfl, hheld, hremoves⟩ := h.sound.removeSlot_of_ok hs
      exact ⟨as, bs, rename, rfl, hheld, h.removed_of_store hremoves⟩

/-- Any other slot is refused, and nothing changes. -/
theorem removeSlot_cases (h : c.Shows slots ps) (slot : Slot) (upcoming : Option Slot) :
    ((c.removeSlot slot upcoming).state = c ∧ ∀ r, (c.removeSlot slot upcoming).result ≠ .ok r) ∨
      ∃ r as bs rename, (c.removeSlot slot upcoming).result = .ok r ∧ slots = as ++ slot :: bs ∧
        c.store.held slot = some r.1 ∧ Removed c as slot bs rename (c.removeSlot slot upcoming).state := by
  cases hrem : (c.removeSlot slot upcoming).result with
  | ok r =>
      obtain ⟨as, bs, rename, hslots, hheld, hremoved⟩ := h.removeSlot_of_ok hrem
      exact .inr ⟨r, as, bs, rename, rfl, hslots, hheld, hremoved⟩
  | error f =>
      refine .inl ⟨?_, fun r hr => nomatch hr⟩
      rw [removeSlot] at hrem ⊢
      cases hs : c.store.removeSlot slot upcoming with
      | error f' => rfl
      | ok r =>
          rw [hs] at hrem
          cases hrem

end Shows

end Container

end DenseHash
