import DenseHash.Proofs.Generation
import DenseHash.Proofs.Iter

/-!
# All ways of enumerating agree

Reading, taking references, draining, using a container up and retaining all of it give the same entries in the same order
(`Container.Enumerates`), which is the one from the first slot along the next ones. Of the ways that change something:

* **Changing values** changes those that are handed out, and what a script hands out is told by a deck of slots
  (`Container.Retouched`). The slots and their keys stay, so every key is found where it was.
* **Draining** empties the container before anything is handed out (`Container.Emptied`).

Nothing is asked of the hash functions.
-/

namespace DenseHash

variable {K V : Type}

/-! ## Changing what is handed out -/

namespace Listing

open Store (changed)

variable {change : K → V → V} {ps : List (K × V)}

/-- Where there are no entries, a script leaves none. -/
theorem snd_revise_nil (moves : List Move) : (revise change moves ([] : List (K × V))).2 = [] := by
  induction moves with
  | nil => rfl
  | cons move moves ih =>
      cases move with
      | back => exact ih
      | front => exact ih
      | length => exact ih
      | bounds => exact ih
      | copy => exact ih
      | rest => rfl

/-- The entries that are changed are the ones that are handed out. -/
theorem snd_revise (change : K → V → V) (moves : List Move) (d : Deck (K × V)) :
    d.front.map (changed change) ++ (revise change moves d.rest).2 ++ d.back.reverse.map (changed change) =
      (d.run moves).2.front.map (changed change) ++ (d.run moves).2.rest ++
        (d.run moves).2.back.reverse.map (changed change) := by
  induction moves generalizing d with
  | nil => rfl
  | cons move moves ih =>
      obtain ⟨fs, as, bs⟩ := d
      refine Eq.trans ?_ (ih (Deck.use move ⟨fs, as, bs⟩).2)
      cases move with
      | front =>
          cases as with
          | nil => rfl
          | cons p as => simp [revise, changed]
      | back =>
          rcases List.eq_nil_or_concat' as with rfl | ⟨as, p, rfl⟩
          · rfl
          · simp [revise, changed]
      | length => rfl
      | bounds => rfl
      | copy => rfl
      | rest => simp [Deck.use, revise, snd_revise_nil, changed]

/-- What is shown are the entries with their new values, unless a copy is read before they have them. -/
theorem fst_revise {moves : List Move} (hcopy : .copy ∉ moves) (ps : List (K × V)) :
    (revise change moves ps).1 = Script.read moves (ps.map (changed change)) := by
  induction moves generalizing ps with
  | nil => rfl
  | cons move moves ih =>
      have hmoves : .copy ∉ moves := fun hmem => hcopy (List.mem_cons_of_mem move hmem)
      cases move with
      | front =>
          cases ps with
          | nil => simp [revise, Script.read, ih hmoves]
          | cons p ps => simp [revise, Script.read, ih hmoves, changed]
      | back =>
          rcases List.eq_nil_or_concat' ps with rfl | ⟨ps, p, rfl⟩
          · simp [revise, Script.read, ih hmoves]
          · simp [revise, Script.read, ih hmoves, changed]
      | length => simp [revise, Script.read, ih hmoves]
      | bounds => simp [revise, Script.read, ih hmoves]
      | copy => exact absurd List.mem_cons_self hcopy
      | rest => simp [revise, Script.read, ih hmoves, changed]

/-- Read slot by slot: the values in the slots that are handed out are changed, and the others are the same. -/
theorem revise_held [Backing] {slots : List Slot} {held held' : Slot → Option (K × V)} (change : K → V → V)
    (moves : List Move) (hps : ps.map some = slots.map held)
    (hps' : (revise change moves ps).2.map some = slots.map held') :
    (∀ slot ∈ ((Deck.start slots).run moves).2.front ++ ((Deck.start slots).run moves).2.back,
        held' slot = (held slot).map (changed change)) ∧
      ∀ slot ∈ ((Deck.start slots).run moves).2.rest, held' slot = held slot := by
  have hwhole := Deck.whole_run moves (Deck.start slots)
  have hread := Deck.snd_run_congr hps moves
  have hafter := congrArg (List.map some) (snd_revise change moves (Deck.start ps))
  generalize ((Deck.start slots).run moves).2 = deck at hwhole hread ⊢
  generalize ((Deck.start ps).run moves).2 = entries at hread hafter
  obtain ⟨hfront, hrest, hback⟩ := Deck.mk.inj hread
  have hchanged {qs : List (K × V)} {is : List Slot} (h : qs.map some = is.map held) :
      (qs.map (changed change)).map some = is.map fun slot => (held slot).map (changed change) := by
    have hmap := congrArg (List.map (Option.map (changed change))) h
    simpa only [List.map_map, Function.comp_def, Option.map_some] using hmap
  have hreverse : entries.back.reverse.map some = deck.back.reverse.map held := by
    rw [List.map_reverse, hback, List.map_reverse]
  simp only [Deck.start, List.map_nil, List.nil_append, List.reverse_nil, List.append_nil, List.map_append, hps',
    hchanged hfront, hrest, hchanged hreverse] at hafter
  -- what is held now, along the same slots
  have hslots : deck.front ++ deck.rest ++ deck.back.reverse = slots := hwhole.trans (Deck.whole_start slots)
  rw [← hslots, List.map_append, List.map_append] at hafter
  obtain ⟨hfirst, hbehind⟩ := List.append_inj hafter (by simp)
  obtain ⟨hfirst, hmiddle⟩ := List.append_inj hfirst (by simp)
  rw [List.map_inj_left] at hfirst hmiddle hbehind
  refine ⟨fun slot hslot => ?_, hmiddle⟩
  rcases List.mem_append.mp hslot with hslot | hslot
  · exact hfirst slot hslot
  · exact hbehind slot (List.mem_reverse.mpr hslot)

/-! ## Retaining everything -/

/-- A visitor that lets every entry stay sees them all, in order. -/
theorem sift_all {keep : List (K × V) → K → V → V × Bool} (hkeep : ∀ seen key value, (keep seen key value).2 = true)
    (packed : Bool) (seen ps : List (K × V)) :
    ∃ kept, sift packed (fun seen key value => ((key, value) :: seen, keep seen key value)) seen ps =
      (kept, ps.reverse ++ seen) ∧ kept.length = ps.length := by
  induction ps generalizing seen with
  | nil => exact ⟨[], by rw [sift]; rfl, rfl⟩
  | cons p ps ih =>
      obtain ⟨key, value⟩ := p
      obtain ⟨value', stays, hvisit⟩ : ∃ value' stays, keep seen key value = (value', stays) := ⟨_, _, rfl⟩
      obtain rfl : stays = true := (congrArg Prod.snd hvisit).symm.trans (hkeep seen key value)
      obtain ⟨kept, hsift, hlength⟩ := ih ((key, value) :: seen)
      have hstays : ((key, value) :: seen, keep seen key value) = ((key, value) :: seen, value', true) := by rw [hvisit]
      refine ⟨(key, value') :: kept, ?_, congrArg Nat.succ hlength⟩
      rw [sift_keep hstays, hsift]
      simp

/-- So it tells all entries and changes nothing. -/
theorem apply_retain_all [BEq K] {keep : List (K × V) → K → V → V × Bool}
    (hkeep : ∀ seen key value, (keep seen key value).2 = true) (l : Listing K V) :
    (l.apply (.retain keep)).1 = .pairs l.pairs ∧ l.changes (.retain keep) = 0 := by
  obtain ⟨kept, hsift, hlength⟩ := sift_all hkeep l.packed [] l.pairs
  have happly : l.apply (.retain keep) = (.pairs l.pairs, { l with pairs := kept }) := by
    simp [apply, hsift]
  refine ⟨congrArg Prod.fst happly, ?_⟩
  rw [changes, happly, hlength]
  exact Nat.sub_self _

end Listing

/-! ## Containers -/

namespace Container

section Enumerated

variable [Backing] [BEq K] {c c' d : Container K V} {slots : List Slot} {ps : List (K × V)}

/-- What is enumerated in every way: these entries, in the traversal order, in which every slot that can be read comes
    once. -/
structure Enumerates (c : Container K V) (slots : List Slot) (ps : List (K × V)) : Prop where
  traversed : c.store.slots = .ok slots
  once : slots.Nodup
  all : ∀ slot, slot ∈ slots ↔ ∃ p, c.store.pair slot = .ok p
  inOrder : slots.mapM c.store.pair = .ok ps
  iter : c.toList = .ok ps
  references : c.store.references = .ok slots
  entries : c.entries = .ok ps
  drain : c.drain.result = .ok ps
  retain : ∀ keep, (∀ seen key value, (keep seen key value).2 = true) →
    (c.retainWith keep).result = .ok ps ∧ c.SameStructure (c.retainWith keep).state ∧
      (c.retainWith keep).state.generation = c.generation

/-- The values in the slots that a deck has handed out were changed, and nothing else was. -/
structure Retouched (change : K → V → V) (deck : Deck Slot) (c c' : Container K V) : Prop where
  slots : c'.store.slots = c.store.slots
  isFallback : c'.isFallback = c.isFallback
  generation : c'.generation = c.generation
  find : ∀ key, c'.find key = c.find key
  handed : ∀ slot ∈ deck.front ++ deck.back, ∃ key value, c.store.pair slot = .ok (key, value) ∧
    c'.store.pair slot = .ok (key, change key value)
  left : ∀ slot ∈ deck.rest, c'.store.pair slot = c.store.pair slot
  others : ∀ key, (∀ slot ∈ deck.front ++ deck.back, ∀ p, c.store.pair slot = .ok p → (p.1 == key) = false) →
    c'.entry? key = c.entry? key

/-- The container was emptied, and nothing else was done to it: it is of the same form, it will be traversed in the same
    way, and it has as many buckets as before, all of them empty. -/
structure Emptied (c c' : Container K V) : Prop where
  size : c'.size = 0
  toList : c'.toList = .ok []
  kind : c.store.SameKind c'.store
  heads : ∀ t, c.store = .table t → ∃ t', c'.store = .table t' ∧ t'.heads = Array.replicate t.buckets .empty

namespace Shows

/-- A container that shows entries is intact. -/
theorem intact (h : c.Shows slots ps) : c.store.Intact := by
  cases hs : c.store with
  | table t =>
      obtain ⟨is, -, ht, -⟩ := h.sound.exists_indices hs
      exact ⟨is, ht⟩
  | fallback f => trivial

/-- Retaining everything shows all entries and leaves them where they are. -/
theorem retainWith_all (h : c.Shows slots ps) {keep : List (K × V) → K → V → V × Bool}
    (hkeep : ∀ seen key value, (keep seen key value).2 = true) :
    (c.retainWith keep).result = .ok ps ∧ c.SameStructure (c.retainWith keep).state ∧
      (c.retainWith keep).state.generation = c.generation := by
  obtain ⟨qs, hok, happly, slots', hshows', hev⟩ := h.retainWith_gives keep
  obtain ⟨hall, hchanges⟩ := Listing.apply_retain_all hkeep (c.listingOf ps)
  obtain rfl : ps = qs := Answer.pairs.inj (hall.symm.trans happly)
  have hform : KeepsForm c (c.apply (.retain keep)) := apply_keepsForm h.intact not_false
  have hform : (c.retainWith keep).state.isFallback = c.isFallback := hform.form.isFallback
  have hzero : (c.listingOf ps).changes (.retain keep) + c.floods (c.retainWith keep).state = 0 := by
    rw [hchanges, floods_eq_zero hform]
  exact ⟨hok, hev.sameStructure h hshows' hzero, (hev.generation_eq hzero).1⟩

/-- All ways to list the entries show the same ones in the same order. -/
theorem enumerates (h : c.Shows slots ps) : c.Enumerates slots ps where
  traversed := h.sound.slots_eq
  once := h.sound.nodup
  all := by
    intro slot
    simp only [h.sound.mem_iff, Store.pair_eq_ok_iff]
  inOrder := by
    have hread := h.sound.inOrder_eq
    rw [Store.inOrder, h.sound.slots_eq, Checked.ok_bind, h.pairs] at hread
    exact hread
  iter := h.toList_eq
  references := h.sound.references_eq
  entries := h.pairs ▸ h.sound.pairs_eq
  drain := by
    obtain ⟨qs, hok, hall, -⟩ := h.drain_gives
    rw [hok, ← Answer.pairs.inj hall]
    rfl
  retain := fun keep hkeep => h.retainWith_all hkeep

/-- Draining empties the container and does nothing else to it. -/
theorem emptied (h : c.Shows slots ps) : c.Emptied c.drain.state := by
  obtain ⟨qs, -, -, slots', hshows', -⟩ := h.drain_gives
  have hrenewed : c.drain.state.store = c.store.renewed := by
    rw [drain]
    rw [h.take_eq]
    rfl
  refine ⟨hshows'.size_eq, hshows'.toList_eq, hrenewed ▸ c.store.sameKind_renewed, fun t ht => ?_⟩
  rw [hrenewed, ht]
  exact ⟨t.cleared, rfl, rfl⟩

/-- Only what a script hands out is changed. -/
theorem retouched [EquivBEq K] (h : c.Shows slots ps) (moves : List Move) (change : K → V → V) :
    c.Retouched change ((Deck.start slots).run moves).2 (c.revise moves change).state := by
  obtain ⟨s, hrevised, hrev, hpairs⟩ := h.revise_eq moves change
  have hshows' : ({ c with store := s } : Container K V).Shows slots _ := ⟨hrev.sound, rfl⟩
  have hfind (key : K) : ({ c with store := s } : Container K V).find key = c.find key :=
    h.find_congr hshows' rfl hrev.files hrev.keys key
  have hbefore : ps.map some = slots.map c.store.held := h.pairs ▸ map_some_filterMap fun slot => h.held_of_mem
  have hafter : (Listing.revise change moves ps).2.map some = slots.map s.held :=
    hpairs ▸ map_some_filterMap fun slot => hshows'.held_of_mem
  obtain ⟨hhanded, hleft⟩ := Listing.revise_held change moves hbefore hafter
  have hwhole := Deck.whole_run moves (Deck.start slots)
  rw [Deck.whole_start] at hwhole
  rw [show (c.revise moves change).state = { c with store := s } from congrArg Reply.state hrevised]
  generalize ((Deck.start slots).run moves).2 = deck at *
  have hmem (slot : Slot) : slot ∈ slots ↔ slot ∈ deck.front ++ deck.back ∨ slot ∈ deck.rest := by
    simp only [← hwhole, Deck.whole, List.mem_append, List.mem_reverse]
    tauto
  refine ⟨hrev.sound.slots_eq.trans h.sound.slots_eq.symm, hrev.kind.isFallback, rfl, hfind, fun slot hslot => ?_,
    fun slot hslot => ?_, fun key hothers => ?_⟩
  · obtain ⟨⟨key, value⟩, hp⟩ := h.held_of_mem ((hmem slot).mpr (.inl hslot))
    exact ⟨key, value, Store.pair_eq hp, Store.pair_eq (by rw [hhanded slot hslot, hp]; rfl)⟩
  · obtain ⟨p, hp⟩ := h.held_of_mem ((hmem slot).mpr (.inr hslot))
    exact (Store.pair_eq ((hleft slot hslot).trans hp)).trans (Store.pair_eq hp).symm
  · obtain ⟨r, hr, htells⟩ := h.find_tells key
    rw [Container.entry?, Container.entry?, hfind, hr]
    cases htells with
    | missed absent => rfl
    | @found slot stored value hheld hkey =>
        -- no slot that was handed out has this key
        have hnot : slot ∉ deck.front ++ deck.back := by
          intro hslot
          cases hkey.symm.trans (hothers slot hslot _ (Store.pair_eq hheld))
        have hslot : slot ∈ deck.rest := ((hmem slot).mp (h.sound.mem_iff.mpr ⟨_, hheld⟩)).resolve_left hnot
        have hsame : s.pair slot = c.store.pair slot := by
          rw [Store.pair_eq hheld, Store.pair_eq ((hleft slot hslot).trans hheld)]
        show (s.pair slot >>= _) = (c.store.pair slot >>= _)
        rw [hsame]

end Shows

variable [EquivBEq K] {settings : Settings} {order : Order} {hashing : Hashing K} {owner : OwnerId}
  {events : List Event}

/-- Whatever the history of a container, every way of enumerating gives the entries of the traversal order, each once. What
    a script takes from iteration that changes values is changed, and nothing else is. Draining leaves the container empty
    and as it was otherwise, however much of what was drained is then read. -/
theorem enumerations_agree (horder : order.Fresh) (hmake : make settings order hashing owner = .ok c)
    (hreach : c.Reaches Any events d) :
    ∃ slots ps, d.Enumerates slots ps ∧
      (∀ moves change, ∃ readings, (d.revise moves change).result = .ok readings ∧
        (.copy ∉ moves → readings = Script.read moves (ps.map (Store.changed change))) ∧
        d.Retouched change ((Deck.start slots).run moves).2 (d.revise moves change).state) ∧
      ∀ moves, (d.drain.map (Script.read moves)).result = .ok (Script.read moves ps) ∧
        d.Emptied (d.drain.map (Script.read moves)).state := by
  obtain ⟨-, slots, ps, hshows⟩ := hreach.exists_shows horder hmake
  refine ⟨slots, ps, hshows.enumerates, fun moves change => ?_, fun moves => ⟨?_, hshows.emptied⟩⟩
  · obtain ⟨s, hrevised, -⟩ := hshows.revise_eq moves change
    exact ⟨_, congrArg Reply.result hrevised, fun hcopy => Listing.fst_revise hcopy ps, hshows.retouched moves change⟩
  · rw [Reply.map_result, hshows.enumerates.drain]
    rfl

end Enumerated

/-- Three entries in the order of insertion, of which the first is removed, so that the last one takes its place in the
    array. The order is against the array, and the value that is taken from the back is in its first place. -/
theorem enumerations_agree_moved :
    ∃ c d : Container Nat Nat, make {} (.ofMode false) ⟨fun _ => 0, ⟨fun _ _ => 0⟩⟩ 0 = .ok c ∧ c.Reaches Any [] d ∧
      d.Enumerates [.index 1, .index 0] [(2, 20), (3, 30)] ∧
      d.Retouched (fun _ value => value + 1) ⟨[], [.index 1], [.index 0]⟩
        (d.revise [.back] fun _ value => value + 1).state ∧
      (d.revise [.back] fun _ value => value + 1).state.toList = .ok [(2, 20), (3, 31)] ∧ d.Emptied d.drain.state := by
  have hmake : (make {} (.ofMode false) ⟨fun _ => 0, ⟨fun _ _ => 0⟩⟩ 0 : Except _ (Container Nat Nat)) = .ok _ := rfl
  have hreach : ((⟨⟨fun _ => 0, ⟨fun _ _ => 0⟩⟩, .table (.empty (.ofMode false) .threeQuarters 0), 9, 0, 0⟩ :
      Container Nat Nat)).Reaches Any [] _ :=
    .apply (.apply (.apply (.apply .start (.insert 1 10) trivial) (.insert 2 20) trivial) (.insert 3 30) trivial)
      (.remove 1) trivial
  obtain ⟨slots, ps, hall, hrevise, hdrain⟩ := enumerations_agree (.linked false) hmake hreach
  obtain rfl : [.index 1, .index 0] = slots := Except.ok.inj ((Eq.symm (by rfl)).trans hall.traversed)
  obtain rfl : [(2, 20), (3, 30)] = ps := Except.ok.inj ((Eq.symm (by rfl)).trans hall.iter)
  obtain ⟨-, -, -, htouched⟩ := hrevise [.back] fun _ value => value + 1
  exact ⟨_, _, hmake, hreach, hall, htouched, rfl, (hdrain []).2⟩

end Container

end DenseHash
