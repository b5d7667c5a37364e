import DenseHash.Fleet
import DenseHash.Proofs.Deck
import DenseHash.Proofs.Store.Sound

/-!
# Iterators read a window

An iterator stands between the slots it has handed out from the front and those it has handed out from the
back. What is between them, the *window*, is what it will still hand out, from whichever end it is asked. So an
iterator is used like a deck (`Window.use_eq`), and a script that is run by an iterator shows what it shows of the list
of entries.
-/

namespace DenseHash

namespace Iter

variable [Backing] {K V : Type} {hashing : Hashing K} {it : Iter K V} {as ws bs : List Slot}

/-! ## What is in slots -/

/-- The entries in some slots. -/
def items (it : Iter K V) (ws : List Slot) : List (K × V) := ws.filterMap it.store.held

/-- The entry in the first slot of a window comes first. -/
theorem items_cons {w : Slot} {p : K × V} (hp : it.store.held w = some p) : it.items (w :: ws) = p :: it.items ws :=
  List.filterMap_cons_some hp

/-- The entry in the last slot of a window comes last. -/
theorem items_concat {w : Slot} {p : K × V} (hp : it.store.held w = some p) :
    it.items (ws ++ [w]) = it.items ws ++ [p] := by
  rw [items, List.filterMap_append, List.filterMap_cons_some hp]
  rfl

/-- The entries handed out from either end, with those in the window. -/
def deck (it : Iter K V) (as ws bs : List Slot) : Deck (K × V) := ⟨it.items as, it.items ws, (it.items bs).reverse⟩

theorem deck_of_store {it' : Iter K V} (h : it'.store = it.store) (as ws bs : List Slot) :
    it'.deck as ws bs = it.deck as ws bs := by
  rw [deck, deck, items, items, items, h]
  rfl

/-- A script goes on with the iterator as the first use leaves it. -/
theorem run_cons (move : Move) (moves : List Move) (it : Iter K V) :
    it.run (move :: moves) = (do
      let (reading, it) ← it.use id move
      let readings ← it.run moves
      pure (reading :: readings)) := by
  cases move with
  | front =>
      rw [run, use]
      cases it.next with
      | error f => rfl
      | ok r => simp
  | back =>
      rw [run, use]
      cases it.nextBack with
      | error f => rfl
      | ok r => simp
  | copy =>
      rw [run, use]
      cases it.toList with
      | error f => rfl
      | ok r => simp
  | rest =>
      rw [run, use]
      cases it.takeFront it.remaining with
      | error f => rfl
      | ok r => simp
  | length => rfl
  | bounds => rfl

/-! ## Windows -/

variable [BEq K]

/-- The iterator has the slots `ws` before it; those in `as` and `bs` it has handed out. -/
structure Window (hashing : Hashing K) (it : Iter K V) (as ws bs : List Slot) : Prop where
  sound : it.store.Sound hashing (as ++ ws ++ bs)
  front : it.front = (ws ++ bs).head?
  back : it.back = (as ++ ws).getLast?
  remaining : it.remaining = ws.length

/-- A new iterator has all slots before it. -/
theorem window_start {s : Store K V} (h : s.Sound hashing ws) : (start s).Window hashing [] ws [] where
  sound := by rwa [List.nil_append, List.append_nil]
  front := by rw [List.append_nil]; exact h.first_eq
  back := by rw [List.nil_append]; exact h.last_eq
  remaining := h.size_eq

namespace Window

/-- As many entries are left as there are slots in the window. -/
theorem length_items (h : it.Window hashing as ws bs) : (it.items ws).length = ws.length := by
  refine List.filterMap_length_eq_length.mpr fun slot hslot => ?_
  obtain ⟨p, hp⟩ := h.sound.mem_iff.mp (List.mem_append_left bs (List.mem_append_right as hslot))
  rw [hp]
  rfl

/-! ## One step -/

/-- At the end of the window nothing is handed out, from neither end. -/
theorem next_nil (h : it.Window hashing as [] bs) : it.next = .ok (none, it) := by
  have hr : it.remaining = 0 := h.remaining
  rw [next]
  rw [hr]

/-- From the back too, nothing is left at the end. -/
theorem nextBack_nil (h : it.Window hashing as [] bs) : it.nextBack = .ok (none, it) := by
  have hr : it.remaining = 0 := h.remaining
  rw [nextBack]
  rw [hr]

/-- A step from the front hands out the first entry of the window. -/
theorem next_cons {w : Slot} (h : it.Window hashing as (w :: ws) bs) :
    ∃ p it', it.next = .ok (some p, it') ∧ it.store.held w = some p ∧ it'.store = it.store ∧
      it'.Window hashing (as ++ [w]) ws bs := by
  have hsound : it.store.Sound hashing (as ++ w :: (ws ++ bs)) := by simpa using h.sound
  obtain ⟨p, hp⟩ := hsound.mem_iff.mp (List.mem_append_right as List.mem_cons_self)
  have hr : it.remaining = ws.length + 1 := h.remaining
  have hf : it.front = some w := h.front
  refine ⟨p, { it with front := (ws ++ bs).head?, remaining := ws.length }, ?_, hp, rfl, ?_, rfl, ?_, rfl⟩
  · rw [next]
    rw [hr, hf]
    dsimp only
    rw [hsound.next_eq, Checked.ok_bind, Store.pair_eq hp]
    rfl
  · simpa using h.sound
  · show it.back = _
    rw [h.back]
    simp

/-- A step from the back hands out the last one. -/
theorem nextBack_concat {w : Slot} (h : it.Window hashing as (ws ++ [w]) bs) :
    ∃ p it', it.nextBack = .ok (some p, it') ∧ it.store.held w = some p ∧ it'.store = it.store ∧
      it'.Window hashing as ws (w :: bs) := by
  have hsound : it.store.Sound hashing (as ++ ws ++ w :: bs) := by simpa using h.sound
  obtain ⟨p, hp⟩ := hsound.mem_iff.mp (List.mem_append_right _ List.mem_cons_self)
  have hr : it.remaining = ws.length + 1 := by rw [h.remaining, List.length_append, List.length_singleton]
  have hb : it.back = some w := by rw [h.back, ← List.append_assoc, List.getLast?_concat]
  refine ⟨p, { it with back := (as ++ ws).getLast?, remaining := ws.length }, ?_, hp, rfl, hsound, ?_, rfl,
    rfl⟩
  · rw [nextBack]
    rw [hr, hb]
    dsimp only
    rw [hsound.prev_eq, Checked.ok_bind, Store.pair_eq hp]
    rfl
  · show it.front = _
    rw [h.front]
    simp

/-! ## Many steps -/

/-- Reading to the end shows the whole window. -/
theorem takeFront_eq {fuel : Nat} (h : it.Window hashing as ws bs) (hfuel : ws.length ≤ fuel) :
    ∃ it', it.takeFront fuel = .ok (it.items ws, it') ∧ it'.store = it.store ∧
      it'.Window hashing (as ++ ws) [] bs := by
  induction fuel generalizing it as ws with
  | zero =>
      obtain rfl := List.length_eq_zero_iff.mp (Nat.le_zero.mp hfuel)
      exact ⟨it, rfl, rfl, by simpa using h⟩
  | succ fuel ih =>
      cases ws with
      | nil =>
          refine ⟨it, ?_, rfl, by simpa using h⟩
          rw [takeFront, h.next_nil]
          rfl
      | cons w ws =>
          obtain ⟨p, it₁, hnext, hp, hstore, hw⟩ := h.next_cons
          obtain ⟨it', htake, hstore', hw'⟩ := ih hw (Nat.le_of_succ_le_succ hfuel)
          refine ⟨it', ?_, hstore'.trans hstore, by simpa using hw'⟩
          rw [takeFront, hnext, Checked.ok_bind]
          dsimp only
          rw [htake, items, items, hstore, List.filterMap_cons_some hp]
          rfl

/-- Collecting the rest gives the entries in the window. -/
theorem toList_eq (h : it.Window hashing as ws bs) : it.toList = .ok (it.items ws) := by
  obtain ⟨it', htake, -, -⟩ := h.takeFront_eq (Nat.le_of_eq h.remaining.symm)
  rw [toList, htake]
  rfl

/-! ## Any use -/

/-- An iterator is used like a deck. -/
theorem use_eq {α : Type} (view : K × V → α) (h : it.Window hashing as ws bs) (move : Move) :
    ∃ it' as' ws' bs', it.use view move = .ok (((it.deck as ws bs).use move).1.map view, it') ∧
      it'.Window hashing as' ws' bs' ∧ it'.deck as' ws' bs' = ((it.deck as ws bs).use move).2 := by
  cases move with
  | front =>
      cases ws with
      | nil =>
          refine ⟨it, as, [], bs, ?_, h, rfl⟩
          rw [use, h.next_nil]
          rfl
      | cons w ws =>
          obtain ⟨p, it', hnext, hp, hstore, hw⟩ := h.next_cons
          refine ⟨it', as ++ [w], ws, bs, ?_, hw, ?_⟩
          · rw [use, hnext, deck, items_cons hp]
            rfl
          · rw [deck_of_store hstore, deck, deck, items_cons hp, items_concat hp]
            rfl
  | back =>
      rcases List.eq_nil_or_concat' ws with rfl | ⟨ws, w, rfl⟩
      · refine ⟨it, as, [], bs, ?_, h, rfl⟩
        rw [use, h.nextBack_nil]
        rfl
      · obtain ⟨p, it', hback, hp, hstore, hw⟩ := h.nextBack_concat
        refine ⟨it', as, ws, w :: bs, ?_, hw, ?_⟩
        · rw [use, hback, deck, items_concat hp, Deck.use_back_concat]
          rfl
        · rw [deck_of_store hstore, deck, deck, items_cons hp, items_concat hp, Deck.use_back_concat,
            List.reverse_cons]
  | length =>
      refine ⟨it, as, ws, bs, ?_, h, rfl⟩
      rw [use, h.remaining, ← h.length_items]
      rfl
  | bounds =>
      refine ⟨it, as, ws, bs, ?_, h, rfl⟩
      rw [use, h.remaining, ← h.length_items]
      rfl
  | copy =>
      refine ⟨it, as, ws, bs, ?_, h, rfl⟩
      rw [use, h.toList_eq]
      rfl
  | rest =>
      obtain ⟨it', htake, hstore, hw⟩ := h.takeFront_eq (Nat.le_of_eq h.remaining.symm)
      refine ⟨it', as ++ ws, [], bs, ?_, hw, ?_⟩
      · rw [use, htake]
        rfl
      · rw [deck_of_store hstore, deck, items, List.filterMap_append]
        rfl

/-- A script shows of an iterator what it shows of the entries in the window. -/
theorem run_eq (h : it.Window hashing as ws bs) (moves : List Move) :
    it.run moves = .ok (Script.read moves (it.items ws)) := by
  induction moves generalizing it as ws bs with
  | nil => rfl
  | cons move moves ih =>
      obtain ⟨it', as', ws', bs', huse, hw, hdeck⟩ := h.use_eq id move
      have hread : Script.read (move :: moves) (it.items ws) =
          ((it.deck as ws bs).use move).1 :: Script.read moves ((it.deck as ws bs).use move).2.rest :=
        Deck.read_cons move moves (it.deck as ws bs)
      rw [← hdeck] at hread
      rw [run_cons, huse, Checked.ok_bind]
      dsimp only
      rw [ih hw, Checked.ok_bind, Reading.map_id, hread]
      rfl

end Window

end Iter

end DenseHash
