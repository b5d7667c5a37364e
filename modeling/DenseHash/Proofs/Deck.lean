import Mathlib.Data.List.Basic
import DenseHash.Script

/-!
# Decks

A *deck* is a list that is taken from at both ends, with what has been taken from either end, in the order in which it
was taken. Nothing is ever lost or taken twice: what was taken from the front, what is left, and what was taken from the
back in reverse, make up the whole list (`Deck.whole_use`).

A script shows of a list what it shows of a deck with this list, use by use (`Deck.read_cons`).
-/

namespace DenseHash

theorem Reading.map_id {α : Type} (r : Reading α) : r.map id = r := by
  cases r <;> simp [Reading.map]

/-- A list that is taken from at both ends. -/
structure Deck (α : Type) where
  /-- What was taken from the front. -/
  front : List α
  /-- What is left. -/
  rest : List α
  /-- What was taken from the back. -/
  back : List α

namespace Deck

variable {α β : Type}

/-- A list from which nothing has been taken. -/
def start (as : List α) : Deck α := ⟨[], as, []⟩

/-- All that was there at the start. -/
def whole (d : Deck α) : List α := d.front ++ d.rest ++ d.back.reverse

/-- Changes all elements. -/
def map (g : α → β) (d : Deck α) : Deck β := ⟨d.front.map g, d.rest.map g, d.back.map g⟩

/-- What one use shows of a deck, and the deck after it. -/
def use : Move → Deck α → Reading α × Deck α
  | .front, d =>
    match d.rest with
    | [] => (.item none, d)
    | a :: rest => (.item (some a), { d with front := d.front ++ [a], rest })
  | .back, d =>
    match d.rest.getLast? with
    | none => (.item none, d)
    | some a => (.item (some a), { d with rest := d.rest.dropLast, back := d.back ++ [a] })
  | .length, d => (.count d.rest.length, d)
  | .bounds, d => (.bounds d.rest.length d.rest.length, d)
  | .copy, d => (.items d.rest, d)
  | .rest, d => (.items d.rest, { d with front := d.front ++ d.rest, rest := [] })

/-- What a script shows of a deck, and the deck after it. -/
def run : List Move → Deck α → List (Reading α) × Deck α
  | [], d => ([], d)
  | move :: moves, d =>
    let (reading, d) := use move d
    let (readings, d) := run moves d
    (reading :: readings, d)

/-! ## One use -/

variable {as : List α} {a : α} {fs bs : List α}

@[simp] theorem use_front_nil : use .front (⟨fs, [], bs⟩ : Deck α) = (.item none, ⟨fs, [], bs⟩) := rfl

@[simp] theorem use_front_cons : use .front ⟨fs, a :: as, bs⟩ = (.item (some a), ⟨fs ++ [a], as, bs⟩) := rfl

@[simp] theorem use_back_nil : use .back (⟨fs, [], bs⟩ : Deck α) = (.item none, ⟨fs, [], bs⟩) := rfl

/-- From the back, the last of the middle cards is taken. -/
@[simp] theorem use_back_concat : use .back ⟨fs, as ++ [a], bs⟩ = (.item (some a), ⟨fs, as, bs ++ [a]⟩) := by
  simp [use]

/-- Nothing is lost. -/
theorem whole_use (move : Move) (d : Deck α) : (d.use move).2.whole = d.whole := by
  obtain ⟨fs, as, bs⟩ := d
  cases move with
  | front => cases as <;> simp [whole]
  | back => rcases List.eq_nil_or_concat' as with rfl | ⟨as, a, rfl⟩ <;> simp [whole]
  | rest => simp [use, whole]
  | length => rfl
  | bounds => rfl
  | copy => rfl

/-- Taking elements does not depend on what they are. -/
theorem use_map (g : α → β) (move : Move) (d : Deck α) :
    (d.map g).use move = ((d.use move).1.map g, (d.use move).2.map g) := by
  obtain ⟨fs, as, bs⟩ := d
  cases move with
  | front => cases as <;> simp [map, Reading.map]
  | back => rcases List.eq_nil_or_concat' as with rfl | ⟨as, a, rfl⟩ <;> simp [map, Reading.map]
  | rest => simp [use, map, Reading.map]
  | length => simp [use, map, Reading.map]
  | bounds => simp [use, map, Reading.map]
  | copy => rfl

@[simp] theorem whole_start (as : List α) : (start as).whole = as := by simp [start, whole]

@[simp] theorem map_start (g : α → β) (as : List α) : (start as).map g = start (as.map g) := rfl

/-- What a script shows of a list, and its first use of a deck with this list. -/
theorem read_cons (move : Move) (moves : List Move) (d : Deck α) :
    Script.read (move :: moves) d.rest = (d.use move).1 :: Script.read moves (d.use move).2.rest := by
  obtain ⟨fs, as, bs⟩ := d
  cases move with
  | front => cases as <;> rfl
  | back => rcases List.eq_nil_or_concat' as with rfl | ⟨as, a, rfl⟩ <;> simp [Script.read]
  | rest => rfl
  | length => rfl
  | bounds => rfl
  | copy => rfl

/-! ## Scripts -/

/-- Whatever moves are made, the cards stay the same. -/
theorem whole_run (moves : List Move) (d : Deck α) : (d.run moves).2.whole = d.whole := by
  induction moves generalizing d with
  | nil => rfl
  | cons move moves ih => exact (ih (d.use move).2).trans (whole_use move d)

/-- Moves do not look at the faces of the cards. -/
theorem run_map (g : α → β) (moves : List Move) (d : Deck α) :
    (d.map g).run moves = ((d.run moves).1.map (Reading.map g), (d.run moves).2.map g) := by
  induction moves generalizing d with
  | nil => rfl
  | cons move moves ih =>
      rw [run, use_map]
      dsimp only
      rw [ih]
      rfl

/-- Lists that look alike make decks that look alike. -/
theorem snd_run_congr {γ : Type} {f : α → γ} {g : β → γ} {as : List α} {bs : List β} (h : as.map f = bs.map g)
    (moves : List Move) : ((start as).run moves).2.map f = ((start bs).run moves).2.map g := by
  have hf : ((start (as.map f)).run moves).2 = ((start as).run moves).2.map f :=
    congrArg Prod.snd (run_map f moves (start as))
  have hg : ((start (bs.map g)).run moves).2 = ((start bs).run moves).2.map g :=
    congrArg Prod.snd (run_map g moves (start bs))
  rw [← hf, ← hg, h]

end Deck

end DenseHash
