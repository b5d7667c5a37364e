import DenseHash.Script
import DenseHash.Store

/-!
# Iterators over a container's entries

An iterator goes along the traversal order from both ends, slot by slot, and stops when as many entries have
been handed out as there are. It reads the storage and does not change it.
-/

namespace DenseHash

variable [Backing]

/-- A position from either end of a container's traversal. -/
structure Iter (K V : Type) where
  store : Store K V
  front : Option Slot
  back : Option Slot
  /-- The number of entries not handed out yet. -/
  remaining : Nat

namespace Iter

variable {K V : Type}

/-- An iterator over all entries. -/
def start (s : Store K V) : Iter K V := ⟨s, s.first, s.last, s.size⟩

/-- Hands out the next entry from the front. -/
def next (it : Iter K V) : Checked (Option (K × V) × Iter K V) :=
  match it.remaining, it.front with
  | remaining + 1, some slot => do
    let front ← it.store.next slot
    let pair ← it.store.pair slot
    pure (some pair, { it with front, remaining })
  | _, _ => .ok (none, it)

/-- Hands out the next entry from the back. -/
def nextBack (it : Iter K V) : Checked (Option (K × V) × Iter K V) :=
  match it.remaining, it.back with
  | remaining + 1, some slot => do
    let back ← it.store.prev slot
    let pair ← it.store.pair slot
    pure (some pair, { it with back, remaining })
  | _, _ => .ok (none, it)

/-- The entries handed out by up to `fuel` steps from the front, and the iterator after them. -/
def takeFront : Nat → Iter K V → Checked (List (K × V) × Iter K V)
  | 0, it => .ok ([], it)
  | fuel + 1, it => do
    match ← it.next with
    | (some pair, it) =>
      let (rest, it) ← takeFront fuel it
      pure (pair :: rest, it)
    | (none, it) => pure ([], it)

/-- All entries that are left. -/
def toList (it : Iter K V) : Checked (List (K × V)) := do
  let (pairs, _) ← it.takeFront it.remaining
  pure pairs

/-- What a script shows of an iterator. -/
def run : List Move → Iter K V → Checked (List (Reading (K × V)))
  | [], _ => .ok []
  | .front :: moves, it => do
    let (pair, it) ← it.next
    let readings ← run moves it
    pure (.item pair :: readings)
  | .back :: moves, it => do
    let (pair, it) ← it.nextBack
    let readings ← run moves it
    pure (.item pair :: readings)
  | .length :: moves, it => do
    let readings ← run moves it
    pure (.count it.remaining :: readings)
  | .bounds :: moves, it => do
    let readings ← run moves it
    pure (.bounds it.remaining it.remaining :: readings)
  | .copy :: moves, it => do
    let pairs ← it.toList
    let readings ← run moves it
    pure (.items pairs :: readings)
  | .rest :: moves, it => do
    let (pairs, it) ← it.takeFront it.remaining
    let readings ← run moves it
    pure (.items pairs :: readings)

end Iter

end DenseHash
