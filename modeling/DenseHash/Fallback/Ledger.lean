import DenseHash.Fallback.Action
import DenseHash.Listing

/-!
# What a fallback lists

A fallback without its hashes and links: an association list in order, with the slot of every entry. A new key goes to
the end. A key that is there keeps its stored form and its slot when it gets another value, and moves to the end if uses
are what the order is about. What is removed leaves the others in their order.

Slots come from a supply, as those of a fallback do. When all entries are taken out, the ledger that is left has a new one.

`Ledger.perform` says what an action reports and does, and where it is refused.
-/

namespace DenseHash.Fallback

variable [Backing]

/-- The entries of a fallback in order, each with its slot, and where the slots come from. -/
structure Ledger (K V : Type) where
  listing : Listing K (Backing.Handle × V)
  supply : Backing.Supply

namespace Ledger

variable {K V : Type}

/-- No entries, in one of the two orders. -/
def empty (byAccess : Bool) : Ledger K V where
  listing := { pairs := [], packed := false, byAccess }
  supply := Backing.supply

/-- The ledger without its entries. Slots that were given out stay spent. -/
def cleared (l : Ledger K V) : Ledger K V := ⟨l.listing.cleared, Backing.releaseAll l.supply⟩

/-- The ledger that is left when all entries are taken out. -/
def renewed (l : Ledger K V) : Ledger K V := ⟨l.listing.cleared, Backing.supply⟩

/-- The keys and values in order. -/
def pairs (l : Ledger K V) : List (K × V) := l.listing.pairs.map fun row => (row.1, row.2.2)

/-- The slots in order. -/
def slots (l : Ledger K V) : List Backing.Handle := l.listing.pairs.map fun row => row.2.1

/-- The place, the key and the value of the entry in a slot. -/
def row? (l : Ledger K V) (slot : Backing.Handle) : Option (Nat × K × V) := do
  let i ← l.listing.pairs.findIdx? fun row => row.2.1 == slot
  let (key, _, value) ← l.listing.pairs[i]?
  pure (i, key, value)

/-- Whether a use moves the entry at a place: in the order of use, all but the last one move. -/
def moves (l : Ledger K V) (place : Nat) : Bool := l.listing.byAccess && place + 1 != l.listing.pairs.length

/-- Counts a use of a slot. In the order of insertion no slot is looked at. -/
def touch (l : Ledger K V) (slot : Backing.Handle) : Checked (Bool × Ledger K V) :=
  if l.listing.byAccess then
    match l.row? slot with
    | some (i, key, value) => .ok (l.moves i, { l with listing := l.listing.use i (key, slot, value) })
    | none => Corruption.vacantSlot.raise
  else .ok (false, l)

/-- Removes the entry in a slot. -/
def removeSlot (l : Ledger K V) (slot : Backing.Handle) : Checked ((K × V) × Ledger K V) :=
  match l.row? slot with
  | some (i, pair) => .ok (pair, ⟨l.listing.removeAt i, Backing.release l.supply slot⟩)
  | none => Corruption.vacantSlot.raise

/-- Replaces all values. -/
def update (change : K → V → V) (l : Ledger K V) : Ledger K V :=
  let revise (row : K × Backing.Handle × V) : K × Backing.Handle × V := (row.1, row.2.1, change row.1 row.2.2)
  { l with listing := { l.listing with pairs := l.listing.pairs.map revise } }

variable [BEq K]

/-- The slot of a key. -/
def find (l : Ledger K V) (key : K) : Option Backing.Handle := (l.listing.locate? key).map fun (_, _, slot, _) => slot

/-- Appends a new key, which gets the next slot, or replaces the value that a key has and counts that as a use. -/
def insert (l : Ledger K V) (key : K) (value : V) : Option (V × Bool) × Ledger K V :=
  match l.listing.locate? key with
  | some (i, stored, slot, old) =>
    (some (old, l.moves i), { l with listing := l.listing.use i (stored, slot, value) })
  | none =>
    let (slot, supply) := Backing.draw l.supply
    (none, ⟨{ l.listing with pairs := l.listing.pairs ++ [(key, slot, value)] }, supply⟩)

/-- Removes a key. -/
def remove (l : Ledger K V) (key : K) : Option (K × V) × Ledger K V :=
  match l.listing.locate? key with
  | some (i, stored, slot, value) =>
    (some (stored, value), ⟨l.listing.removeAt i, Backing.release l.supply slot⟩)
  | none => (none, l)

/-- What an action reports and does. It is refused if it needs a slot that has no entry, or if no index has room for what
    it asks for. -/
def perform (action : Action K V) (l : Ledger K V) : Reply (Ledger K V) (Report K V) :=
  match action with
  | .insert key value =>
    let (old, l) := l.insert key value
    .ok l (.inserted old)
  | .find key => .ok l (.slot (l.find key))
  | .touch slot => (Reply.attempt l (l.touch slot)).map .moved
  | .remove key =>
    let (pair, l) := l.remove key
    .ok l (.pair pair)
  | .removeSlot slot => (Reply.attempt l (l.removeSlot slot)).map fun pair => .pair (some pair)
  | .update change => .ok (l.update change) (.pairs l.pairs)
  | .reserve more => if Backing.maxFiled < l.listing.pairs.length + more then .fail l .indexOverflow else .ok l .done
  | .shrink => .ok l .done
  | .clear => .ok l.cleared .done
  | .take => .ok l.renewed (.pairs l.pairs)

/-- Does actions one after the other, up to the first that is refused, and tells what they report. -/
def performAll : List (Action K V) → Ledger K V → Reply (Ledger K V) (List (Report K V))
  | [], l => .ok l []
  | action :: actions, l =>
    (l.perform action).andThen fun report l => (performAll actions l).map fun reports => report :: reports

end Ledger

end DenseHash.Fallback
