import DenseHash.Order.Basic

/-!
# Changes of an order as data

What an order is told about its entries, as a value. `change` says what a change does to the order and to the
number of entries, and a run of an order is a list of changes.
-/

namespace DenseHash.Order

/-- What happens to the entries that an order traverses. -/
inductive Change where
  /-- One more entry is stored, at the next index. -/
  | push
  /-- The entry at an index is used. -/
  | access (index : Nat)
  /-- The entry at an index is removed, and the last one takes its place. -/
  | erase (index : Nat)
  /-- All entries go, or the order is made anew for another store. -/
  | clear
deriving DecidableEq

/-- Makes a change in an order of `size` entries. Tells whether a use moved its entry, and the order that is left
    with its number of entries. -/
def change : Change → Order → Nat → Checked (Bool × Order × Nat)
  | .push, o, size => do
    let o ← o.push
    pure (false, o, size + 1)
  | .access i, o, size => do
    let (moved, o) ← o.access i
    pure (moved, o, size)
  | .erase i, o, size => do
    let o ← o.erase i (size - 1)
    pure (false, o, size - 1)
  | .clear, o, _ => .ok (false, o.cleared, 0)

/-- Makes changes one after the other. -/
def changeAll : List Change → Order → Nat → Checked (List Bool × Order × Nat)
  | [], o, size => .ok ([], o, size)
  | c :: cs, o, size => do
    let (moved, o, size) ← change c o size
    let (moves, o, size) ← changeAll cs o size
    pure (moved :: moves, o, size)

end DenseHash.Order
