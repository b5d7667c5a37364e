/-!
# Scripts for double-ended iteration

A script says how an iterator is used: which end the next item is taken from, when its length is asked for,
when a copy of it is read to the end, and when it is itself. `Script.read` is the meaning of a script on a
plain list of items, taken from both ends.
-/

namespace DenseHash

/-- One use of a double-ended iterator. -/
inductive Move where
  /-- Take an item from the front. -/
  | front
  /-- Take an item from the back. -/
  | back
  /-- Ask how many items are left. -/
  | length
  /-- Ask for bounds on how many items are left. -/
  | bounds
  /-- Read a copy of the iterator to the end. -/
  | copy
  /-- Read the iterator itself to the end. -/
  | rest
deriving DecidableEq

/-- What one use of an iterator shows. -/
inductive Reading (α : Type) where
  | item (item : Option α)
  | count (n : Nat)
  | bounds (least most : Nat)
  | items (items : List α)
deriving DecidableEq

namespace Reading

variable {α β : Type}

/-- Changes every item that a reading shows. -/
def map (g : α → β) : Reading α → Reading β
  | .item i => .item (i.map g)
  | .count n => .count n
  | .bounds least most => .bounds least most
  | .items is => .items (is.map g)

end Reading

namespace Script

variable {α : Type}

/-- What a script shows of a list of items. -/
def read : List Move → List α → List (Reading α)
  | [], _ => []
  | .front :: moves, items => .item items.head? :: read moves items.tail
  | .back :: moves, items => .item items.getLast? :: read moves items.dropLast
  | .length :: moves, items => .count items.length :: read moves items
  | .bounds :: moves, items => .bounds items.length items.length :: read moves items
  | .copy :: moves, items => .items items :: read moves items
  | .rest :: moves, items => .items items :: read moves []

end Script

end DenseHash
