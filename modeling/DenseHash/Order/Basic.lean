import DenseHash.Order.Thread
import DenseHash.Walk

/-!
# Traversal order

Entries are stored without gaps, at the indices below their number. They are traversed either in that
*dense* order, which removal disturbs, or along a thread: in the order of insertion or, with `byAccess`, in
the order of the last use.

All functions take the number of entries where the dense order needs it.
-/

namespace DenseHash

/-- The order in which entries are traversed. -/
inductive Order where
  | dense
  | linked (byAccess : Bool) (thread : Thread)
deriving DecidableEq

namespace Order

/-- A linked order of no entries. -/
def ofMode (byAccess : Bool) : Order := .linked byAccess .empty

/-- The same kind of order, of no entries. -/
def cleared : Order → Order
  | .dense => .dense
  | .linked byAccess _ => ofMode byAccess

/-- Whether a use moves an entry to the end. -/
def byAccess : Order → Bool
  | .dense => false
  | .linked byAccess _ => byAccess

/-- Whether entries are traversed by index. -/
def isDense : Order → Bool
  | .dense => true
  | .linked .. => false

/-- An entry was appended. -/
def push : Order → Checked Order
  | .dense => .ok .dense
  | .linked byAccess t => do
    let t ← t.push
    pure (.linked byAccess t)

/-- The entry at index `i` was used: in the order of use it moves to the end, unless it is there. Tells
    whether it moved. -/
def access (o : Order) (i : Nat) : Checked (Bool × Order) :=
  match o with
  | .dense => .ok (false, .dense)
  | .linked byAccess t =>
    if byAccess ∧ t.last ≠ .ofIndex i then do
      let t ← t.unlink i
      let t ← t.linkLast i
      pure (true, .linked byAccess t)
    else .ok (false, .linked byAccess t)

/-- The entry at index `i` is removed and the one at index `last` takes its place. -/
def erase (o : Order) (i last : Nat) : Checked Order :=
  match o with
  | .dense => .ok .dense
  | .linked byAccess t => do
    let t ← t.erase i last
    pure (.linked byAccess t)

/-- Where a traversal goes on after the entry at `removed` was removed and the one at `last` took its place,
    if it would have gone on at `upcoming`. In dense order the entry that moved has not been visited. -/
def resume (o : Order) (upcoming : Option Nat) (removed last : Nat) : Option Nat :=
  match o with
  | .dense => if removed = last then upcoming else some removed
  | .linked .. => if upcoming = some last then some removed else upcoming

/-- The first index. -/
def first (o : Order) (size : Nat) : Option Nat :=
  match o with
  | .dense => if 0 < size then some 0 else none
  | .linked _ t => t.first.index?

/-- The last index. -/
def last (o : Order) (size : Nat) : Option Nat :=
  match o with
  | .dense => if 0 < size then some (size - 1) else none
  | .linked _ t => t.last.index?

/-- The index after `i`. -/
def next (o : Order) (i size : Nat) : Checked (Option Nat) :=
  match o with
  | .dense => .ok (if i + 1 < size then some (i + 1) else none)
  | .linked _ t => do
    let n ← t.node i
    pure n.succ.index?

/-- The index before `i`. -/
def prev (o : Order) (i : Nat) : Checked (Option Nat) :=
  match o with
  | .dense => .ok (if 0 < i then some (i - 1) else none)
  | .linked _ t => do
    let n ← t.node i
    pure n.pred.index?

/-- All indices in traversal order. -/
def forward (o : Order) (size : Nat) : Checked (List Nat) :=
  walk .brokenOrder (o.next · size) size (o.first size)

/-- All indices in reverse traversal order. -/
def backward (o : Order) (size : Nat) : Checked (List Nat) :=
  walk .brokenOrder o.prev size (o.last size)

end Order

end DenseHash
