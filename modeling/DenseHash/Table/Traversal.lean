import DenseHash.Gather
import DenseHash.Table.Basic

/-!
# Traversal and emptying

All entries in traversal order, and the two ways to empty a table. Both keep the number of buckets and what
is expected of the table.

In dense order the array is read as it stands; along a thread the entries are gathered. Whoever is to change values is
given references to the entries, and a reference is known here by the index that it leads to.
-/

namespace DenseHash.Table

variable {K V : Type}

/-- The first index in traversal order. -/
def first (t : Table K V) : Option Nat := t.order.first t.size

/-- The last index in traversal order. -/
def last (t : Table K V) : Option Nat := t.order.last t.size

/-- The index after `i` in traversal order. -/
def next (t : Table K V) (i : Nat) : Checked (Option Nat) := t.order.next i t.size

/-- The index before `i` in traversal order. -/
def prev (t : Table K V) (i : Nat) : Checked (Option Nat) := t.order.prev i

/-- All indices in traversal order. -/
def forward (t : Table K V) : Checked (List Nat) := t.order.forward t.size

/-- All indices in reverse traversal order. -/
def backward (t : Table K V) : Checked (List Nat) := t.order.backward t.size

/-- All keys and values in traversal order. -/
def pairs (t : Table K V) : Checked (List (K × V)) :=
  if t.order.isDense then .ok (t.entries.toList.map fun e => (e.key, e.value))
  else do
    let indices ← t.forward
    gather takePlace indices (t.entries.toList.map fun e => some (e.key, e.value)).toArray

/-- References to all entries in traversal order. -/
def references (t : Table K V) : Checked (List Nat) :=
  if t.order.isDense then .ok (List.range t.size)
  else do
    let indices ← t.forward
    gather takePlace indices ((List.range t.size).map some).toArray

/-- The table with the same buckets and no entries. -/
def cleared (t : Table K V) : Table K V :=
  { t with heads := Array.replicate t.buckets .empty, entries := #[], order := t.order.cleared }

/-- Takes all entries out, in traversal order. -/
def take (t : Table K V) : Checked (List (K × V) × Table K V) := do
  let pairs ← t.pairs
  pure (pairs, t.cleared)

end DenseHash.Table
