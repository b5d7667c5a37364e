import DenseHash.Listing
import DenseHash.Table.Action

/-!
# What a table lists

A table without its buckets and links: two lists of the same entries. One has them in the order of their indices, and
closes up packed when one is removed. The other has them in the order of traversal. Both change as listings do.

The *name* of an entry is its hash with its key, since one key may be stored under several hashes. `Roster.apply` says
what an action reports and does. The number of buckets is given to it where a report depends on that.
-/

namespace DenseHash.Table

/-- The entries of a table, by index and in traversal order. -/
structure Roster (K V : Type) where
  indexed : Listing (UInt32 × K) V
  traversed : Listing (UInt32 × K) V
deriving DecidableEq

namespace Roster

variable {K V : Type}

/-- No entries, to be traversed in a kind of order. -/
def empty (order : Order) : Roster K V where
  indexed := { pairs := [], packed := true, byAccess := false }
  traversed := { pairs := [], packed := order.isDense, byAccess := order.byAccess }

/-- The roster of a table that was emptied. -/
def cleared (r : Roster K V) : Roster K V := ⟨r.indexed.cleared, r.traversed.cleared⟩

/-- The number of entries. -/
def size (r : Roster K V) : Nat := r.indexed.pairs.length

/-- The number of entries that share a bucket with a hash. -/
def load (r : Roster K V) (buckets : Nat) (hash : UInt32) : Nat :=
  r.indexed.pairs.countP fun row => bucketIndex buckets row.1.1 == bucketIndex buckets hash

/-- Whether a use moves the entry at a place of the traversal: in the order of use, all but the last one move. -/
def moves (r : Roster K V) (place : Nat) : Bool := r.traversed.byAccess && place + 1 != r.traversed.pairs.length

variable [BEq K]

/-- The place in the traversal, the name and the value of the entry at an index. -/
def row? (r : Roster K V) (i : Nat) : Option (Nat × (UInt32 × K) × V) := do
  let (name, value) ← r.indexed.pairs[i]?
  let (place, _) ← r.traversed.locate? name
  pure (place, name, value)

/-- Appends an entry, or replaces the value that is stored under its name and counts that as a use. `buckets` are the
    buckets that there are before any rebuilding. -/
def insert (r : Roster K V) (buckets : Nat) (loadFactor : Binary64) (name : UInt32 × K) (value : V) :
    Inserted V × Roster K V :=
  let outcome : Inserted V :=
    match r.traversed.locate? name with
    | some (place, _, old) => .updated old (r.moves place)
    | none => .added (1 + r.load buckets name.1) (decide (capacityOf buckets loadFactor < r.size + 1))
  (outcome, ⟨(r.indexed.insert name value).2, (r.traversed.insert name value).2⟩)

/-- Takes out the entry at an index. The last entry gets the index. -/
def removeAt (r : Roster K V) (i : Nat) : Option ((K × V) × Roster K V) := do
  let (place, name, value) ← r.row? i
  pure ((name.2, value), ⟨r.indexed.removeAt i, r.traversed.removeAt place⟩)

/-- What an action reports and does, if there is an entry where it needs one. -/
def apply (buckets : Nat) (loadFactor : Binary64) (action : Action K V) (r : Roster K V) :
    Option (Report K V × Roster K V) :=
  match action with
  | .insert hash key value =>
    let (outcome, r) := r.insert buckets loadFactor (hash, key) value
    some (.inserted outcome, r)
  | .find hash key => some (.index ((r.indexed.locate? (hash, key)).map Prod.fst), r)
  | .remove hash key =>
    match r.indexed.locate? (hash, key) with
    | some (i, _) => (r.removeAt i).map fun (pair, r) => (.pair (some pair), r)
    | none => some (.pair none, r)
  | .removeAt i => (r.removeAt i).map fun (pair, r) => (.pair (some pair), r)
  | .touch i =>
    match r.row? i with
    | some (place, name, value) =>
      some (.moved (r.moves place), { r with traversed := r.traversed.use place (name, value) })
    | none => some (.moved false, r)
  | .setValue i value => do
    let (place, name, _) ← r.row? i
    let revalue (l : Listing (UInt32 × K) V) (j : Nat) := { l with pairs := l.pairs.set j (name, value) }
    pure (.done, ⟨revalue r.indexed i, revalue r.traversed place⟩)
  | .reserve _ | .resize _ | .shrink => some (.done, r)
  | .clear => some (.done, r.cleared)
  | .take => some (.pairs (r.traversed.pairs.map fun row => (row.1.2, row.2)), r.cleared)

/-- Applies actions one after the other and tells what they report. Each comes with the buckets that there are. -/
def run (loadFactor : Binary64) : List (Nat × Action K V) → Roster K V → Option (List (Report K V) × Roster K V)
  | [], r => some ([], r)
  | (buckets, action) :: actions, r => do
    let (report, r) ← r.apply buckets loadFactor action
    let (reports, r) ← r.run loadFactor actions
    pure (report :: reports, r)

end Roster

end DenseHash.Table
