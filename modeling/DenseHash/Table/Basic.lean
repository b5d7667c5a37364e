import DenseHash.Link
import DenseHash.Mixing
import DenseHash.Order.Basic
import DenseHash.Sizing

/-!
# The table

Entries stand without gaps in an array. Each belongs to the bucket that its stored hash selects, and the
entries of a bucket form a chain: the bucket's head leads to the first one, and each entry links to the next.
The buckets are allocated by the first insertion.

All that belongs to an entry, its link included, stands in one record, `Entry`, and not in arrays side by side. So
hashes, links, keys and values are equally many by construction; that the order visits as many is an invariant.

An entry is found by hash and key together, so one key may be stored under several hashes. What a key's
hash is, the table does not know.
-/

namespace DenseHash

/-- A stored key with its value, its hash and the next entry of its chain. -/
structure Entry (K V : Type) where
  key : K
  value : V
  hash : UInt32
  next : ChainLink
deriving DecidableEq

/-- A hash table with its entries in one array. -/
structure Table (K V : Type) where
  /-- One head per bucket; none before the first insertion. -/
  heads : Array Head
  entries : Array (Entry K V)
  order : Order
  loadFactor : Binary64
  /-- The number of entries to allocate buckets for. -/
  expected : Nat
deriving DecidableEq

namespace Table

variable {K V : Type}

/-- A table without buckets. -/
def empty (order : Order) (loadFactor : Binary64) (expected : Nat) : Table K V :=
  { heads := #[], entries := #[], order, loadFactor, expected }

/-- The number of entries. -/
def size (t : Table K V) : Nat := t.entries.size

/-- The number of buckets. -/
def buckets (t : Table K V) : Nat := t.heads.size

/-- The number of entries that fit before the table grows. -/
def capacity (t : Table K V) : Nat := if t.buckets = 0 then 0 else capacityOf t.buckets t.loadFactor

/-- The entry at index `i`. -/
def entry (t : Table K V) (i : Nat) : Checked (Entry K V) :=
  match t.entries[i]? with
  | some e => .ok e
  | none => (Corruption.outOfRange t.size i).raise

/-- The bucket of a stored hash. -/
def bucketOf (t : Table K V) (hash : UInt32) : Checked Nat :=
  if t.buckets = 0 then Corruption.noLast.raise else .ok (bucketIndex t.buckets hash)

/-- Where the chain of a bucket starts. -/
def headOf (t : Table K V) (bucket : Nat) : Checked ChainLink :=
  match t.heads[bucket]? with
  | some h => .ok h.toLink
  | none => (Corruption.outOfRange t.buckets bucket).raise

/-- Replaces the value at index `i`. -/
def setValue (t : Table K V) (i : Nat) (value : V) : Checked (Table K V) :=
  if i < t.size then .ok { t with entries := t.entries.modify i fun e => { e with value } }
  else (Corruption.outOfRange t.size i).raise

end Table

end DenseHash
