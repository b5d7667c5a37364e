import DenseHash.Table.Growth

/-!
# Insertion

A key that is present gets the new value and keeps its stored form. A new key is appended to the entries and
put in front of its chain. If the table is then too full it is rebuilt with twice the buckets, or more where
the load factor asks for it.
-/

namespace DenseHash

/-- What an insertion did. -/
inductive Inserted (V : Type) where
  /-- The key was there with value `old`; `moved` tells whether its entry moved in the order. -/
  | updated (old : V) (moved : Bool)
  /-- The key is new. Its chain had `chain` entries, itself included, before any rebuilding. -/
  | added (chain : Nat) (resized : Bool)
deriving DecidableEq

namespace Table

variable {K V : Type}

/-- Replaces the value of the entry at index `i` and counts that as a use of it. -/
def update (t : Table K V) (i : Nat) (value : V) : Checked (V × Bool × Table K V) := do
  let e ← t.entry i
  let (moved, order) ← t.order.access i
  pure (e.value, moved, { t with entries := t.entries.setIfInBounds i { e with value }, order })

/-- Appends an entry and puts it in front of the chain of `bucket`. -/
def append (t : Table K V) (bucket : Nat) (hash : UInt32) (key : K) (value : V) : Checked (Table K V) := do
  let first ← t.headOf bucket
  let order ← t.order.push
  let link : ChainLink := .ofIndex t.size
  let t := { t with entries := t.entries.push ⟨key, value, hash, first⟩, order }
  pure (t.redirect (.head bucket) link)

/-- Rebuilds the table if it is too full; tells whether it was. -/
def grow (t : Table K V) : Reply (Table K V) Bool :=
  if t.size ≤ t.capacity then .ok t false
  else
    match enlarge t.loadFactor t.size 64 (2 * t.buckets) with
    | .ok buckets => (t.resize buckets).map fun _ => true
    | .error f => .fail t f

/-- Inserts into a table that has buckets. -/
def insertAllocated [BEq K] (t : Table K V) (hash : UInt32) (key : K) (value : V) :
    Reply (Table K V) (Inserted V) :=
  let place : Checked (Nat × List Nat) := do
    let bucket ← t.bucketOf hash
    let chain ← t.chain bucket
    pure (bucket, chain)
  match place with
  | .error f => .fail t f
  | .ok (bucket, chain) =>
    match chain.find? (t.holds hash key) with
    | some i =>
      match t.update i value with
      | .ok (old, moved, t) => .ok t (.updated old moved)
      | .error f => .fail t f
    | none =>
      if maxBuckets ≤ t.size then .fail t .capacityOverflow
      else
        match t.append bucket hash key value with
        | .ok t => t.grow.map fun resized => .added (chain.length + 1) resized
        | .error f => .fail t f

/-- Inserts a key under a hash, or replaces the value that it has there. -/
def insert [BEq K] (t : Table K V) (hash : UInt32) (key : K) (value : V) : Reply (Table K V) (Inserted V) :=
  t.allocate.andThen fun _ t => t.insertAllocated hash key value

/-- Counts a use of the entry at index `i`; tells whether it moved in the order. -/
def touch (t : Table K V) (i : Nat) : Checked (Bool × Table K V) := do
  let (moved, order) ← t.order.access i
  pure (moved, { t with order })

end Table

end DenseHash
