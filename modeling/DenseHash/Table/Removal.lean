import DenseHash.Table.Chain

/-!
# Removal

An entry is taken off its chain, and then the last entry takes its index: whatever led to the last index
is redirected, in the chain and in the order.

There are two ways to take an entry off its chain. `remove` looks for a key and remembers, on the way, what
led to each entry; `removeAt` is given an index and walks its chain to find what leads there.
-/

namespace DenseHash.Table

variable {K V : Type}

/-- Gives the index of an entry that is on no chain to the last entry. -/
def vacate (t : Table K V) (i : Nat) : Checked (Table K V) := do
  if t.size = 0 then Corruption.noLast.raise
  else
    let last := t.size - 1
    let order ← t.order.erase i last
    let t := { t with order }
    let t ← if i = last then pure t else do
      let anchor ← t.anchorOf last
      pure (t.redirect anchor (.ofIndex i))
    pure { t with entries := removePacked t.entries i }

/-- Removes the entry at index `i`. -/
def removeAt (t : Table K V) (i : Nat) : Checked ((K × V) × Table K V) := do
  let e ← t.entry i
  let anchor ← t.anchorOf i
  let t ← (t.redirect anchor e.next).vacate i
  pure ((e.key, e.value), t)

/-- Removes the entry with this hash and this key. -/
def remove [BEq K] (t : Table K V) (hash : UInt32) (key : K) : Checked (Option (K × V) × Table K V) := do
  if t.buckets = 0 then pure (none, t)
  else
    let bucket ← t.bucketOf hash
    let chain ← t.chain bucket
    match Anchor.locate (t.holds hash key) (.head bucket) chain with
    | none => pure (none, t)
    | some (anchor, i) =>
      let e ← t.entry i
      let t ← (t.redirect anchor e.next).vacate i
      pure (some (e.key, e.value), t)

end DenseHash.Table
