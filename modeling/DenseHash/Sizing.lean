import DenseHash.Fault

/-!
# How many buckets

Bucket counts are powers of two. `capacity` says how many entries a number of buckets takes at a load
factor, `bucketsFor` how many buckets a number of entries needs, and `enlarge` how far a table grows that
has just become too full.

The arithmetic is that of 64-bit words with overflow checked: a sum or a product beyond the words is the fault
`wordOverflow`. What a build without that check does, which goes on with the wrapped word, is not described here.
-/

namespace DenseHash

/-- The number of entries that `buckets` buckets take before they are too full: the product with the load
    factor, cut to an integer. -/
def capacityOf (buckets : Nat) (loadFactor : Binary64) : Nat :=
  ((Meaning.ofNat buckets).mul loadFactor.meaning).floorWord

/-- The least power of two at or above `n`. -/
def powerOfTwoFrom (n : Nat) : Nat := if n ≤ 1 then 1 else .pow 2 ((n - 1).log2 + 1)

/-- Doubles `size` until it takes `count` entries or is beyond the largest table. The division that gave the
    first size can have been rounded down past a power of two. -/
def widen (loadFactor : Binary64) (count : Nat) : Nat → Nat → Nat
  | 0, size => size
  | fuel + 1, size =>
    if size ≤ maxBuckets ∧ capacityOf size loadFactor < count then widen loadFactor count fuel (2 * size)
    else size

/-- The number of buckets for `count` entries: the quotient by the load factor, rounded up to a power of two
    of at least four. Every doubling of `widen` moves the size toward the limit, so 32 of them reach it. -/
def bucketsFor (count : Nat) (loadFactor : Binary64) : Checked Nat :=
  let wanted := ((Meaning.ofNat count).div loadFactor.meaning).ceilWord
  let size := powerOfTwoFrom (max wanted minBuckets)
  if wordValues ≤ size then .error (.wordOverflow .addition)
  else
    let size := widen loadFactor count 32 size
    if maxBuckets < size then .error .capacityOverflow else .ok size

/-- Doubles `size` until it takes `count` entries. A positive size has left the 64-bit words after 64
    doublings, so the fuel runs out only where the word has overflowed. -/
def enlarge (loadFactor : Binary64) (count : Nat) : Nat → Nat → Checked Nat
  | 0, _ => .error (.wordOverflow .doubling)
  | fuel + 1, size =>
    if wordValues ≤ size then .error (.wordOverflow .doubling)
    else if capacityOf size loadFactor < count then enlarge loadFactor count fuel (2 * size)
    else .ok size

end DenseHash
