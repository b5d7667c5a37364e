/-!
# Limits of size

The smallest and the largest number of buckets. A table holds no more entries than it may have buckets,
so an index into the entries always fits a 32-bit link with room to spare. Room can be asked for in far
larger numbers than that; the other limits say from where on storage for it could not even be addressed.
-/

namespace DenseHash

/-- The fewest buckets of an allocated table. -/
def minBuckets : Nat := 4

/-- The most buckets, and the most entries, of a table. -/
def maxBuckets : Nat := 1 <<< 30

/-- The most entries that links can lead to: an index is below the words that are set apart for none, and the word
    of a head, which holds one more, is at most the smaller one of them. -/
def maxLinked : Nat := 0xFFFFFFFE

/-- The most entries that an array can be asked to hold: eight bytes each, in fewer than `2 ^ 63` bytes. -/
def maxStored : Nat := (1 <<< 60) - 1

/-- The number of values of a 64-bit word. -/
def wordValues : Nat := 1 <<< 64

end DenseHash
