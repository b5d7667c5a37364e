/-!
# From a hash to a bucket

The low bits of a hash choose the bucket, and hash functions often put little into them. So the 64-bit
hash is folded to 32 bits and multiplied and rotated, which spreads every bit over the low ones.
-/

namespace DenseHash

/-- The low word of a hash, with the high word added to it bit by bit. -/
def fold (hash : UInt64) : UInt32 := (hash ^^^ (hash >>> 32)).toUInt32

/-- Rotates a word to the left by 15 bits. -/
def rotate15 (x : UInt32) : UInt32 := (x <<< 15) ||| (x >>> 17)

/-- The 32-bit hash under which an entry is stored. -/
def mix (hash : UInt64) : UInt32 := 0x1b873593 * rotate15 (fold hash * 0xcc9e2d51)

/-- The bucket of a stored hash among `buckets` buckets, a power of two: its low bits. -/
def bucketIndex (buckets : Nat) (hash : UInt32) : Nat := hash.toNat &&& (buckets - 1)

end DenseHash
