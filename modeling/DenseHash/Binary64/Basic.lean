/-!
# Binary64 numbers and what their bits mean

A load factor is a binary64 number, and every one of the `2 ^ 64` bit patterns can be asked for: tiny
ones, negative ones, infinities and NaN. So the type is the bits, `meaning` says what they stand for, and
comparison works on the meaning, exactly, in integers. No machine float takes part.
-/

namespace DenseHash

/-- A binary64 number, held as its 64 bits. -/
structure Binary64 where
  bits : UInt64
deriving DecidableEq

/-- What a binary64 number stands for. A finite one is `mantissa * 2 ^ exponent`, negated if `negative`;
    a zero keeps its sign. -/
inductive Meaning where
  | nan
  | infinite (negative : Bool)
  | finite (negative : Bool) (mantissa : Nat) (exponent : Int)
deriving DecidableEq

namespace Binary64

/-- The 52 bits after the leading one. -/
def fraction (x : Binary64) : Nat := x.bits.toNat % (1 <<< 52)

/-- The biased exponent, eleven bits. -/
def biased (x : Binary64) : Nat := x.bits.toNat / (1 <<< 52) % (1 <<< 11)

/-- The top bit. -/
def negative (x : Binary64) : Bool := (1 <<< 63) ≤ x.bits.toNat

/-- Reads the fields: exponent all ones is an infinity or NaN, exponent zero has no leading one. -/
def meaning (x : Binary64) : Meaning :=
  if x.biased = 2047 then
    if x.fraction = 0 then .infinite x.negative else .nan
  else if x.biased = 0 then .finite x.negative x.fraction (-1074)
  else .finite x.negative ((1 <<< 52) + x.fraction) ((x.biased : Int) - 1075)

/-- The number 1. -/
def one : Binary64 := ⟨0x3FF0000000000000⟩

/-- The number 3/4. -/
def threeQuarters : Binary64 := ⟨0x3FE8000000000000⟩

/-- The number 1/4. -/
def quarter : Binary64 := ⟨0x3FD0000000000000⟩

end Binary64

namespace Meaning

/-- A mantissa with its sign. -/
def signed (negative : Bool) (mantissa : Nat) : Int := if negative then -(mantissa : Int) else mantissa

/-- Whether the left number is at most the right one. NaN compares with nothing, and the two zeros are
    equal. -/
def atMost : Meaning → Meaning → Bool
  | .nan, _ => false
  | _, .nan => false
  | .infinite true, _ => true
  | _, .infinite false => true
  | .infinite false, _ => false
  | _, .infinite true => false
  | .finite s m e, .finite t n f =>
    signed s m * .pow 2 (e - f).toNat ≤ signed t n * .pow 2 (f - e).toNat

end Meaning

/-- Whether `x` is at most `y`; false as soon as one of them is NaN. -/
def Binary64.atMost (x y : Binary64) : Bool := x.meaning.atMost y.meaning

end DenseHash
