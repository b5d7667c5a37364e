import DenseHash.Binary64.Basic

/-!
# Quotients and products, rounded once

Sizing divides a count by a load factor, multiplies a bucket count by one, and turns the result into a
64-bit word. Each operation here is the exact result rounded once to 53 significant bits, ties to even.

The exponent of a result is not bounded. That changes no word: a quotient or product beyond the binary64
range becomes the largest word either way, and a count divided by a finite number is never so small that
its ceiling could become zero.
-/

namespace DenseHash

/-- The integer nearest to `num / den`; a half goes to the even neighbour. -/
def roundHalfEven (num den : Nat) : Nat :=
  let q := num / den
  let r := num % den
  if 2 * r < den then q else if den < 2 * r then q + 1 else q + q % 2

/-- The number with 53 significant bits nearest to `num / den`, as mantissa and exponent. The scale is
    chosen so that the exact quotient lies in `[2 ^ 52, 2 ^ 53)` before it is rounded. -/
def roundRatio (num den : Nat) : Nat × Int :=
  if num = 0 then (0, 0)
  else
    let guess : Int := 52 + den.log2 - num.log2
    let scale := if num * .pow 2 guess.toNat < (1 <<< 52) * (den * .pow 2 (-guess).toNat) then guess + 1 else guess
    (roundHalfEven (num * .pow 2 scale.toNat) (den * .pow 2 (-scale).toNat), -scale)

/-- The largest 64-bit word. -/
def maxWord : Nat := (1 <<< 64) - 1

namespace Meaning

/-- A natural number, rounded to 53 significant bits. -/
def ofNat (n : Nat) : Meaning :=
  let (m, e) := roundRatio n 1
  .finite false m e

/-- The quotient. Zero by zero and infinity by infinity are NaN. -/
def div : Meaning → Meaning → Meaning
  | .nan, _ => .nan
  | _, .nan => .nan
  | .infinite _, .infinite _ => .nan
  | .infinite s, .finite t _ _ => .infinite (s ^^ t)
  | .finite s _ _, .infinite t => .finite (s ^^ t) 0 0
  | .finite s m e, .finite t n f =>
    if n = 0 then
      if m = 0 then .nan else .infinite (s ^^ t)
    else
      let (q, x) := roundRatio m n
      .finite (s ^^ t) q (x + e - f)

/-- The product. Zero times infinity is NaN. -/
def mul : Meaning → Meaning → Meaning
  | .nan, _ => .nan
  | _, .nan => .nan
  | .infinite s, .infinite t => .infinite (s ^^ t)
  | .infinite s, .finite t n _ => if n = 0 then .nan else .infinite (s ^^ t)
  | .finite s m _, .infinite t => if m = 0 then .nan else .infinite (s ^^ t)
  | .finite s m e, .finite t n f =>
    let (p, x) := roundRatio (m * n) 1
    .finite (s ^^ t) p (x + e + f)

/-- The integer part as a 64-bit word: what is too large becomes the largest word, what is negative or no
    number becomes zero. -/
def floorWord : Meaning → Nat
  | .nan => 0
  | .infinite negative => if negative then 0 else maxWord
  | .finite negative m e =>
    if negative then 0 else min (m * .pow 2 e.toNat / .pow 2 (-e).toNat) maxWord

/-- The least integer at or above the number, as a 64-bit word in the same way. -/
def ceilWord : Meaning → Nat
  | .nan => 0
  | .infinite negative => if negative then 0 else maxWord
  | .finite negative m e =>
    if negative then 0 else min ((m * .pow 2 e.toNat + (.pow 2 (-e).toNat - 1)) / .pow 2 (-e).toNat) maxWord

end Meaning

end DenseHash
