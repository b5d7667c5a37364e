import DenseHash.Binary64.Basic

/-!
# The shortest decimal text of a binary64 number

A number is written with the fewest digits that read back to it, always positionally: `0.000000001`,
`10000000000000000`, `2`. Of two decimals with equally few digits the nearer one is written, and of two
equally near ones the larger.

The search is exact. A finite number `m * 2 ^ e` is an integer `D` times a power of ten; the decimals with
`n` digits around it are the multiples of a power of ten just below and just above `D`, and a decimal
reads back exactly if it lies in the interval halfway to the two neighbouring binary64 numbers.
-/

namespace DenseHash

/-- The decimal number `digits * 10 ^ exponent`. -/
structure Decimal where
  digits : Nat
  exponent : Int
deriving DecidableEq

namespace Decimal

/-- `n` noughts. -/
def noughts (n : Nat) : String := String.ofList (List.replicate n '0')

/-- Positional notation, without an exponent and without a point after a whole number. -/
def text (d : Decimal) : String :=
  let shown := Nat.repr d.digits
  match d.exponent with
  | .ofNat zeros => shown ++ noughts zeros
  | .negSucc k =>
    let places := k + 1
    if places < shown.length then
      let whole := shown.length - places
      String.ofList (shown.toList.take whole) ++ "." ++ String.ofList (shown.toList.drop whole)
    else "0." ++ noughts (places - shown.length) ++ shown

end Decimal

/-- A positive binary64 number on the decimal scale: it equals `value * 10 ^ exponent`, and its distance to
    the next larger number is `gap` on the same scale. -/
structure Scale where
  value : Nat
  gap : Nat
  exponent : Int
  /-- The next smaller number is only half a `gap` away. -/
  narrowBelow : Bool
  /-- The two ends of the interval read back, too. -/
  endsIncluded : Bool

namespace Scale

/-- The scale of `mantissa * 2 ^ exponent`. A negative power of two is a power of five over a power of
    ten. -/
def ofFinite (mantissa : Nat) (exponent : Int) : Scale :=
  let gap := Nat.pow 2 exponent.toNat * Nat.pow 5 (-exponent).toNat
  { value := mantissa * gap
    gap
    exponent := min exponent 0
    narrowBelow := decide (mantissa = 1 <<< 52 ∧ -1074 < exponent)
    endsIncluded := decide (mantissa % 2 = 0) }

/-- Whether the integer `n`, on this scale, lies in the interval of reals that round to the number. -/
def readsBack (s : Scale) (n : Nat) : Bool :=
  let low := if s.narrowBelow then 4 * s.value - s.gap else 4 * s.value - 2 * s.gap
  let high := 4 * s.value + 2 * s.gap
  if s.endsIncluded then low ≤ 4 * n && 4 * n ≤ high else low < 4 * n && 4 * n < high

/-- The decimal nearest to the number among the multiples of `10 ^ k` that read back, if there is one. -/
def nearest? (s : Scale) (k : Nat) : Option Decimal :=
  let grid := Nat.pow 10 k
  let below := s.value / grid
  let above := below + 1
  let hitBelow := s.readsBack (below * grid)
  let hitAbove := s.readsBack (above * grid)
  let exponent := s.exponent + k
  if hitBelow && hitAbove then
    if 2 * s.value < (below + above) * grid then some ⟨below, exponent⟩ else some ⟨above, exponent⟩
  else if hitBelow then some ⟨below, exponent⟩
  else if hitAbove then some ⟨above, exponent⟩
  else none

/-- The decimal on the coarsest grid that has one; the grid of units always has. -/
def shortest (s : Scale) : Decimal :=
  let count := (Nat.repr s.value).length
  let grids := (List.range (count + 1)).reverse
  (grids.findSome? s.nearest?).getD ⟨s.value, s.exponent⟩

end Scale

/-- The text of a number: shortest digits, `-0` for the negative zero, `NaN`, `inf` and `-inf`. -/
def Meaning.text : Meaning → String
  | .nan => "NaN"
  | .infinite negative => if negative then "-inf" else "inf"
  | .finite negative mantissa exponent =>
    let sign := if negative then "-" else ""
    if mantissa = 0 then sign ++ "0" else sign ++ (Scale.ofFinite mantissa exponent).shortest.text

/-- The text of a binary64 number. -/
def Binary64.text (x : Binary64) : String := x.meaning.text

end DenseHash
