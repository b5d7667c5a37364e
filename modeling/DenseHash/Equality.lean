import DenseHash.Container.Basic

/-!
# Equality of containers

Dense maps and sets are equal as finite maps, whatever their order. Linked maps are equal as sequences.
-/

namespace DenseHash.Container

variable [Backing] {K V : Type} [BEq K] [BEq V]

/-- Whether a container has every one of these keys with an equal value. -/
def includes (c : Container K V) : List (K × V) → Checked Bool
  | [] => .ok true
  | (key, value) :: rest => do
    match ← c.peek key with
    | some other => if value == other then c.includes rest else pure false
    | none => pure false

/-- Equality as finite maps: as many entries, and each of the first is in the second. -/
def sameMap (a b : Container K V) : Checked Bool := do
  if a.size = b.size then
    let pairs ← a.toList
    b.includes pairs
  else pure false

/-- Equality as sequences of entries. -/
def sameSequence (a b : Container K V) : Checked Bool := do
  if a.size = b.size then
    let left ← a.toList
    let right ← b.toList
    pure (left == right)
  else pure false

end DenseHash.Container
