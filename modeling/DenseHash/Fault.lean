import DenseHash.Settings

/-!
# Ways an operation can fail

An operation that fails reports a cause. Most causes lie with the caller: a request that no table can
meet, settings that are refused, a key that is not there. The last one, corruption, would be a defect
of the library itself: every place that reads an index, a link or a slot says what it would report if the
structure were broken, and the theory shows that none of them ever does.
-/

namespace DenseHash

/-- Damage that an operation would notice in a container. -/
inductive Corruption where
  /-- An index at or beyond the end of what it indexes. -/
  | outOfRange (size index : Nat)
  /-- The last position of nothing was asked for. -/
  | noLast
  /-- A bucket's chain does not end, or does not reach an entry that belongs to it. -/
  | brokenChain
  /-- The traversal order does not end. -/
  | brokenOrder
  /-- A slot of one form of storage was used with the other. -/
  | foreignSlot
  /-- A slot whose entry has been removed. -/
  | vacantSlot
  /-- A live slot that the index does not list. -/
  | lostSlot
deriving DecidableEq

/-- A step in the computation of a size. -/
inductive SizeStep where
  | addition
  | doubling
deriving DecidableEq

/-- Why an operation failed. -/
inductive Fault where
  /-- More buckets or entries were asked for than a table can have. -/
  | capacityOverflow
  /-- More entries were asked for than the index of a fallback can have. -/
  | indexOverflow
  /-- A size computed from a request does not fit a 64-bit word. -/
  | wordOverflow (step : SizeStep)
  /-- A container was asked for with settings that are refused. -/
  | refused (error : SettingsError)
  /-- A key that must be present is not. -/
  | missingKey
  | corrupt (damage : Corruption)
deriving DecidableEq

/-- A result that may be a fault. -/
abbrev Checked (α : Type) := Except Fault α

/-- Reports damage. -/
def Corruption.raise {α : Type} (damage : Corruption) : Checked α := .error (.corrupt damage)

/-- The text for damage. -/
def Corruption.message : Corruption → String
  | .outOfRange size index =>
    "index out of bounds: the len is " ++ Nat.repr size ++ " but the index is " ++ Nat.repr index
  | .noLast => "attempt to subtract with overflow"
  | .brokenChain => "bucket chain corrupted"
  | .brokenOrder => "order links visit an index twice"
  | .foreignSlot => "slot kind does not match representation"
  | .vacantSlot => "slot is vacant"
  | .lostSlot => "index lost a live slot"

/-- The text of a fault. -/
def Fault.message : Fault → String
  | .capacityOverflow => "capacity overflow"
  | .indexOverflow => "Hash table capacity overflow"
  | .wordOverflow .addition => "attempt to add with overflow"
  | .wordOverflow .doubling => "attempt to multiply with overflow"
  | .refused error => error.message
  | .missingKey => "key not found in CompactHashMap"
  | .corrupt damage => damage.message

end DenseHash
