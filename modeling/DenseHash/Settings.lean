import DenseHash.Binary64.Decimal
import DenseHash.Binary64.Rounding
import DenseHash.Limits

/-!
# Settings of a container

What a container is made with: how many entries to make room for at first, how full the buckets may get,
and how long a bucket's chain may grow before the flood guard steps in. `Settings.check` is the one place
where settings are refused; of several faults the first in its order is reported.
-/

namespace DenseHash

/-- The sizing and flood-guard policy of a container. -/
structure Settings where
  /-- Entries to make room for when the buckets are first allocated. -/
  expectedSize : UInt64 := 0
  /-- Entries per bucket at which the table grows. -/
  loadFactor : Binary64 := .threeQuarters
  /-- The longest chain that the flood guard lets pass. -/
  maxChain : UInt64 := 9
deriving DecidableEq

/-- Why settings are refused. -/
inductive SettingsError where
  /-- The load factor is not a number from 1/4 to 1. -/
  | loadFactor (given : Binary64)
  /-- No chain at all would be let pass. -/
  | maxChain
  /-- No table can be made that large. -/
  | expectedSize (given : UInt64)
deriving DecidableEq

namespace SettingsError

/-- The text of a refusal. -/
def message : SettingsError → String
  | .loadFactor given => "load factor " ++ given.text ++ " is outside [0.25, 1]"
  | .maxChain => "maximum bucket length must be at least 1"
  | .expectedSize given => "expected size " ++ Nat.repr given.toNat ++ " exceeds the maximum capacity"

end SettingsError

namespace Settings

/-- The settings of a set. Without values the buckets are the larger part of the storage, so they are
    filled to the last one. -/
def forSet : Settings := { loadFactor := .one }

/-- The bucket count that the expected size asks for, before it is rounded up to an integer. -/
def wantedBuckets (s : Settings) : Meaning :=
  (Meaning.ofNat s.expectedSize.toNat).div s.loadFactor.meaning

/-- Refuses a load factor outside `[1/4, 1]` (NaN is outside), then a chain limit of zero, then an expected
    size that would need more than the largest number of buckets. -/
def check (s : Settings) : Except SettingsError Unit :=
  if !(Binary64.quarter.atMost s.loadFactor && s.loadFactor.atMost .one) then
    .error (.loadFactor s.loadFactor)
  else if s.maxChain = 0 then .error .maxChain
  else if !s.wantedBuckets.atMost (.ofNat maxBuckets) then .error (.expectedSize s.expectedSize)
  else .ok ()

end Settings

end DenseHash
