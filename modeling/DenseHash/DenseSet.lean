import DenseHash.Container.Update

/-!
# Dense sets

A set is a container whose values are all `()`. Its traversal is dense, and unless the settings say otherwise
its buckets are filled to the last one.
-/

namespace DenseHash

variable [Backing]

/-- A set of keys. -/
abbrev DenseSet (K : Type) := Container K Unit

namespace DenseSet

variable {K : Type}

/-- An empty set with these settings. -/
def make (settings : Settings) (hashing : Hashing K) (owner : OwnerId) : Except SettingsError (DenseSet K) :=
  Container.make settings .dense hashing owner

/-- An empty set with these settings, where refused settings are a fault. -/
def makeSure (settings : Settings) (hashing : Hashing K) (owner : OwnerId) : Checked (DenseSet K) :=
  Container.makeSure settings .dense hashing owner

/-- The keys in traversal order. -/
def keys (s : DenseSet K) : Checked (List K) := do
  let pairs ← Container.toList s
  pure (pairs.map Prod.fst)

variable [BEq K]

/-- Adds a key; tells whether it is new. A key that is present keeps its stored form. -/
def add (s : DenseSet K) (key : K) : Reply (DenseSet K) Bool :=
  (Container.insert s key ()).map fun old => old.isNone

/-- The stored form of a key. -/
def stored? (s : DenseSet K) (key : K) : Checked (Option K) := do
  let pair ← Container.entry? s key
  pure (pair.map Prod.fst)

/-- Removes a key; tells its stored form. -/
def take (s : DenseSet K) (key : K) : Reply (DenseSet K) (Option K) :=
  (Container.remove s key).map fun pair => pair.map Prod.fst

/-- Removes a key; tells whether it was present. -/
def discard (s : DenseSet K) (key : K) : Reply (DenseSet K) Bool :=
  (Container.remove s key).map fun pair => pair.isSome

/-- Adds keys one after the other; the hint is for their number. -/
def addAll (s : DenseSet K) (hint : UInt64) (keys : List K) : Reply (DenseSet K) Unit :=
  Container.extend s hint (keys.map fun key => (key, ()))

end DenseSet

end DenseHash
