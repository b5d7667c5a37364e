import DenseHash.Iter
import DenseHash.Reply

/-!
# Containers

A container is a store with a hash function and a guard. It starts as a table; when a chain of the table grows
longer than `maxChain` the entries move to a fallback, for good. Apart from that, and from what removal does to
a dense order, the two forms of storage behave alike.

* **`generation`** counts the changes of structure: what a cursor compares to notice one.
* **`owner`** tells containers apart: a copy is another container. It is a word, so only `2 ^ 64` of them differ.

This module has what only reads a container; keys compare with `==`.
-/

namespace DenseHash

/-- The hash functions of a container: the one it was given, and those that its fallbacks draw. -/
structure Hashing (K : Type) where
  primary : K → UInt64
  secondary : Draws K

/-- What tells a container from the others. The words are given out in order, beginning again when all have been. -/
structure OwnerId where
  word : UInt64
deriving DecidableEq

/-- What a container gets that is made after `n` others. -/
def OwnerId.nth (n : Nat) : OwnerId := ⟨.ofNat n⟩

instance : Coe Nat OwnerId := ⟨.nth⟩

instance (n : Nat) : OfNat OwnerId n := ⟨.nth n⟩

variable [Backing]

/-- Entries with their lookup and their order. -/
structure Container (K V : Type) where
  hashing : Hashing K
  store : Store K V
  /-- The longest chain that the flood guard lets pass. -/
  maxChain : Nat
  generation : UInt64
  owner : OwnerId

namespace Container

variable {K V : Type}

/-- An empty container with these settings. -/
def make (settings : Settings) (order : Order) (hashing : Hashing K) (owner : OwnerId) :
    Except SettingsError (Container K V) := do
  settings.check
  pure {
    hashing
    store := .table (.empty order settings.loadFactor settings.expectedSize.toNat)
    maxChain := settings.maxChain.toNat
    generation := 0
    owner }

/-- An empty container with these settings, where refused settings are a fault. -/
def makeSure (settings : Settings) (order : Order) (hashing : Hashing K) (owner : OwnerId) :
    Checked (Container K V) :=
  (make settings order hashing owner).mapError .refused

/-- A container with the same entries, as a container of its own. -/
def copy (c : Container K V) (owner : OwnerId) : Container K V := { c with owner }

/-- The number of entries. -/
def size (c : Container K V) : Nat := c.store.size

/-- Whether there are no entries. -/
def isEmpty (c : Container K V) : Bool := c.size = 0

/-- Whether the flood guard has moved the entries to the fallback. -/
def isFallback (c : Container K V) : Bool := c.store.isFallback

/-- The number of entries that fit before the table grows; a fallback has no such number. -/
def capacity? (c : Container K V) : Option Nat :=
  match c.store with
  | .table t => some t.capacity
  | .fallback _ => none

/-- The hash of a key under which a table stores it. -/
def storedHash (c : Container K V) (key : K) : UInt32 := mix (c.hashing.primary key)

/-- Counts a change of structure. -/
def bump (c : Container K V) : Container K V := { c with generation := c.generation + 1 }

/-- An iterator over the entries. -/
def iter (c : Container K V) : Iter K V := .start c.store

/-- All keys and values in traversal order. -/
def toList (c : Container K V) : Checked (List (K × V)) := c.iter.toList

/-- All keys and values in traversal order, read off the storage at once. -/
def entries (c : Container K V) : Checked (List (K × V)) := c.store.pairs

/-- The first key and value in traversal order. -/
def first (c : Container K V) : Checked (Option (K × V)) := c.store.first.mapM c.store.pair

/-- The last key and value in traversal order. -/
def last (c : Container K V) : Checked (Option (K × V)) := c.store.last.mapM c.store.pair

variable [BEq K]

/-- The slot that holds a key. -/
def find (c : Container K V) (key : K) : Checked (Option Slot) :=
  match c.store with
  | .table t => do
    let i ← t.find (c.storedHash key) key
    pure (i.map .index)
  | .fallback f => do
    let s ← f.find key
    pure (s.map .node)

/-- Whether a key is present. -/
def contains (c : Container K V) (key : K) : Checked Bool := do
  let slot ← c.find key
  pure slot.isSome

/-- The stored form of a key, with its value. -/
def entry? (c : Container K V) (key : K) : Checked (Option (K × V)) := do
  let slot ← c.find key
  slot.mapM c.store.pair

/-- The value of a key. Does not count as a use. -/
def peek (c : Container K V) (key : K) : Checked (Option V) := do
  let pair ← c.entry? key
  pure (pair.map Prod.snd)

/-- The value of a key that must be present. -/
def valueOf (c : Container K V) (key : K) : Checked V := do
  match ← c.peek key with
  | some value => pure value
  | none => .error .missingKey

end Container

end DenseHash
