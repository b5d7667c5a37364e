import DenseHash.Operation

/-!
# What a container lists

A container without its hashes, buckets and links: its keys with their values, in traversal order, every key
once. `Listing.apply` says what an operation does to that list and what it answers. Besides the list it needs
two facts about the container: whether removal is *packed*, so that the last entry takes the place that
became free, and whether a use moves an entry to the end.

Nothing here can fail, and nothing depends on a hash. `Container.listing` reads the listing off a container.
-/

namespace DenseHash

/-- The entries of a container in traversal order. -/
structure Listing (K V : Type) where
  pairs : List (K × V)
  /-- The last entry takes the place of one that is removed. -/
  packed : Bool
  /-- A use moves an entry to the end. -/
  byAccess : Bool
deriving DecidableEq

/-- Brings the last element to the front. -/
def lastFirst {α : Type} (as : List α) : List α :=
  match as.getLast? with
  | some last => last :: as.dropLast
  | none => []

/-- Putting the last element first keeps the length. -/
theorem length_lastFirst {α : Type} (as : List α) : (lastFirst as).length = as.length := by
  cases as with
  | nil => rfl
  | cons a rest => simp [lastFirst, List.getLast?_cons]

namespace Listing

variable {K V : Type}

/-- The listing of no entries, for a container that removes and uses in the same way. -/
def cleared (l : Listing K V) : Listing K V := { l with pairs := [] }

/-- Takes out the entry at position `i`. If packed, the last entry takes its place; otherwise those behind it
    move up. -/
def removeAt (l : Listing K V) (i : Nat) : Listing K V :=
  if l.packed then { l with pairs := l.pairs.take i ++ lastFirst (l.pairs.drop (i + 1)) }
  else { l with pairs := l.pairs.eraseIdx i }

/-- Replaces the entry at position `i` and counts that as a use of it. -/
def use (l : Listing K V) (i : Nat) (pair : K × V) : Listing K V :=
  { l with pairs := if l.byAccess then l.pairs.eraseIdx i ++ [pair] else l.pairs.set i pair }

/-- Visits every entry once. The visitor carries a state along, may change the value, and says whether the
    entry stays. When an entry goes and removal is packed, the last entry is visited next. -/
def sift {σ : Type} (packed : Bool) (keep : σ → K → V → σ × V × Bool) (state : σ) :
    List (K × V) → List (K × V) × σ
  | [] => ([], state)
  | (key, value) :: rest =>
    let (state, value, stays) := keep state key value
    if stays then
      let (kept, state) := sift packed keep state rest
      ((key, value) :: kept, state)
    else sift packed keep state (if packed then lastFirst rest else rest)
termination_by pairs => pairs.length
decreasing_by
  · simp
  · split <;> simp [length_lastFirst]

/-- What a script shows of entries whose values are changed as they are handed out, and the entries after
    that. -/
def revise (change : K → V → V) : List Move → List (K × V) → List (Reading (K × V)) × List (K × V)
  | [], pairs => ([], pairs)
  | .front :: moves, [] =>
    let (readings, pairs) := revise change moves []
    (.item none :: readings, pairs)
  | .front :: moves, (key, value) :: rest =>
    let pair := (key, change key value)
    let (readings, rest) := revise change moves rest
    (.item (some pair) :: readings, pair :: rest)
  | .back :: moves, pairs =>
    match pairs.getLast? with
    | none =>
      let (readings, pairs) := revise change moves pairs
      (.item none :: readings, pairs)
    | some (key, value) =>
      let pair := (key, change key value)
      let (readings, rest) := revise change moves pairs.dropLast
      (.item (some pair) :: readings, rest ++ [pair])
  | .length :: moves, pairs =>
    let (readings, after) := revise change moves pairs
    (.count pairs.length :: readings, after)
  | .bounds :: moves, pairs =>
    let (readings, after) := revise change moves pairs
    (.bounds pairs.length pairs.length :: readings, after)
  | .copy :: moves, pairs =>
    let (readings, after) := revise change moves pairs
    (.items pairs :: readings, after)
  | .rest :: moves, pairs =>
    let changed := pairs.map fun (key, value) => (key, change key value)
    let (readings, _) := revise change moves []
    (.items changed :: readings, changed)

variable [BEq K]

/-- The position of a key, with its entry. -/
def locate? (l : Listing K V) (key : K) : Option (Nat × K × V) := do
  let i ← l.pairs.findIdx? fun pair => pair.1 == key
  let pair ← l.pairs[i]?
  pure (i, pair)

/-- The stored form of a key, with its value. -/
def entry? (l : Listing K V) (key : K) : Option (K × V) := l.pairs.find? fun pair => pair.1 == key

/-- Appends a new key. A key that is present keeps its stored form and gets the value, which counts as a
    use. -/
def insert (l : Listing K V) (key : K) (value : V) : Option V × Listing K V :=
  match l.locate? key with
  | some (i, stored, old) => (some old, l.use i (stored, value))
  | none => (none, { l with pairs := l.pairs ++ [(key, value)] })

/-- What an operation answers and does. -/
def apply (op : Operation K V) (l : Listing K V) : Answer K V × Listing K V :=
  match op with
  | .insert key value =>
    let (old, l) := l.insert key value
    (.value old, l)
  | .get key =>
    match l.locate? key with
    | some (i, stored, value) => (.value (some value), l.use i (stored, value))
    | none => (.value none, l)
  | .modify key change =>
    match l.locate? key with
    | some (i, stored, value) => (.value (some (change value)), l.use i (stored, change value))
    | none => (.value none, l)
  | .peek key => (.value ((l.entry? key).map Prod.snd), l)
  | .entry key => (.pair (l.entry? key), l)
  | .contains key => (.flag (l.entry? key).isSome, l)
  | .remove key =>
    match l.locate? key with
    | some (i, pair) => (.pair (some pair), l.removeAt i)
    | none => (.pair none, l)
  | .first => (.pair l.pairs.head?, l)
  | .last => (.pair l.pairs.getLast?, l)
  | .popFirst => (.pair l.pairs.head?, l.removeAt 0)
  | .popLast => (.pair l.pairs.getLast?, l.removeAt (l.pairs.length - 1))
  | .retain keep =>
    let visit (seen : List (K × V)) (key : K) (value : V) : List (K × V) × V × Bool :=
      ((key, value) :: seen, keep seen key value)
    let (kept, seen) := sift l.packed visit [] l.pairs
    (.pairs seen.reverse, { l with pairs := kept })
  | .extend _ pairs => (.done, pairs.foldl (fun l (key, value) => (l.insert key value).2) l)
  | .drain => (.pairs l.pairs, l.cleared)
  | .clear => (.done, l.cleared)
  | .reserve _ => (.done, l)
  | .shrink => (.done, l)
  | .iterate moves => (.readings (Script.read moves l.pairs), l)
  | .revise moves change =>
    let (readings, pairs) := revise change moves l.pairs
    (.readings readings, { l with pairs })

end Listing

/-- The listing of a container. Only a dense table removes packed. -/
def Container.listing [Backing] {K V : Type} (c : Container K V) : Checked (Listing K V) := do
  let pairs ← c.toList
  pure { pairs, packed := c.store.isPacked, byAccess := c.store.byAccess }

end DenseHash
