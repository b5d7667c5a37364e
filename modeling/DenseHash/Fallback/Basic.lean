import DenseHash.Fallback.Backing
import DenseHash.Gather
import DenseHash.Walk

/-!
# The fallback

When the keys of a table collide too often, its entries move here. The fallback has a hash function of its
own, which whoever chose the keys does not know. It is built from the collections of a `Backing`.

* **`nodes`** holds the entries by slot. The slots come from `supply`, which gives out none of them twice, so a
  slot kept from before a removal leads nowhere. Emptying the fallback keeps the supply; taking all entries out
  leaves a new fallback, which has a new supply and draws another hash function.
* **`index`** files the slot of each entry under its hash.
* the nodes' links, with `first` and `last`, thread them in the order of insertion or of the last use.
-/

namespace DenseHash

/-! ## Hash functions -/

/-- The hash functions that fallbacks get, one for each new fallback. -/
structure Draws (K : Type) where
  draw : Nat → K → UInt64

/-- The same hash function over and over. -/
instance {K : Type} : Coe (K → UInt64) (Draws K) := ⟨fun hash => ⟨fun _ => hash⟩⟩

namespace Draws

variable {K : Type}

/-- What is left after some draws. -/
def drop (d : Draws K) (n : Nat) : Draws K := ⟨fun i => d.draw (n + i)⟩

/-- The hash function of a fallback that has these draws. -/
def digest (d : Draws K) : K → UInt64 := d.draw 0

end Draws

/-! ## Fallbacks -/

variable [Backing]

/-- An entry of the fallback, with its hash there and its neighbours in the order. -/
structure Node (K V : Type) where
  key : K
  value : V
  hash : UInt64
  prev : Option Backing.Handle
  next : Option Backing.Handle

/-- The storage that does not depend on the container's hash function. -/
structure Fallback (K V : Type) where
  /-- The fallback's own hash function is the first of these; a fallback that follows it gets the next one. -/
  draws : Draws K
  index : Backing.Index
  nodes : Backing.Nodes (Node K V)
  supply : Backing.Supply
  first : Option Backing.Handle
  last : Option Backing.Handle
  /-- Whether a use moves an entry to the end. -/
  byAccess : Bool

namespace Fallback

variable {K V : Type}

/-- The fallback's own hash function. -/
def digest (f : Fallback K V) : K → UInt64 := f.draws.digest

/-- A fallback without entries. -/
def empty (draws : Draws K) (byAccess : Bool) : Fallback K V where
  draws
  index := Backing.bare
  nodes := Backing.vacant
  supply := Backing.supply
  first := none
  last := none
  byAccess

/-- The number of entries. -/
def size (f : Fallback K V) : Nat := Backing.occupied f.nodes

/-- The node in a slot, if it has one. -/
def node? (f : Fallback K V) (slot : Backing.Handle) : Option (Node K V) := Backing.node? f.nodes slot

/-- The node in a slot that must have one. -/
def node (f : Fallback K V) (slot : Backing.Handle) : Checked (Node K V) :=
  match f.node? slot with
  | some n => .ok n
  | none => Corruption.vacantSlot.raise

/-- The fallback with another node in a slot. -/
def setNode (f : Fallback K V) (slot : Backing.Handle) (n : Node K V) : Fallback K V :=
  { f with nodes := Backing.fill f.nodes slot n }

/-- Says that `next` comes after `prev`, or first if `prev` is no slot. -/
def setNext (f : Fallback K V) (prev next : Option Backing.Handle) : Checked (Fallback K V) :=
  match prev with
  | none => .ok { f with first := next }
  | some slot => do
    let n ← f.node slot
    pure (f.setNode slot { n with next })

/-- Says that `prev` comes before `next`, or last if `next` is no slot. -/
def setPrev (f : Fallback K V) (next prev : Option Backing.Handle) : Checked (Fallback K V) :=
  match next with
  | none => .ok { f with last := prev }
  | some slot => do
    let n ← f.node slot
    pure (f.setNode slot { n with prev })

/-- Takes a slot out of the order. -/
def unlink (f : Fallback K V) (slot : Backing.Handle) : Checked (Fallback K V) := do
  let n ← f.node slot
  let f ← f.setNext n.prev n.next
  f.setPrev n.next n.prev

/-- Puts a slot that is not in the order at its end. -/
def linkLast (f : Fallback K V) (slot : Backing.Handle) : Checked (Fallback K V) := do
  let n ← f.node slot
  let old := f.last
  let f := f.setNode slot { n with prev := old, next := none }
  let f ← f.setNext old (some slot)
  pure { f with last := some slot }

/-- Counts a use of a slot: in the order of use it moves to the end, unless it is there. Tells whether it
    moved. -/
def touch (f : Fallback K V) (slot : Backing.Handle) : Checked (Bool × Fallback K V) :=
  if f.byAccess ∧ f.last ≠ some slot then do
    let f ← f.unlink slot
    let f ← f.linkLast slot
    pure (true, f)
  else .ok (false, f)

/-- Replaces the value in a slot. -/
def setValue (f : Fallback K V) (slot : Backing.Handle) (value : V) : Checked (Fallback K V) := do
  let n ← f.node slot
  pure (f.setNode slot { n with value })

/-- The first of these slots that holds the key. -/
def search [BEq K] (f : Fallback K V) (key : K) : List Backing.Handle → Checked (Option Backing.Handle)
  | [] => .ok none
  | slot :: rest => do
    let n ← f.node slot
    if n.key == key then pure (some slot) else f.search key rest

/-- The slot that holds a key. -/
def find [BEq K] (f : Fallback K V) (key : K) : Checked (Option Backing.Handle) :=
  f.search key (Backing.candidates f.index (f.digest key))

/-- Puts a new entry into a slot of its own, and files it. It is not in the order yet. -/
def enlist (f : Fallback K V) (key : K) (value : V) : Backing.Handle × Fallback K V :=
  let (slot, supply) := Backing.draw f.supply
  let hash := f.digest key
  let f := f.setNode slot ⟨key, value, hash, none, none⟩
  (slot, { f with supply, index := Backing.file f.index hash slot })

/-- Inserts a key, or replaces the value that it has; in that case tells the old value and whether the entry
    moved in the order. A key that is present keeps its stored form. -/
def insert [BEq K] (f : Fallback K V) (key : K) (value : V) :
    Checked (Option (V × Bool) × Fallback K V) := do
  match ← f.find key with
  | some slot =>
    let n ← f.node slot
    let f ← f.setValue slot value
    let (moved, f) ← f.touch slot
    pure (some (n.value, moved), f)
  | none =>
    let (slot, f) := f.enlist key value
    let f ← f.linkLast slot
    pure (none, f)

/-- Removes the entry in a slot. -/
def removeSlot (f : Fallback K V) (slot : Backing.Handle) : Checked ((K × V) × Fallback K V) := do
  let f ← f.unlink slot
  let n ← f.node slot
  let f := { f with nodes := Backing.vacate f.nodes slot, supply := Backing.release f.supply slot }
  match Backing.unfile f.index n.hash slot with
  | some index => pure ((n.key, n.value), { f with index })
  | none => Corruption.lostSlot.raise

/-- Removes a key. -/
def remove [BEq K] (f : Fallback K V) (key : K) : Checked (Option (K × V) × Fallback K V) := do
  match ← f.find key with
  | some slot =>
    let (pair, f) ← f.removeSlot slot
    pure (some pair, f)
  | none => pure (none, f)

/-- The slot after one. -/
def next (f : Fallback K V) (slot : Backing.Handle) : Checked (Option Backing.Handle) := do
  let n ← f.node slot
  pure n.next

/-- The slot before one. -/
def prev (f : Fallback K V) (slot : Backing.Handle) : Checked (Option Backing.Handle) := do
  let n ← f.node slot
  pure n.prev

/-- All slots in order. -/
def slots (f : Fallback K V) : Checked (List Backing.Handle) := walk .brokenOrder f.next f.size f.first

/-- The keys and values of the nodes from a slot on. Each node is removed when it is met, and tells which comes next. -/
def unthread : Nat → Option Backing.Handle → Backing.Nodes (Node K V) → Checked (List (K × V))
  | _, none, _ => .ok []
  | 0, some _, _ => Corruption.brokenOrder.raise
  | fuel + 1, some slot, nodes =>
    match Backing.node? nodes slot with
    | none => Corruption.brokenOrder.raise
    | some n => do
      let rest ← unthread fuel n.next (Backing.vacate nodes slot)
      pure ((n.key, n.value) :: rest)

/-- All keys and values in order. -/
def pairs (f : Fallback K V) : Checked (List (K × V)) := unthread f.size f.first f.nodes

/-- Takes a reference to the node in a slot. -/
def takeReference (slot : Backing.Handle) (nodes : Backing.Nodes (Node K V)) :
    Checked (Backing.Handle × Backing.Nodes (Node K V)) :=
  match Backing.node? nodes slot with
  | some _ => .ok (slot, Backing.vacate nodes slot)
  | none => Corruption.brokenOrder.raise

/-- References to all entries in order. -/
def references (f : Fallback K V) : Checked (List Backing.Handle) := do
  let slots ← f.slots
  gather takeReference slots f.nodes

/-- The fallback emptied in place. It keeps its hash function, and slots that were given out stay spent. -/
def cleared (f : Fallback K V) : Fallback K V :=
  { f with
    index := Backing.bare
    nodes := Backing.vacant
    supply := Backing.releaseAll f.supply
    first := none
    last := none }

/-- The fallback that takes the place of one whose entries are taken out: it has another hash function, and slots of
    its own, which may bear the names of slots that the old one gave out. -/
def renewed (f : Fallback K V) : Fallback K V := empty (f.draws.drop 1) f.byAccess

/-- Takes all entries out, in order, and leaves a new fallback. -/
def take (f : Fallback K V) : Checked (List (K × V) × Fallback K V) := do
  let pairs ← f.pairs
  pure (pairs, f.renewed)

/-- Makes sure that `more` entries can be filed beside those that are there. -/
def reserve (f : Fallback K V) (more : Nat) : Checked Unit :=
  if Backing.maxFiled < f.size + more then .error .indexOverflow else .ok ()

/-- Inserts keys with their values one after the other. -/
def insertAll [BEq K] : List (K × V) → Fallback K V → Checked (Fallback K V)
  | [], f => .ok f
  | (key, value) :: rest, f => do
    let (_, f) ← f.insert key value
    insertAll rest f

end Fallback

end DenseHash
