import DenseHash.Fallback.Basic
import DenseHash.Table.Insert
import DenseHash.Table.Removal
import DenseHash.Table.Traversal

/-!
# Either form of storage

A container's entries are in a table or, once the flood guard has given up on it, in a fallback. A *slot*
names an entry in either form: an index of the table, or a slot of the fallback. A slot of one form means
nothing to the other.
-/

namespace DenseHash

variable [Backing]

/-- Where an entry is stored. -/
inductive Slot where
  | index (i : Nat)
  | node (slot : Backing.Handle)
deriving DecidableEq

/-- The storage of a container. -/
inductive Store (K V : Type) where
  | table (t : Table K V)
  | fallback (f : Fallback K V)

namespace Store

variable {K V : Type}

/-- The number of entries. -/
def size : Store K V → Nat
  | .table t => t.size
  | .fallback f => f.size

/-- Whether the entries are in the fallback. -/
def isFallback : Store K V → Bool
  | .table _ => false
  | .fallback _ => true

/-- Whether the last entry takes the place of one that is removed. -/
def isPacked : Store K V → Bool
  | .table t => t.order.isDense
  | .fallback _ => false

/-- Whether a use moves an entry to the end. -/
def byAccess : Store K V → Bool
  | .table t => t.order.byAccess
  | .fallback f => f.byAccess

/-- The first slot in traversal order. -/
def first : Store K V → Option Slot
  | .table t => t.first.map .index
  | .fallback f => f.first.map .node

/-- The last slot in traversal order. -/
def last : Store K V → Option Slot
  | .table t => t.last.map .index
  | .fallback f => f.last.map .node

/-- The slot after one. -/
def next : Store K V → Slot → Checked (Option Slot)
  | .table t, .index i => do
    let i ← t.next i
    pure (i.map .index)
  | .fallback f, .node s => do
    let s ← f.next s
    pure (s.map .node)
  | _, _ => Corruption.foreignSlot.raise

/-- The slot before one. -/
def prev : Store K V → Slot → Checked (Option Slot)
  | .table t, .index i => do
    let i ← t.prev i
    pure (i.map .index)
  | .fallback f, .node s => do
    let s ← f.prev s
    pure (s.map .node)
  | _, _ => Corruption.foreignSlot.raise

/-- The key and value in a slot. -/
def pair : Store K V → Slot → Checked (K × V)
  | .table t, .index i => do
    let e ← t.entry i
    pure (e.key, e.value)
  | .fallback f, .node s => do
    let n ← f.node s
    pure (n.key, n.value)
  | _, _ => Corruption.foreignSlot.raise

/-- Replaces the value in a slot. -/
def setValue : Store K V → Slot → V → Checked (Store K V)
  | .table t, .index i, value => do
    let t ← t.setValue i value
    pure (.table t)
  | .fallback f, .node s, value => do
    let f ← f.setValue s value
    pure (.fallback f)
  | _, _, _ => Corruption.foreignSlot.raise

/-- Counts a use of a slot; tells whether its entry moved in the order. -/
def touch : Store K V → Slot → Checked (Bool × Store K V)
  | .table t, .index i => do
    let (moved, t) ← t.touch i
    pure (moved, .table t)
  | .fallback f, .node s => do
    let (moved, f) ← f.touch s
    pure (moved, .fallback f)
  | _, _ => Corruption.foreignSlot.raise

/-- The index that an upcoming slot of a table stands for. -/
def upcomingIndex : Option Slot → Checked (Option Nat)
  | none => .ok none
  | some (.index i) => .ok (some i)
  | some (.node _) => Corruption.foreignSlot.raise

/-- Removes the entry in a slot. Tells where a traversal that would have gone on at `upcoming` has to go on
    now. -/
def removeSlot : Store K V → Slot → Option Slot → Checked (((K × V) × Option Slot) × Store K V)
  | .table t, .index i, upcoming => do
    if t.size = 0 then Corruption.noLast.raise
    else
      let upcoming ← upcomingIndex upcoming
      let resume := t.order.resume upcoming i (t.size - 1)
      let (pair, t) ← t.removeAt i
      pure ((pair, resume.map .index), .table t)
  | .fallback f, .node s, upcoming => do
    let (pair, f) ← f.removeSlot s
    pure ((pair, upcoming), .fallback f)
  | _, _, _ => Corruption.foreignSlot.raise

/-- All keys and values in traversal order. -/
def pairs : Store K V → Checked (List (K × V))
  | .table t => t.pairs
  | .fallback f => f.pairs

/-- References to all entries in traversal order, each known by its slot. -/
def references : Store K V → Checked (List Slot)
  | .table t => do
    let indices ← t.references
    pure (indices.map .index)
  | .fallback f => do
    let slots ← f.references
    pure (slots.map .node)

/-- The same storage without entries: the table keeps its buckets, the fallback its order. -/
def cleared : Store K V → Store K V
  | .table t => .table t.cleared
  | .fallback f => .fallback f.cleared

/-- The storage that takes the place of one whose entries are taken out: the table keeps its buckets, a fallback gives
    way to a new one. -/
def renewed : Store K V → Store K V
  | .table t => .table t.cleared
  | .fallback f => .fallback f.renewed

/-- Takes all entries out, in traversal order. -/
def take (s : Store K V) : Checked (List (K × V) × Store K V) := do
  let pairs ← s.pairs
  pure (pairs, s.renewed)

/-- All slots in traversal order: the first one, and those that come next. -/
def slots (s : Store K V) : Checked (List Slot) := walk .brokenOrder s.next s.size s.first

/-- What is met in traversal order. -/
def inOrder (s : Store K V) : Checked (List (K × V)) := do
  let slots ← s.slots
  slots.mapM s.pair

end Store

end DenseHash
