import DenseHash.Fault
import DenseHash.Link
import DenseHash.Packed

/-!
# A thread through packed entries

A thread visits entries in an order of its own. Each entry has two links, to the entry before it and to the
entry after it, and the thread itself has links to the first and the last one. Removing an entry renames
the last index to the one that became free, and the thread follows.

The two links of an entry stand together in one record, `Neighbours`, and not in two arrays side by side. So there
are as many links to the entry before as to the entry after by construction, and only the number of entries is left
for an invariant to speak of.

`setSucc p s` says "after `p` comes `s`", where `p` may be no entry: then `s` is the first one. `setPred`
says the same from the side of `s`. Linking and unlinking are two such sentences each.
-/

namespace DenseHash

/-- The entries before and after one entry. -/
structure Neighbours where
  pred : OrderLink
  succ : OrderLink
deriving DecidableEq

/-- A doubly linked list of the indices below `nodes.size`. -/
structure Thread where
  nodes : Array Neighbours
  first : OrderLink
  last : OrderLink
deriving DecidableEq

namespace Thread

/-- The thread through no entries. -/
def empty : Thread := ⟨#[], .none, .none⟩

/-- The neighbours of the entry at index `i`. -/
def node (t : Thread) (i : Nat) : Checked Neighbours :=
  match t.nodes[i]? with
  | some n => .ok n
  | none => (Corruption.outOfRange t.nodes.size i).raise

/-- Says that `s` comes after `p`, or first if `p` is no entry. -/
def setSucc (t : Thread) (p s : OrderLink) : Checked Thread :=
  match p.index? with
  | none => .ok { t with first := s }
  | some i =>
    if i < t.nodes.size then .ok { t with nodes := t.nodes.modify i fun n => { n with succ := s } }
    else (Corruption.outOfRange t.nodes.size i).raise

/-- Says that `p` comes before `s`, or last if `s` is no entry. -/
def setPred (t : Thread) (s p : OrderLink) : Checked Thread :=
  match s.index? with
  | none => .ok { t with last := p }
  | some i =>
    if i < t.nodes.size then .ok { t with nodes := t.nodes.modify i fun n => { n with pred := p } }
    else (Corruption.outOfRange t.nodes.size i).raise

/-- Takes the entry at index `i` off the thread: its neighbours become neighbours of each other. -/
def unlink (t : Thread) (i : Nat) : Checked Thread := do
  let n ← t.node i
  let t ← t.setSucc n.pred n.succ
  t.setPred n.succ n.pred

/-- Puts the entry at index `i`, which is on no thread, at the end. -/
def linkLast (t : Thread) (i : Nat) : Checked Thread := do
  let l : OrderLink := .ofIndex i
  let _ ← t.node i
  let old := t.last
  let t := { t with nodes := t.nodes.setIfInBounds i ⟨old, .none⟩ }
  let t ← t.setSucc old l
  pure { t with last := l }

/-- Adds the next index at the end. -/
def push (t : Thread) : Checked Thread :=
  let i := t.nodes.size
  { t with nodes := t.nodes.push ⟨.none, .none⟩ : Thread }.linkLast i

/-- Tells the neighbours of the entry at index `i` that this is its index. -/
def relink (t : Thread) (i : Nat) : Checked Thread := do
  let n ← t.node i
  let t ← t.setSucc n.pred (.ofIndex i)
  t.setPred n.succ (.ofIndex i)

/-- Removes index `i`; index `last`, the greatest one, is renamed to `i`. -/
def erase (t : Thread) (i last : Nat) : Checked Thread := do
  let t ← t.unlink i
  let t := { t with nodes := removePacked t.nodes i }
  if i = last then pure t else t.relink i

end Thread

end DenseHash
