import DenseHash.Table.Basic

/-!
# Bucket chains

`chain` lists the indices of a bucket's entries, found by walking from the bucket's head from link to link.

Everything that leads to an entry is an *anchor*: the head of its bucket, or the entry before it. To take an
entry off its chain, or to give it another index, is to redirect its anchor.
-/

namespace DenseHash

/-- A place that holds a link to an entry. -/
inductive Anchor where
  /-- The head of a bucket. -/
  | head (bucket : Nat)
  /-- The entry at an index. -/
  | after (index : Nat)
deriving DecidableEq

namespace Anchor

/-- The first index of a chain that `found` accepts, with the place that leads to it. The chain's first index
    hangs from `anchor`. -/
def locate (found : Nat → Bool) : Anchor → List Nat → Option (Anchor × Nat)
  | _, [] => none
  | anchor, i :: rest => if found i then some (anchor, i) else locate found (.after i) rest

end Anchor

namespace Table

variable {K V : Type}

/-- The index after `i` on its chain. -/
def successor (t : Table K V) (i : Nat) : Checked (Option Nat) := do
  let e ← t.entry i
  pure e.next.index?

/-- The indices on a chain from a link on. -/
def follow (t : Table K V) (link : ChainLink) : Checked (List Nat) :=
  walk .brokenChain t.successor t.size link.index?

/-- The indices of a bucket's entries, in chain order. -/
def chain (t : Table K V) (bucket : Nat) : Checked (List Nat) := do
  let link ← t.headOf bucket
  t.follow link

/-- Whether the entry at index `i` has this hash and this key. -/
def holds [BEq K] (t : Table K V) (hash : UInt32) (key : K) (i : Nat) : Bool :=
  match t.entries[i]? with
  | some e => e.hash == hash && e.key == key
  | none => false

/-- The index of the entry with this hash and this key. -/
def find [BEq K] (t : Table K V) (hash : UInt32) (key : K) : Checked (Option Nat) :=
  if t.buckets = 0 then .ok none
  else do
    let bucket ← t.bucketOf hash
    let chain ← t.chain bucket
    pure (chain.find? (t.holds hash key))

/-- The place that leads to the entry at index `i`. -/
def anchorOf (t : Table K V) (i : Nat) : Checked Anchor := do
  let e ← t.entry i
  let bucket ← t.bucketOf e.hash
  let chain ← t.chain bucket
  match Anchor.locate (· == i) (.head bucket) chain with
  | some (anchor, _) => pure anchor
  | none => Corruption.brokenChain.raise

/-- Lets an anchor lead elsewhere. -/
def redirect (t : Table K V) (anchor : Anchor) (link : ChainLink) : Table K V :=
  match anchor with
  | .head bucket => { t with heads := t.heads.setIfInBounds bucket (.ofLink link) }
  | .after i => { t with entries := t.entries.modify i fun e => { e with next := link } }

/-- The length of the longest chain, zero if there is no bucket. -/
def longestChain (t : Table K V) : Checked Nat :=
  t.heads.foldlM (fun longest h => do
    let chain ← t.follow h.toLink
    pure (max longest chain.length)) 0

end Table

end DenseHash
