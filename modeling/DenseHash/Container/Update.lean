import DenseHash.Container.Guard

/-!
# Changing a container

Every operation that changes what a traversal would meet, or where it would meet it, counts one change of
structure: a new key, a removal, a move in the order of use, emptying, the move to the fallback. Replacing a
value changes nothing of the kind, and neither does another number of buckets.

The room for a bulk load is reckoned in 64-bit words with overflow checked (`roomFor`): a sum beyond them is the
fault `wordOverflow`. What a build without that check does, which goes on with the wrapped word, is not described
here.
-/

namespace DenseHash.Container

variable [Backing] {K V : Type}

/-- The outcome of an operation on the store that may be damaged: then nothing changes. -/
def ofStore {α : Type} (c : Container K V) (outcome : Checked (α × Store K V)) : Reply (Container K V) α :=
  match outcome with
  | .ok (a, store) => .ok { c with store } a
  | .error e => .fail c e

/-! ## Single entries -/

/-- Counts a use of a slot. -/
def touch (c : Container K V) (slot : Slot) : Reply (Container K V) Unit :=
  (c.ofStore (c.store.touch slot)).andThen fun moved c => .ok (if moved then c.bump else c) ()

/-- Removes the entry in a slot. Tells where a traversal that would have gone on at `upcoming` has to go on
    now. -/
def removeSlot (c : Container K V) (slot : Slot) (upcoming : Option Slot) :
    Reply (Container K V) ((K × V) × Option Slot) :=
  (c.ofStore (c.store.removeSlot slot upcoming)).andThen fun removed c => .ok c.bump removed

/-- Removes the first entry in traversal order. -/
def popFirst (c : Container K V) : Reply (Container K V) (Option (K × V)) :=
  match c.store.first with
  | some slot => (c.removeSlot slot none).map fun removed => some removed.1
  | none => .ok c none

/-- Removes the last entry in traversal order. -/
def popLast (c : Container K V) : Reply (Container K V) (Option (K × V)) :=
  match c.store.last with
  | some slot => (c.removeSlot slot none).map fun removed => some removed.1
  | none => .ok c none

section Keyed

variable [BEq K]

/-- Inserts a key, or replaces the value that it has, and tells the old value. A key that is present keeps its
    stored form, and the insertion counts as a use of it. A chain that a new key makes too long, and a table
    that has been rebuilt with a chain too long, set off the flood guard. -/
def insert (c : Container K V) (key : K) (value : V) : Reply (Container K V) (Option V) :=
  match c.store with
  | .table t =>
    let inserted := (t.insert (c.storedHash key) key value).within fun t => { c with store := .table t }
    inserted.andThen fun outcome c =>
      match outcome with
      | .updated old moved => .ok (if moved then c.bump else c) (some old)
      | .added chain resized =>
        let c := c.bump
        let guarded :=
          if c.maxChain < chain then c.flood chain else if resized then c.inspect else .ok c ()
        guarded.map fun _ => none
  | .fallback f =>
    match f.insert key value with
    | .ok (some (old, moved), f) =>
      let c := { c with store := .fallback f }
      .ok (if moved then c.bump else c) (some old)
    | .ok (none, f) => .ok { c with store := .fallback f }.bump none
    | .error e => .fail c e

/-- The value of a key; the lookup counts as a use. -/
def get (c : Container K V) (key : K) : Reply (Container K V) (Option V) :=
  match c.find key with
  | .ok (some slot) => (c.touch slot).andThen fun _ c =>
    match c.store.pair slot with
    | .ok (_, value) => .ok c (some value)
    | .error e => .fail c e
  | .ok none => .ok c none
  | .error e => .fail c e

/-- Changes the value of a key and tells the new one; that counts as a use. -/
def modify (c : Container K V) (key : K) (g : V → V) : Reply (Container K V) (Option V) :=
  match c.find key with
  | .ok (some slot) => (c.touch slot).andThen fun _ c =>
    let changed : Checked (Option V × Store K V) := do
      let (_, value) ← c.store.pair slot
      let store ← c.store.setValue slot (g value)
      pure (some (g value), store)
    c.ofStore changed
  | .ok none => .ok c none
  | .error e => .fail c e

/-- Removes a key and tells its stored form and its value. -/
def remove (c : Container K V) (key : K) : Reply (Container K V) (Option (K × V)) :=
  let outcome : Checked (Option (K × V) × Store K V) :=
    match c.store with
    | .table t => do
      let (pair, t) ← t.remove (c.storedHash key) key
      pure (pair, .table t)
    | .fallback f => do
      let (pair, f) ← f.remove key
      pure (pair, .fallback f)
  (c.ofStore outcome).andThen fun pair c => .ok (if pair.isSome then c.bump else c) pair

/-! ## Room -/

/-- Makes room for more entries. A table that was rebuilt for it is inspected. -/
def reserve (c : Container K V) (more : UInt64) : Reply (Container K V) Unit :=
  match c.store with
  | .fallback f => ⟨c, [], f.reserve more.toNat⟩
  | .table t =>
    let reserved := t.reserve more.toNat
    let rebuilt := t.buckets ≠ 0 ∧ reserved.state.buckets ≠ t.buckets
    (reserved.within fun t => { c with store := .table t }).andThen fun _ c =>
      if rebuilt then c.inspect else .ok c ()

/-- Gives up room that the entries do not need. Fewer buckets mean longer chains, so the table is
    inspected. -/
def shrink (c : Container K V) : Reply (Container K V) Unit :=
  match c.store with
  | .fallback _ => .ok c ()
  | .table t => (t.shrink.within fun t => { c with store := .table t }).andThen fun _ c => c.inspect

/-! ## All entries -/

/-- The room to make before `hint` or more keys are inserted: all of it in an empty container, half of it,
    rounded up, in another one, where some of the keys may be present. -/
def roomFor (c : Container K V) (hint : UInt64) : Checked UInt64 :=
  if c.size = 0 then .ok hint
  else if hint.toNat + 1 < wordValues then .ok ((hint + 1) / 2)
  else .error (.wordOverflow .addition)

/-- Inserts keys with their values one after the other. The hint is a lower bound for their number that the
    caller believes in; it is used to make room and may be wrong. -/
def extend (c : Container K V) (hint : UInt64) (pairs : List (K × V)) : Reply (Container K V) Unit :=
  match c.roomFor hint with
  | .error e => .fail c e
  | .ok room =>
    (c.reserve room).andThen fun _ c =>
      (Reply.forEach (fun (key, value) c => (c.insert key value).map fun _ => ()) pairs c).andThen
        fun _ c => c.inspect

end Keyed

/-- Removes all entries. A table keeps its buckets. -/
def clear (c : Container K V) : Container K V := { c with store := c.store.cleared }.bump

/-- Takes all entries out, in traversal order. A table keeps its buckets. -/
def drain (c : Container K V) : Reply (Container K V) (List (K × V)) :=
  (c.ofStore c.store.take).andThen fun pairs c => .ok c.bump pairs

/-- Retains from a slot on, for at most `fuel` entries. -/
def retainFrom {σ : Type} (keep : σ → K → V → σ × V × Bool) :
    Nat → Option Slot → σ → Container K V → Reply (Container K V) σ
  | _, none, state, c => .ok c state
  | 0, some _, _, c => .fail c (.corrupt .brokenOrder)
  | fuel + 1, some slot, state, c =>
    let visited : Checked ((Option Slot × σ × Bool) × Store K V) := do
      let upcoming ← c.store.next slot
      let (key, value) ← c.store.pair slot
      let (state, value, stays) := keep state key value
      let store ← c.store.setValue slot value
      pure ((upcoming, state, stays), store)
    (c.ofStore visited).andThen fun (upcoming, state, stays) c =>
      if stays then retainFrom keep fuel upcoming state c
      else
        (c.removeSlot slot upcoming).andThen fun (_, resume) c => retainFrom keep fuel resume state c

/-- Visits every entry once, in traversal order. The visitor carries a state along, may change the value, and
    says whether the entry stays. -/
def retain {σ : Type} (c : Container K V) (keep : σ → K → V → σ × V × Bool) (state : σ) :
    Reply (Container K V) σ :=
  retainFrom keep c.size c.store.first state c

end DenseHash.Container
