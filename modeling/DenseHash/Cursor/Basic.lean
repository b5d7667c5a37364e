import DenseHash.Container.Update

/-!
# Cursors

A cursor is a position in a container's traversal that does not hold on to the container: every step is given
the container again. In between the container may change, so a cursor remembers which container made it and
the generation that it saw last, and refuses to go on when either differs. The one change that it allows is
its own: `remove` takes out the entry that the cursor has just returned and goes on behind it.

A cursor that has met a change stays poisoned and repeats its error. A step on another container changes
nothing.
-/

namespace DenseHash

/-- Why a cursor's step was refused. -/
inductive CursorError where
  /-- No entry is left. -/
  | exhausted
  /-- The container has changed: another generation was expected than was found. -/
  | modified (expected found : UInt64)
  /-- The cursor was made by another container. -/
  | wrongContainer
  /-- No entry was returned yet, or it has been removed. -/
  | noCurrent
deriving DecidableEq

/-- The text of a refusal. -/
def CursorError.message : CursorError → String
  | .exhausted => "iterator exhausted"
  | .modified expected found =>
    "container modified during iteration (expected generation " ++ Nat.repr expected.toNat ++ ", found " ++
      Nat.repr found.toNat ++ ")"
  | .wrongContainer => "cursor used with a container that did not create it"
  | .noCurrent => "no current element to remove"

variable [Backing]

/-- A position in a traversal. -/
structure Cursor where
  /-- The container that made the cursor. -/
  owner : OwnerId
  /-- The generation that the container must have. -/
  expected : UInt64
  /-- The entry that the next step returns. -/
  upcoming : Option Slot
  /-- The entry that was returned last, if it is still there. -/
  current : Option Slot
  /-- The change that the cursor has met. -/
  poison : Option CursorError
deriving DecidableEq

namespace Cursor

variable {K V : Type}

/-- A cursor before the first entry. -/
def start (c : Container K V) : Cursor :=
  { owner := c.owner, expected := c.generation, upcoming := c.store.first, current := none, poison := none }

/-- Whether another entry is to come, as far as the cursor knows. -/
def hasNext (cur : Cursor) : Bool := cur.poison.isNone && cur.upcoming.isSome

/-- Why this container is refused, if it is, and the cursor after finding out. -/
def check (cur : Cursor) (c : Container K V) : Option CursorError × Cursor :=
  if c.owner ≠ cur.owner then (some .wrongContainer, cur)
  else if cur.poison.isSome then (cur.poison, cur)
  else if c.generation ≠ cur.expected then
    let e := CursorError.modified cur.expected c.generation
    (some e, { cur with poison := some e })
  else (none, cur)

/-- Returns the next entry. -/
def next (cur : Cursor) (c : Container K V) : Checked (Except CursorError (K × V) × Cursor) :=
  match cur.check c with
  | (some e, cur) => .ok (.error e, cur)
  | (none, cur) =>
    match cur.upcoming with
    | none => .ok (.error .exhausted, cur)
    | some slot => do
      let upcoming ← c.store.next slot
      let pair ← c.store.pair slot
      pure (.ok pair, { cur with upcoming, current := some slot })

/-- Removes the entry that was returned last. The state is the container with the cursor. -/
def remove (cur : Cursor) (c : Container K V) :
    Reply (Container K V × Cursor) (Except CursorError (K × V)) :=
  match cur.check c with
  | (some e, cur) => .ok (c, cur) (.error e)
  | (none, cur) =>
    match cur.current with
    | none => .ok (c, cur) (.error .noCurrent)
    | some slot =>
      let cur := { cur with current := none }
      ((c.removeSlot slot cur.upcoming).within fun c => (c, cur)).andThen
        fun (pair, resume) (c, cur) =>
          .ok (c, { cur with upcoming := resume, expected := c.generation }) (.ok pair)

end Cursor

end DenseHash
