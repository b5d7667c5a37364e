import DenseHash.Cursor.Basic
import DenseHash.Proofs.Container.Apply

/-!
# Many containers and many cursors

An arena holds containers and cursors, and every step of it acts on any of them: containers are made, copied and
operated on, cursors are made, copied, stepped and told to remove, each with whichever container. There is no end to
the cursors, but there are only `2 ^ 64` identities, and no more containers are made than that.

With each cursor the arena notes what an onlooker knows about it: the container that made it, how many entries it
has behind it, the key that it returned last and has not removed, and how many changes of structure there were
that it did not make itself. The notes are not used by any step. A copy of a cursor inherits them.
-/

namespace DenseHash

variable [Backing] {K V : Type}

/-- The changes of structure that an operation makes, the move to the fallback included. -/
def Container.changesBy [BEq K] (op : Operation K V) (c : Container K V) : Nat :=
  match c.listing with
  | .ok l => l.changes op + c.floods (c.apply op).state
  | .error _ => 0

/-- An operation counts the changes that it makes to the list of entries, and one more if it moves the entries into
    the fallback. -/
theorem Container.Shows.changesBy_eq [BEq K] {c : Container K V} {slots : List Slot} {ps : List (K × V)}
    (h : c.Shows slots ps) (op : Operation K V) :
    c.changesBy op = (c.listingOf ps).changes op + c.floods (c.apply op).state := by
  rw [Container.changesBy, h.listing_eq]

/-- A cursor with what an onlooker knows about it. -/
structure Watched (K : Type) where
  cursor : Cursor
  /-- The place of the container that made the cursor. -/
  home : Nat
  /-- The number of entries behind the cursor. -/
  position : Nat
  /-- The key that the cursor returned last, unless it removed it. -/
  last : Option K
  /-- The changes of structure since the cursor was made, other than its own removals. -/
  missed : Nat

namespace Watched

/-- The structure of the container at place `i` was changed `n` times. -/
def miss (i n : Nat) (w : Watched K) : Watched K :=
  if w.home = i then { w with missed := w.missed + n } else w

/-- The cursor was stepped, with this outcome. -/
def stepped (outcome : Except CursorError (K × V)) (cur : Cursor) (w : Watched K) : Watched K :=
  match outcome with
  | .ok (key, _) => { w with cursor := cur, position := w.position + 1, last := some key }
  | .error _ => { w with cursor := cur }

/-- The cursor was told to remove, with this outcome. -/
def removed (outcome : Except CursorError (K × V)) (cur : Cursor) (w : Watched K) : Watched K :=
  match outcome with
  | .ok _ => { w with cursor := cur, position := w.position - 1, last := none }
  | .error _ => { w with cursor := cur }

end Watched

/-- The changes of structure that a removal through a cursor makes. -/
def removals (outcome : Except CursorError (K × V)) : Nat :=
  match outcome with
  | .ok _ => 1
  | .error _ => 0

/-- Containers and cursors. -/
structure Arena (K V : Type) where
  containers : List (Container K V)
  cursors : List (Watched K)

namespace Arena

/-- The containers that operations are done on have hash functions that respect the equality of keys, and a
    container is made if there is an identity left that no other has. -/
inductive Step [BEq K] : Arena K V → Arena K V → Prop where
  | make {a : Arena K V} {settings : Settings} {order : Order} {hashing : Hashing K} {c : Container K V}
      (few : a.containers.length < wordValues) (fresh : order.Fresh) (respects : hashing.Respects)
      (made : Container.make settings order hashing a.containers.length = .ok c) :
      Step a { a with containers := a.containers ++ [c] }
  | copy {a : Arena K V} {i : Nat} {c : Container K V} (few : a.containers.length < wordValues)
      (container : a.containers[i]? = some c) :
      Step a { a with containers := a.containers ++ [c.copy a.containers.length] }
  | apply {a : Arena K V} {i : Nat} {c : Container K V} {op : Operation K V} {answer : Answer K V}
      (container : a.containers[i]? = some c) (returned : (c.apply op).result = .ok answer) :
      Step a { containers := a.containers.set i (c.apply op).state
               cursors := a.cursors.map (Watched.miss i (c.changesBy op)) }
  | cursor {a : Arena K V} {i : Nat} {c : Container K V} (container : a.containers[i]? = some c) :
      Step a { a with cursors := a.cursors ++ [⟨.start c, i, 0, none, 0⟩] }
  | duplicate {a : Arena K V} {j : Nat} {w : Watched K} (watched : a.cursors[j]? = some w) :
      Step a { a with cursors := a.cursors ++ [w] }
  | next {a : Arena K V} {i j : Nat} {c : Container K V} {w : Watched K}
      {outcome : Except CursorError (K × V)} {cur : Cursor} (container : a.containers[i]? = some c)
      (watched : a.cursors[j]? = some w) (returned : w.cursor.next c = .ok (outcome, cur)) :
      Step a { a with cursors := a.cursors.set j (w.stepped outcome cur) }
  | remove {a : Arena K V} {i j : Nat} {c : Container K V} {w : Watched K}
      {outcome : Except CursorError (K × V)} (container : a.containers[i]? = some c)
      (watched : a.cursors[j]? = some w) (returned : (w.cursor.remove c).result = .ok outcome) :
      Step a { containers := a.containers.set i (w.cursor.remove c).state.1
               cursors := (a.cursors.map (Watched.miss i (removals outcome))).set j
                 (w.removed outcome (w.cursor.remove c).state.2) }

/-- What steps lead to from nothing. -/
inductive Reachable [BEq K] : Arena K V → Prop where
  | empty : Reachable ⟨[], []⟩
  | step {a a' : Arena K V} (reachable : Reachable a) (step : Step a a') : Reachable a'

end Arena

end DenseHash
