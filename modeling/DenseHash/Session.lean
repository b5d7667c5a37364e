import DenseHash.Cursor.Basic
import DenseHash.Equality
import DenseHash.Operation
import DenseHash.Render

/-!
# Sessions

What a caller does with containers and cursors, as data. A session starts with one empty container. Copies of
containers, cursors and copies of cursors are added as they are asked for, and each is named by its place.

* **`Question`** is what can be asked of one container that leaves it as it is, beside the operations.
* **`Command`** is one thing that a caller does, and `Session.step` says what comes of it.

A command that names no container, or no cursor, does nothing.
-/

namespace DenseHash

/-- Something to be asked of a container. -/
inductive Question (K V : Type) where
  | size
  | capacity
  /-- Whether the flood guard has stepped in. -/
  | isFallback
  /-- The value of a key that must be present. -/
  | valueOf (key : K)
  | mapText (keyText : K → String) (valueText : V → String) (long : Bool)
  | setText (keyText : K → String) (long : Bool)

/-- Something that a caller does. -/
inductive Command (K V : Type) where
  | apply (container : Nat) (op : Operation K V)
  | ask (container : Nat) (question : Question K V)
  /-- Compares two containers: as sequences, or as finite maps. -/
  | compare (left right : Nat) (asSequences : Bool)
  | copy (container : Nat)
  | cursor (container : Nat)
  | copyCursor (cursor : Nat)
  | hasNext (cursor : Nat)
  | next (container cursor : Nat)
  | remove (container cursor : Nat)

/-- What a caller is told. -/
inductive Response (K V : Type) where
  /-- There is no such container, or no such cursor. -/
  | absent
  | done
  | answer (answer : Answer K V)
  | size (size : Nat)
  | capacity (capacity : Option Nat)
  | flag (holds : Bool)
  | value (value : V)
  | text (text : String)
  | entry (pair : K × V)
  | refused (error : CursorError)
deriving DecidableEq

/-- The response to a step of a cursor. -/
def Response.ofStep {K V : Type} : Except CursorError (K × V) → Response K V
  | .ok pair => .entry pair
  | .error e => .refused e

variable [Backing]

/-- Containers and cursors, each in the order in which they were made. -/
structure Session (K V : Type) where
  containers : List (Container K V)
  cursors : List Cursor

section

variable {K V : Type} [BEq K] [BEq V]

/-- What a container says to a question. -/
def Container.ask (c : Container K V) (question : Question K V) : Checked (Response K V) :=
  match question with
  | .size => .ok (.size c.size)
  | .capacity => .ok (.capacity c.capacity?)
  | .isFallback => .ok (.flag c.isFallback)
  | .valueOf key => (c.valueOf key).map .value
  | .mapText keyText valueText long => (c.mapText keyText valueText long).map .text
  | .setText keyText long => (c.setText keyText long).map .text

/-- Whether two containers are equal, in one sense or the other. -/
def Container.same (c d : Container K V) (asSequences : Bool) : Checked Bool :=
  if asSequences then c.sameSequence d else c.sameMap d

namespace Session

/-- A session with one container that was just made. -/
def start (settings : Settings) (order : Order) (hashing : Hashing K) : Except SettingsError (Session K V) := do
  let c ← Container.make settings order hashing 0
  pure ⟨[c], []⟩

/-- Goes on with a container, if there is one at that place. -/
def withContainer (s : Session K V) (i : Nat)
    (act : Container K V → Reply (Session K V) (Response K V)) : Reply (Session K V) (Response K V) :=
  match s.containers[i]? with
  | some c => act c
  | none => .ok s .absent

/-- Goes on with a cursor, if there is one at that place. -/
def withCursor (s : Session K V) (j : Nat)
    (act : Cursor → Reply (Session K V) (Response K V)) : Reply (Session K V) (Response K V) :=
  match s.cursors[j]? with
  | some cur => act cur
  | none => .ok s .absent

/-- Tells what was found out, and changes nothing. -/
def tell (s : Session K V) (outcome : Checked (Response K V)) : Reply (Session K V) (Response K V) :=
  ⟨s, [], outcome⟩

/-- Does what a caller asks for. -/
def step (s : Session K V) : Command K V → Reply (Session K V) (Response K V)
  | .apply i op => s.withContainer i fun c =>
    ((c.apply op).within fun c => { s with containers := s.containers.set i c }).map .answer
  | .ask i question => s.withContainer i fun c => s.tell (c.ask question)
  | .compare i j asSequences => s.withContainer i fun c => s.withContainer j fun d =>
    s.tell ((c.same d asSequences).map .flag)
  | .copy i => s.withContainer i fun c =>
    .ok { s with containers := s.containers ++ [c.copy s.containers.length] } .done
  | .cursor i => s.withContainer i fun c => .ok { s with cursors := s.cursors ++ [.start c] } .done
  | .copyCursor j => s.withCursor j fun cur => .ok { s with cursors := s.cursors ++ [cur] } .done
  | .hasNext j => s.withCursor j fun cur => .ok s (.flag cur.hasNext)
  | .next i j => s.withContainer i fun c => s.withCursor j fun cur =>
    match cur.next c with
    | .ok (outcome, cur) => .ok { s with cursors := s.cursors.set j cur } (.ofStep outcome)
    | .error e => .fail s e
  | .remove i j => s.withContainer i fun c => s.withCursor j fun cur =>
    ((cur.remove c).within fun (c, cur) => ⟨s.containers.set i c, s.cursors.set j cur⟩).map .ofStep

/-- Does one thing after the other, up to the first fault, and tells the responses. -/
def run : List (Command K V) → Session K V → Reply (Session K V) (List (Response K V))
  | [], s => .ok s []
  | command :: commands, s =>
    (s.step command).andThen fun response s => (run commands s).map fun responses => response :: responses

end Session

end

end DenseHash
