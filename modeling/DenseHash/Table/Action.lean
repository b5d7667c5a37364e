import DenseHash.Table.Insert
import DenseHash.Table.Removal
import DenseHash.Table.Traversal

/-!
# Actions on a table as data

What can be asked of a table on its own, as a value. The hashes are the caller's: the same key may come with
another hash the next time. `perform` says what an action does and answers, and a run of a table is a list of
actions.
-/

namespace DenseHash.Table

/-- An action on a table. -/
inductive Action (K V : Type) where
  | insert (hash : UInt32) (key : K) (value : V)
  | find (hash : UInt32) (key : K)
  | remove (hash : UInt32) (key : K)
  | removeAt (index : Nat)
  | touch (index : Nat)
  | setValue (index : Nat) (value : V)
  | reserve (more : Nat)
  /-- Rebuilds the table with `2 ^ log` buckets. -/
  | resize (log : Nat)
  | shrink
  | clear
  | take

/-- What an action answers. -/
inductive Report (K V : Type) where
  | done
  | inserted (outcome : Inserted V)
  | index (index : Option Nat)
  | pair (pair : Option (K × V))
  | moved (moved : Bool)
  | pairs (pairs : List (K × V))
deriving DecidableEq

variable {K V : Type}

/-- The outcome of a change that may find damage: then nothing changes. -/
def ofChecked {α : Type} (t : Table K V) (outcome : Checked (α × Table K V)) : Reply (Table K V) α :=
  match outcome with
  | .ok (a, t) => .ok t a
  | .error e => .fail t e

/-- Does an action. -/
def perform [BEq K] (action : Action K V) (t : Table K V) : Reply (Table K V) (Report K V) :=
  match action with
  | .insert hash key value => (t.insert hash key value).map .inserted
  | .find hash key => ⟨t, [], (t.find hash key).map .index⟩
  | .remove hash key => (t.ofChecked (t.remove hash key)).map .pair
  | .removeAt i => (t.ofChecked (t.removeAt i)).map fun pair => .pair (some pair)
  | .touch i => (t.ofChecked (t.touch i)).map .moved
  | .setValue i value => (t.ofChecked ((t.setValue i value).map fun t => ((), t))).map fun _ => .done
  | .reserve more => (t.reserve more).map fun _ => .done
  | .resize log => (t.resize (1 <<< log)).map fun _ => .done
  | .shrink => t.shrink.map fun _ => .done
  | .clear => .ok t.cleared .done
  | .take => (t.ofChecked t.take).map .pairs

/-- Does actions one after the other, up to the first fault, and tells their answers. -/
def performAll [BEq K] : List (Action K V) → Table K V → Reply (Table K V) (List (Report K V))
  | [], t => .ok t []
  | action :: actions, t =>
    (t.perform action).andThen fun report t => (performAll actions t).map fun reports => report :: reports

end DenseHash.Table
