import DenseHash.Fallback.Basic
import DenseHash.Reply

/-!
# Actions on a fallback as data

What can be asked of a fallback on its own, as a value. `perform` says what an action does and answers, and a run of a
fallback is a list of actions. A fallback whose entries are taken out gives way to a new one, so later actions may name
slots of either.
-/

namespace DenseHash.Fallback

variable [Backing]

/-- An action on a fallback. -/
inductive Action (K V : Type) where
  | insert (key : K) (value : V)
  | find (key : K)
  | touch (slot : Backing.Handle)
  | remove (key : K)
  | removeSlot (slot : Backing.Handle)
  /-- Writes through references to all entries. -/
  | update (change : K → V → V)
  | reserve (more : Nat)
  | shrink
  | clear
  /-- Takes all entries out. A new fallback is left. -/
  | take

/-- What an action answers. -/
inductive Report (K V : Type) where
  | done
  /-- The value that was replaced, if one was, and whether its entry moved. -/
  | inserted (old : Option (V × Bool))
  | slot (slot : Option Backing.Handle)
  | moved (moved : Bool)
  | pair (pair : Option (K × V))
  | pairs (pairs : List (K × V))
deriving DecidableEq

variable {K V : Type}

/-- Writes to slots one after the other. Tells what they held. -/
def writeAll (change : K → V → V) : List Backing.Handle → Fallback K V → Checked (List (K × V) × Fallback K V)
  | [], f => .ok ([], f)
  | slot :: rest, f => do
    let n ← f.node slot
    let f ← f.setValue slot (change n.key n.value)
    let (pairs, f) ← writeAll change rest f
    pure ((n.key, n.value) :: pairs, f)

/-- Writes through references to all entries, in order. Tells what the entries were. -/
def update (change : K → V → V) (f : Fallback K V) : Checked (List (K × V) × Fallback K V) := do
  let slots ← f.references
  writeAll change slots f

variable [BEq K]

/-- Does an action. -/
def perform (action : Action K V) (f : Fallback K V) : Reply (Fallback K V) (Report K V) :=
  match action with
  | .insert key value => (Reply.attempt f (f.insert key value)).map .inserted
  | .find key => ⟨f, [], (f.find key).map .slot⟩
  | .touch slot => (Reply.attempt f (f.touch slot)).map .moved
  | .remove key => (Reply.attempt f (f.remove key)).map .pair
  | .removeSlot slot => (Reply.attempt f (f.removeSlot slot)).map fun pair => .pair (some pair)
  | .update change => (Reply.attempt f (f.update change)).map .pairs
  | .reserve more => ⟨f, [], (f.reserve more).map fun _ => .done⟩
  | .shrink => .ok f .done
  | .clear => .ok f.cleared .done
  | .take => (Reply.attempt f f.take).map .pairs

/-- Does actions one after the other, up to the first fault, and tells their answers. -/
def performAll : List (Action K V) → Fallback K V → Reply (Fallback K V) (List (Report K V))
  | [], f => .ok f []
  | action :: actions, f =>
    (f.perform action).andThen fun report f => (performAll actions f).map fun reports => report :: reports

end DenseHash.Fallback
