import DenseHash.Container.Revise

/-!
# Operations as data

What can be asked of a container, as a value. A run of a container is a list of operations, and `apply` says
what each one does and answers.
-/

namespace DenseHash

/-- An operation on a container. -/
inductive Operation (K V : Type) where
  | insert (key : K) (value : V)
  | get (key : K)
  | modify (key : K) (change : V → V)
  | peek (key : K)
  | entry (key : K)
  | contains (key : K)
  | remove (key : K)
  | first
  | last
  | popFirst
  | popLast
  /-- The decision on an entry, and the value that it is given, may depend on all entries visited before it, the
      latest first. -/
  | retain (keep : List (K × V) → K → V → V × Bool)
  | extend (hint : UInt64) (pairs : List (K × V))
  | drain
  | clear
  | reserve (more : UInt64)
  | shrink
  | iterate (moves : List Move)
  | revise (moves : List Move) (change : K → V → V)

/-- What an operation answers. -/
inductive Answer (K V : Type) where
  | done
  | value (value : Option V)
  | pair (pair : Option (K × V))
  | flag (holds : Bool)
  | pairs (pairs : List (K × V))
  | readings (readings : List (Reading (K × V)))
deriving DecidableEq

namespace Container

variable [Backing] {K V : Type}

/-- An answer that leaves the container as it is. -/
def answer {α : Type} (c : Container K V) (outcome : Checked α) : Reply (Container K V) α :=
  ⟨c, [], outcome⟩

/-- Visits all entries and tells them, each with the value that the visitor was shown. -/
def retainWith (c : Container K V) (keep : List (K × V) → K → V → V × Bool) :
    Reply (Container K V) (List (K × V)) :=
  let visit (seen : List (K × V)) (key : K) (value : V) : List (K × V) × V × Bool :=
    ((key, value) :: seen, keep seen key value)
  (c.retain visit []).map List.reverse

/-- Does an operation. -/
def apply [BEq K] (op : Operation K V) (c : Container K V) : Reply (Container K V) (Answer K V) :=
  match op with
  | .insert key value => (c.insert key value).map .value
  | .get key => (c.get key).map .value
  | .modify key change => (c.modify key change).map .value
  | .peek key => (c.answer (c.peek key)).map .value
  | .entry key => (c.answer (c.entry? key)).map .pair
  | .contains key => (c.answer (c.contains key)).map .flag
  | .remove key => (c.remove key).map .pair
  | .first => (c.answer c.first).map .pair
  | .last => (c.answer c.last).map .pair
  | .popFirst => c.popFirst.map .pair
  | .popLast => c.popLast.map .pair
  | .retain keep => (c.retainWith keep).map .pairs
  | .extend hint pairs => (c.extend hint pairs).map fun _ => .done
  | .drain => c.drain.map .pairs
  | .clear => .ok c.clear .done
  | .reserve more => (c.reserve more).map fun _ => .done
  | .shrink => c.shrink.map fun _ => .done
  | .iterate moves => (c.answer (c.iter.run moves)).map .readings
  | .revise moves change => (c.revise moves change).map .readings

/-- Does operations one after the other, up to the first fault, and tells their answers. -/
def run [BEq K] : List (Operation K V) → Container K V → Reply (Container K V) (List (Answer K V))
  | [], c => .ok c []
  | op :: ops, c => (c.apply op).andThen fun a c => (run ops c).map fun as => a :: as

end Container

end DenseHash
