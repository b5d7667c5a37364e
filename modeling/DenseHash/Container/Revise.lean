import DenseHash.Container.Update

/-!
# Iteration that changes values

References to all entries are collected first, in traversal order; then a script takes them from either end, and the value
of each entry is changed when it is handed out. Nothing else of the container changes.
-/

namespace DenseHash

variable [Backing]

namespace Store

variable {K V : Type}

/-- Changes the value in a slot and tells the entry as it is then. -/
def reviseAt (change : K → V → V) (store : Store K V) (slot : Slot) : Checked ((K × V) × Store K V) := do
  let (key, value) ← store.pair slot
  let value := change key value
  let store ← store.setValue slot value
  pure ((key, value), store)

/-- Changes the values in slots one after the other. -/
def reviseAll (change : K → V → V) : List Slot → Store K V → Checked (List (K × V) × Store K V)
  | [], store => .ok ([], store)
  | slot :: rest, store => do
    let (pair, store) ← reviseAt change store slot
    let (pairs, store) ← reviseAll change rest store
    pure (pair :: pairs, store)

/-- What a script shows of the entries in these slots, changing each one that it hands out. -/
def reviseBy (change : K → V → V) :
    List Move → List Slot → Store K V → Checked (List (Reading (K × V)) × Store K V)
  | [], _, store => .ok ([], store)
  | .front :: moves, slots, store => do
    match slots with
    | [] =>
      let (readings, store) ← reviseBy change moves [] store
      pure (.item none :: readings, store)
    | slot :: rest =>
      let (pair, store) ← reviseAt change store slot
      let (readings, store) ← reviseBy change moves rest store
      pure (.item (some pair) :: readings, store)
  | .back :: moves, slots, store => do
    match slots.getLast? with
    | none =>
      let (readings, store) ← reviseBy change moves slots store
      pure (.item none :: readings, store)
    | some slot =>
      let (pair, store) ← reviseAt change store slot
      let (readings, store) ← reviseBy change moves slots.dropLast store
      pure (.item (some pair) :: readings, store)
  | .length :: moves, slots, store => do
    let (readings, store) ← reviseBy change moves slots store
    pure (.count slots.length :: readings, store)
  | .bounds :: moves, slots, store => do
    let (readings, store) ← reviseBy change moves slots store
    pure (.bounds slots.length slots.length :: readings, store)
  | .copy :: moves, slots, store => do
    let pairs ← slots.mapM store.pair
    let (readings, store) ← reviseBy change moves slots store
    pure (.items pairs :: readings, store)
  | .rest :: moves, slots, store => do
    let (pairs, store) ← reviseAll change slots store
    let (readings, store) ← reviseBy change moves [] store
    pure (.items pairs :: readings, store)

end Store

/-- Iterates by a script and changes the value of each entry that is handed out. -/
def Container.revise {K V : Type} (c : Container K V) (moves : List Move) (change : K → V → V) :
    Reply (Container K V) (List (Reading (K × V))) :=
  let outcome : Checked (List (Reading (K × V)) × Store K V) := do
    let slots ← c.store.references
    Store.reviseBy change moves slots c.store
  c.ofStore outcome

end DenseHash
