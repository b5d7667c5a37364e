import DenseHash.Fault

/-!
# Gathering

Entries that stand in another order than they are traversed in are gathered: the order is written down first, and then
each entry is taken from its place. What was taken is gone, so a place that is met twice is found empty, and that shows
damage.
-/

namespace DenseHash

variable {ι α σ : Type}

/-- Takes from one place after the other. -/
def gather (take : ι → σ → Checked (α × σ)) : List ι → σ → Checked (List α)
  | [], _ => .ok []
  | i :: is, places => do
    let (a, places) ← take i places
    let as ← gather take is places
    pure (a :: as)

/-- Takes from a place of an array. -/
def takePlace (i : Nat) (places : Array (Option α)) : Checked (α × Array (Option α)) :=
  match places[i]? with
  | some (some a) => .ok (a, places.setIfInBounds i none)
  | some none => Corruption.brokenOrder.raise
  | none => (Corruption.outOfRange places.size i).raise

end DenseHash
