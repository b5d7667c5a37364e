import DenseHash.Iter

/-!
# Clones of an iterator

An iterator can be cloned at any time, and from then on each of the two is used by itself. All iterators that come from
one make a *fleet*: a list of them, in the order in which they were made.

Keys and values are iterated like entries. Such an iterator shows a part of every entry, its *view*.
-/

namespace DenseHash

variable {K V α ρ σ : Type}

/-- A call on one of the iterators of a fleet. If there is none in that place, it does nothing. -/
inductive Call where
  | use (member : Nat) (move : Move)
  /-- The clone comes last. -/
  | clone (member : Nat)
deriving DecidableEq

/-- The place of the iterator that is called. -/
def Call.member : Call → Nat
  | .use member _ => member
  | .clone member => member

/-- One use of an iterator, seen through a view. -/
def Iter.use [Backing] (view : K × V → α) : Move → Iter K V → Checked (Reading α × Iter K V)
  | .front, it => do
    let (pair, it) ← it.next
    pure (.item (pair.map view), it)
  | .back, it => do
    let (pair, it) ← it.nextBack
    pure (.item (pair.map view), it)
  | .length, it => pure (.count it.remaining, it)
  | .bounds, it => pure (.bounds it.remaining it.remaining, it)
  | .copy, it => do
    let pairs ← it.toList
    pure (.items (pairs.map view), it)
  | .rest, it => do
    let (pairs, it) ← it.takeFront it.remaining
    pure (.items (pairs.map view), it)

namespace Fleet

/-- One call, where `use` says what using a member shows and makes of it. Cloning shows nothing. -/
def step (use : Move → σ → Checked (ρ × σ)) : Call → List σ → Checked (Option ρ × List σ)
  | .use member move, fleet =>
    match fleet[member]? with
    | some s => do
      let (reading, s) ← use move s
      pure (some reading, fleet.set member s)
    | none => .ok (none, fleet)
  | .clone member, fleet =>
    match fleet[member]? with
    | some s => .ok (none, fleet ++ [s])
    | none => .ok (none, fleet)

/-- Calls one after the other, with what each of them shows. -/
def run (use : Move → σ → Checked (ρ × σ)) : List Call → List σ → Checked (List (Option ρ) × List σ)
  | [], fleet => .ok ([], fleet)
  | call :: calls, fleet => do
    let (reading, fleet) ← step use call fleet
    let (readings, fleet) ← run use calls fleet
    pure (reading :: readings, fleet)

end Fleet

end DenseHash
