import DenseHash.Container.Basic

/-!
# The flood guard

Whoever knows the hash function of a table can choose keys that all fall into one bucket, and then every
lookup walks one long chain. The guard watches the lengths of the chains. `flood` moves all entries to a
fallback, in traversal order; `inspect` does so if some chain is too long.
-/

namespace DenseHash.Container

variable [Backing] {K V : Type} [BEq K]

/-- Moves the entries of a table to a fallback because of a chain with `chain` entries. -/
def flood (c : Container K V) (chain : Nat) : Reply (Container K V) Unit :=
  match c.store with
  | .fallback _ => .ok c ()
  | .table t =>
    let event := Event.flooded chain c.maxChain t.size
    let moved : Checked (Fallback K V) := do
      let pairs ← t.pairs
      Fallback.insertAll pairs (.empty c.hashing.secondary t.order.byAccess)
    match moved with
    | .ok f => ⟨{ c with store := .fallback f }.bump, [event], .ok ()⟩
    | .error e => ⟨c, [event], .error e⟩

/-- Measures every chain of a table and moves the entries if one is too long. -/
def inspect (c : Container K V) : Reply (Container K V) Unit :=
  match c.store with
  | .fallback _ => .ok c ()
  | .table t =>
    match t.longestChain with
    | .ok longest => if c.maxChain < longest then c.flood longest else .ok c ()
    | .error e => .fail c e

end DenseHash.Container
