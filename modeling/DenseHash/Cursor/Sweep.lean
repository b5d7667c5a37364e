import DenseHash.Cursor.Basic

/-!
# Sweeping with a cursor

A sweep steps a cursor while it has a next entry, and removes through the cursor the entries that a visitor
picks. It stops at the first refusal.
-/

namespace DenseHash

/-- What a sweep met. -/
structure Swept (K V : Type) where
  /-- The entries that were returned. -/
  seen : List (K × V)
  /-- The entries that were removed. -/
  gone : List (K × V)
  /-- The refusal that ended the sweep, if one did. -/
  stopped : Option CursorError

namespace Swept

variable {K V : Type}

/-- A sweep that met nothing, or a refusal. -/
def ended (stopped : Option CursorError) : Swept K V := ⟨[], [], stopped⟩

/-- Puts an entry that was returned in front. -/
def see (pair : K × V) (s : Swept K V) : Swept K V := { s with seen := pair :: s.seen }

/-- Puts an entry that was removed in front. -/
def drop (pair : K × V) (s : Swept K V) : Swept K V := { s with gone := pair :: s.gone }

end Swept

namespace Cursor

variable [Backing] {K V σ : Type}

/-- Sweeps for at most `fuel` entries. -/
def sweepFor (pick : σ → K → V → σ × Bool) :
    Nat → σ → Cursor → Container K V → Reply (Container K V × Cursor) (Swept K V)
  | fuel, state, cur, c =>
    if cur.hasNext then
      match fuel with
      | 0 => .fail (c, cur) (.corrupt .brokenOrder)
      | fuel + 1 =>
        match cur.next c with
        | .error e => .fail (c, cur) e
        | .ok (.error e, cur) => .ok (c, cur) (.ended (some e))
        | .ok (.ok (key, value), cur) =>
          let (state, picked) := pick state key value
          if picked then
            (cur.remove c).andThen fun removed (c, cur) =>
              match removed with
              | .error e => .ok (c, cur) ((Swept.ended (some e)).see (key, value))
              | .ok pair =>
                (sweepFor pick fuel state cur c).map fun rest => (rest.drop pair).see (key, value)
          else (sweepFor pick fuel state cur c).map fun rest => rest.see (key, value)
    else .ok (c, cur) (.ended none)

/-- Steps the cursor to its end and removes the entries that the visitor picks. The visitor carries a state
    along. A sweep meets no entry twice, so the number of entries bounds it, with one step to spare for a
    refusal. -/
def sweep (pick : σ → K → V → σ × Bool) (state : σ) (cur : Cursor) (c : Container K V) :
    Reply (Container K V × Cursor) (Swept K V) :=
  sweepFor pick (c.size + 1) state cur c

end Cursor

end DenseHash
