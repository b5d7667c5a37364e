import DenseHash.Event
import DenseHash.Fault

/-!
# What an operation leaves behind

An operation on a state answers with three things: the state it leaves, the events it logged on the way, and
a result, which may be a fault. A fault does not undo anything: the state beside it is the state that the
caller goes on with.
-/

namespace DenseHash

/-- The outcome of an operation on a state. -/
structure Reply (σ α : Type) where
  state : σ
  events : List Event
  result : Checked α

namespace Reply

variable {σ τ α β : Type}

/-- Nothing was logged, and the result is `a`. -/
def ok (s : σ) (a : α) : Reply σ α := ⟨s, [], .ok a⟩

/-- Nothing was logged, and the operation failed. -/
def fail (s : σ) (f : Fault) : Reply σ α := ⟨s, [], .error f⟩

/-- A change of the state that may fail: then nothing changes. -/
def attempt (s : σ) (change : Checked (α × σ)) : Reply σ α :=
  match change with
  | .ok (a, s) => ok s a
  | .error f => fail s f

/-- Puts events in front of those of a reply. -/
def after (events : List Event) (r : Reply σ α) : Reply σ α := { r with events := events ++ r.events }

/-- Goes on with the result and the state, unless the operation failed. -/
def andThen (r : Reply σ α) (next : α → σ → Reply σ β) : Reply σ β :=
  match r with
  | ⟨s, events, .ok a⟩ => (next a s).after events
  | ⟨s, events, .error f⟩ => ⟨s, events, .error f⟩

/-- Changes the result. -/
def map (g : α → β) (r : Reply σ α) : Reply σ β := ⟨r.state, r.events, r.result.map g⟩

/-- Sees the state as part of a larger one. -/
def within (g : σ → τ) (r : Reply σ α) : Reply τ α := ⟨g r.state, r.events, r.result⟩

/-- Does `step` for each element in turn, up to the first fault. -/
def forEach (step : α → σ → Reply σ Unit) : List α → σ → Reply σ Unit
  | [], s => ok s ()
  | a :: rest, s => (step a s).andThen fun _ s => forEach step rest s

end Reply

end DenseHash
