/-!
# Log events

What a container reports while it works: that a table was rebuilt with another number of buckets, that it
was shrunk, and that the flood guard gave up on it.
-/

namespace DenseHash

/-- Something worth a log line. -/
inductive Event where
  /-- The buckets were rebuilt. -/
  | resized (before after entries : Nat)
  /-- Storage was cut to what the entries need. -/
  | shrunk (buckets entries : Nat)
  /-- A chain was too long, and the entries moved to the fallback. -/
  | flooded (chain limit entries : Nat)
deriving DecidableEq

namespace Event

/-- How grave an event is. -/
def level : Event → String
  | .flooded .. => "WARN"
  | _ => "DEBUG"

/-- The text of an event. -/
def message : Event → String
  | .resized before after entries =>
    s!"compact table resize: {before} -> {after} buckets ({entries} entries)"
  | .shrunk buckets entries => s!"compact table shrunk to {buckets} buckets ({entries} entries)"
  | .flooded chain limit entries =>
    s!"hash flooding suspected: bucket chain of {chain} entries exceeds limit {limit}; " ++
      s!"switching {entries} entries to fallback representation"

/-- The log line: level and text. -/
def line (e : Event) : String := e.level ++ " " ++ e.message

end Event

end DenseHash
