import DenseHash.Container.Basic

/-!
# The text of a container

Entries between braces, on one line or one to a line. In the long form each entry ends with a comma and is
indented by four blanks; the lines of an entry that has several are all indented.
-/

namespace DenseHash.Render

/-- Entries on one line. -/
def line (entries : List String) : String := "\x7b" ++ ", ".intercalate entries ++ "\x7d"

/-- Starts every line of an entry with four blanks. -/
def indented (entry : String) : String :=
  "    " ++ String.ofList (entry.toList.flatMap fun c => if c = '\n' then '\n' :: "    ".toList else [c])

/-- One entry to a line; nothing but the braces if there is none. -/
def lines (entries : List String) : String :=
  if entries.isEmpty then "\x7b\x7d"
  else "\x7b\n" ++ String.join (entries.map fun e => indented e ++ ",\n") ++ "\x7d"

/-- Entries in the long or the short form. -/
def entries (long : Bool) (texts : List String) : String := if long then lines texts else line texts

end DenseHash.Render

namespace DenseHash.Container

variable [Backing] {K V : Type}

/-- The text of a map: each key with its value. -/
def mapText (c : Container K V) (keyText : K → String) (valueText : V → String) (long : Bool) :
    Checked String := do
  let pairs ← c.toList
  pure (Render.entries long (pairs.map fun (key, value) => keyText key ++ ": " ++ valueText value))

/-- The text of a set: its keys. -/
def setText (c : Container K V) (keyText : K → String) (long : Bool) : Checked String := do
  let pairs ← c.toList
  pure (Render.entries long (pairs.map fun (key, _) => keyText key))

end DenseHash.Container
