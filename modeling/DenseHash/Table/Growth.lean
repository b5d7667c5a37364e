import DenseHash.Reply
import DenseHash.Table.Chain

/-!
# Growing and shrinking

The buckets are rebuilt from the stored hashes: all chains are emptied, and the entries are put in front of
their new chains one after the other, so a rebuilt chain has its indices in descending order. Entries, order
and indices stay as they are.
-/

namespace DenseHash

variable {K V : Type}

/-- Chains the entries anew in `buckets` buckets, which are at least one. -/
def rechain (buckets : Nat) (entries : Array (Entry K V)) : Array Head × Array (Entry K V) :=
  entries.foldl (fun (heads, done) e =>
    let bucket := bucketIndex buckets e.hash
    let first := (heads.getD bucket .empty).toLink
    (heads.setIfInBounds bucket (.ofLink (.ofIndex done.size)), done.push { e with next := first }))
    (Array.replicate buckets .empty, Array.emptyWithCapacity entries.size)

namespace Table

/-- Makes sure that `more` entries can be stored beside those that are there. -/
def ensure (t : Table K V) (more : Nat) : Reply (Table K V) Unit :=
  if maxStored < t.size + more then .fail t .capacityOverflow else .ok t ()

/-- Gives the table its first buckets, for as many entries as are expected. -/
def allocate (t : Table K V) : Reply (Table K V) Unit :=
  if t.buckets = 0 then
    match bucketsFor t.expected t.loadFactor with
    | .ok buckets => { t with heads := Array.replicate buckets .empty : Table K V }.ensure t.expected
    | .error f => .fail t f
  else .ok t ()

/-- Rebuilds the table with another number of buckets. -/
def resize (t : Table K V) (buckets : Nat) : Reply (Table K V) Unit :=
  if maxBuckets < buckets then .fail t .capacityOverflow
  else if buckets = 0 then .fail t (.corrupt .noLast)
  else
    let event := Event.resized t.buckets buckets t.size
    let (heads, entries) := rechain buckets t.entries
    ⟨{ t with heads, entries }, [event], .ok ()⟩

/-- Makes room for `more` entries. A table without buckets only remembers the number. -/
def reserve (t : Table K V) (more : Nat) : Reply (Table K V) Unit :=
  let wanted := min (t.size + more) maxWord
  if t.buckets = 0 then .ok { t with expected := max t.expected wanted } ()
  else
    let grown : Reply (Table K V) Unit :=
      if t.capacity < wanted then
        match bucketsFor wanted t.loadFactor with
        | .ok buckets => t.resize buckets
        | .error f => .fail t f
      else .ok t ()
    grown.andThen fun _ t => t.ensure more

/-- Rebuilds the table with as few buckets as its entries need, if those are fewer. An empty table gives up
    all buckets and forgets what was expected. -/
def shrink (t : Table K V) : Reply (Table K V) Unit :=
  let cut : Reply (Table K V) Unit :=
    if t.size = 0 then .ok { t with heads := #[], expected := 0 } ()
    else
      match bucketsFor t.size t.loadFactor with
      | .ok buckets => if buckets < t.buckets then t.resize buckets else .ok t ()
      | .error f => .fail t f
  cut.andThen fun _ t => ⟨t, [.shrunk t.buckets t.size], .ok ()⟩

end Table

end DenseHash
