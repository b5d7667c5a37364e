/-!
# Links and heads: indices in 32-bit words

Chains and orders point at entries with 32-bit words. A *link* holds an index, or one word set apart for "no
entry": the largest one in chains, the one before it in orders. The buckets start as all-zero words, so a bucket's
*head* holds one more than a link does: zero for an empty bucket, and one added to a link wraps "no entry" around
to zero. Either word gives the index back, as long as the index is below the word set apart; tables are smaller
than that.
-/

namespace DenseHash

/-- A reference to an entry, or, with the word that is set apart, to none. -/
structure Link (apart : UInt32) where
  word : UInt32
deriving DecidableEq

/-- The links of chains. -/
abbrev ChainLink : Type := Link 0xFFFFFFFF

/-- The links of orders. -/
abbrev OrderLink : Type := Link 0xFFFFFFFE

namespace Link

variable {apart : UInt32} {l : Link apart} {i : Nat}

/-- The link to no entry. -/
def none : Link apart := ⟨apart⟩

/-- The link to the entry at an index. -/
def ofIndex (i : Nat) : Link apart := ⟨i.toUInt32⟩

/-- The index that a link holds, if it holds one. -/
def index? (l : Link apart) : Option Nat := if l = none then Option.none else some l.word.toNat

@[simp] theorem index?_none : (none : Link apart).index? = Option.none := if_pos rfl

/-- An index below the word set apart is read back from its link. -/
theorem index?_ofIndex (h : i < apart.toNat) : (ofIndex i : Link apart).index? = some i := by
  have hword : i.toUInt32.toNat = i := by
    have := apart.toNat_lt
    rw [Nat.toUInt32_eq, UInt32.toNat_ofNat']
    omega
  have hne : (ofIndex i : Link apart) ≠ none := by
    intro heq
    have hnat : i.toUInt32.toNat = apart.toNat := congrArg (fun l => l.word.toNat) heq
    omega
  rw [index?, if_neg hne]
  exact congrArg some hword

/-- Only one link holds an index. -/
theorem index?_eq_some_iff (h : i < apart.toNat) : l.index? = some i ↔ l = ofIndex i := by
  constructor
  · intro hl
    by_cases hnone : l = none
    · rw [hnone, index?_none] at hl
      exact nomatch hl
    · rw [index?, if_neg hnone] at hl
      have hnat : l.word.toNat = i := Option.some.inj hl
      obtain ⟨w⟩ := l
      show Link.mk w = Link.mk i.toUInt32
      rw [← show w.toNat = i from hnat, Nat.toUInt32_eq, UInt32.ofNat_toNat]
  · intro hl
    rw [hl, index?_ofIndex h]

end Link

/-- What a bucket holds: the first entry of its chain, or none. -/
structure Head where
  word : UInt32
deriving DecidableEq

namespace Head

/-- The head of an empty bucket. -/
def empty : Head := ⟨0⟩

/-- The head that leads where a link leads. -/
def ofLink (l : ChainLink) : Head := ⟨l.word + 1⟩

/-- The link that a head stands for. -/
def toLink (h : Head) : ChainLink := ⟨h.word - 1⟩

/-- A link of a chain is itself again after it was stored. -/
theorem toLink_ofLink (l : ChainLink) : (ofLink l).toLink = l := by
  simp [ofLink, toLink]

end Head

end DenseHash
