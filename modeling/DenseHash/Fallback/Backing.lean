import Std.Data.ExtTreeMap

/-!
# What a fallback is built from

A fallback keeps its entries in collections that are not its own: a slot map for the entries, and a hash table of
slots to look keys up. How these are made is left open. `Backing` has the operations that a fallback uses and, as
its laws, all that is relied on about them:

* **A supply of slots.** A slot that is given out was never given out before, whatever has been taken back since,
  so a slot kept from before a removal leads nowhere.
* **Nodes in slots.** What was written to a slot is read from it, and nothing else has changed.
* **An index.** A search under a hash meets every slot that is filed under it. It may meet others too, and may meet
  them in any order, so whoever searches has to look at the keys.

Everything said of fallbacks, and of containers, is said of every backing.
-/

namespace DenseHash

/-- The collections that a fallback is built from, with what is relied on about them. -/
class Backing where
  /-- The name of a slot. -/
  Handle : Type
  decideHandle : DecidableEq Handle
  /-- Which slots have been given out and taken back. -/
  Supply : Type
  /-- No slot has been given out. -/
  supply : Supply
  /-- Gives out a slot. -/
  draw : Supply → Handle × Supply
  /-- Takes back a slot that has been vacated. -/
  release : Supply → Handle → Supply
  /-- Takes back all slots. -/
  releaseAll : Supply → Supply
  /-- Whether a slot has been given out, taken back since or not. -/
  Spent : Supply → Handle → Prop
  not_spent_draw (s : Supply) : ¬Spent s (draw s).1
  spent_draw_self (s : Supply) : Spent (draw s).2 (draw s).1
  spent_draw {s : Supply} {slot : Handle} : Spent s slot → Spent (draw s).2 slot
  spent_release {s : Supply} {slot : Handle} (slot' : Handle) : Spent s slot → Spent (release s slot') slot
  spent_releaseAll {s : Supply} {slot : Handle} : Spent s slot → Spent (releaseAll s) slot
  /-- Nodes in slots. -/
  Nodes : Type → Type
  /-- No slot has a node. -/
  vacant {α : Type} : Nodes α
  /-- The node in a slot. -/
  node? {α : Type} : Nodes α → Handle → Option α
  /-- Puts a node into a slot, in place of the one that is there. -/
  fill {α : Type} : Nodes α → Handle → α → Nodes α
  /-- Removes the node in a slot. -/
  vacate {α : Type} : Nodes α → Handle → Nodes α
  /-- The number of slots that have a node. -/
  occupied {α : Type} : Nodes α → Nat
  node?_vacant {α : Type} (slot : Handle) : node? (vacant : Nodes α) slot = none
  node?_fill {α : Type} (nodes : Nodes α) (slot slot' : Handle) (a : α) :
    node? (fill nodes slot a) slot' = if slot = slot' then some a else node? nodes slot'
  /-- A node that is replaced by itself stays as it was. -/
  fill_self {α : Type} {nodes : Nodes α} {slot : Handle} {a : α} : node? nodes slot = some a → fill nodes slot a = nodes
  node?_vacate {α : Type} (nodes : Nodes α) (slot slot' : Handle) :
    node? (vacate nodes slot) slot' = if slot = slot' then none else node? nodes slot'
  occupied_vacant {α : Type} : occupied (vacant : Nodes α) = 0
  occupied_fill {α : Type} (nodes : Nodes α) (slot : Handle) (a : α) :
    occupied (fill nodes slot a) = if (node? nodes slot).isSome then occupied nodes else occupied nodes + 1
  occupied_vacate {α : Type} (nodes : Nodes α) (slot : Handle) :
    occupied (vacate nodes slot) = if (node? nodes slot).isSome then occupied nodes - 1 else occupied nodes
  /-- Slots under hashes. -/
  Index : Type
  /-- No slot is filed. -/
  bare : Index
  /-- Files a slot under a hash. -/
  file : Index → UInt64 → Handle → Index
  /-- The slots that a search under a hash meets, in the order in which it meets them. -/
  candidates : Index → UInt64 → List Handle
  /-- Takes out a slot that a search under a hash meets; fails if it meets no such slot. -/
  unfile : Index → UInt64 → Handle → Option Index
  /-- The slots that are filed under a hash, in any order. -/
  filed : Index → UInt64 → List Handle
  filed_bare (hash : UInt64) : filed bare hash = []
  filed_file (index : Index) (hash hash' : UInt64) (slot : Handle) :
    (filed (file index hash slot) hash').Perm
      (if hash = hash' then slot :: filed index hash' else filed index hash')
  mem_candidates {index : Index} {hash : UInt64} {slot : Handle} :
    slot ∈ filed index hash → slot ∈ candidates index hash
  filed_of_mem_candidates {index : Index} {hash : UInt64} {slot : Handle} :
    slot ∈ candidates index hash → ∃ hash', slot ∈ filed index hash'
  exists_unfile {index : Index} {hash : UInt64} {slot : Handle} :
    slot ∈ filed index hash → (∀ hash', slot ∈ filed index hash' → hash' = hash) →
      ∃ index', unfile index hash slot = some index' ∧ ∀ hash', (filed index' hash').Perm
        (if hash = hash' then (filed index hash').erase slot else filed index hash')
  /-- The most slots that an index can be asked to have room for. -/
  maxFiled : Nat

instance [Backing] : DecidableEq Backing.Handle := Backing.decideHandle

/-! ## Search trees -/

namespace Trees

/-- Slots under hashes, in a search tree. -/
abbrev Index : Type := Std.ExtTreeMap UInt64 (List Nat)

/-- The slots under a hash. -/
def filed (index : Index) (hash : UInt64) : List Nat := index.getD hash []

/-- Puts these slots, and no others, under a hash. -/
def refile (index : Index) (hash : UInt64) (slots : List Nat) : Index :=
  if slots.isEmpty then index.erase hash else index.insert hash slots

/-- Takes a slot out that is under a hash. -/
def unfile (index : Index) (hash : UInt64) (slot : Nat) : Option Index :=
  if slot ∈ filed index hash then some (refile index hash ((filed index hash).erase slot)) else none

/-- Refiling changes the slots under one hash, and no others. -/
theorem filed_refile (index : Index) (hash hash' : UInt64) (slots : List Nat) :
    filed (refile index hash slots) hash' = if hash = hash' then slots else filed index hash' := by
  rw [filed, Std.ExtTreeMap.getD_eq_getD_getElem?, refile]
  by_cases heq : hash = hash'
  · rw [if_pos heq, ← heq]
    cases slots with
    | nil =>
        show ((index.erase hash)[hash]?).getD [] = []
        rw [Std.ExtTreeMap.getElem?_erase_self]
        rfl
    | cons slot slots =>
        show ((index.insert hash (slot :: slots))[hash]?).getD [] = slot :: slots
        rw [Std.ExtTreeMap.getElem?_insert_self]
        rfl
  · have hne : ¬compare hash hash' = .eq := fun hc => heq (Std.compare_eq_iff_eq.mp hc)
    rw [if_neg heq, filed, Std.ExtTreeMap.getD_eq_getD_getElem?]
    cases slots with
    | nil =>
        show ((index.erase hash)[hash']?).getD [] = _
        rw [Std.ExtTreeMap.getElem?_erase, if_neg hne]
    | cons slot slots =>
        show ((index.insert hash (slot :: slots))[hash']?).getD [] = _
        rw [Std.ExtTreeMap.getElem?_insert, if_neg hne]

variable {α : Type} (nodes : Std.ExtTreeMap Nat α) (slot slot' : Nat)

/-- An insertion shows at its own slot only. -/
theorem getElem?_insert (a : α) : (nodes.insert slot a)[slot']? = if slot = slot' then some a else nodes[slot']? := by
  rw [Std.ExtTreeMap.getElem?_insert]
  simp only [Std.compare_eq_iff_eq]

/-- Inserting what is there changes nothing. -/
theorem insert_self {nodes : Std.ExtTreeMap Nat α} {slot : Nat} {a : α} (h : nodes[slot]? = some a) :
    nodes.insert slot a = nodes := by
  apply Std.ExtTreeMap.ext_getElem?
  intro slot'
  rw [getElem?_insert]
  split
  · next heq => rw [← heq, h]
  · rfl

/-- A slot that was erased is empty, and the others are as they were. -/
theorem getElem?_erase : (nodes.erase slot)[slot']? = if slot = slot' then none else nodes[slot']? := by
  rw [Std.ExtTreeMap.getElem?_erase]
  simp only [Std.compare_eq_iff_eq]

/-- An insertion adds a node, unless it replaces one. -/
theorem size_insert (a : α) :
    (nodes.insert slot a).size = if nodes[slot]?.isSome then nodes.size else nodes.size + 1 := by
  rw [Std.ExtTreeMap.size_insert, ← Std.ExtTreeMap.contains_eq_isSome_getElem?]

/-- Erasing takes a node away, if there was one. -/
theorem size_erase : (nodes.erase slot).size = if nodes[slot]?.isSome then nodes.size - 1 else nodes.size := by
  rw [Std.ExtTreeMap.size_erase, ← Std.ExtTreeMap.contains_eq_isSome_getElem?]

end Trees

/-- Nodes and index are search trees, and the slots are counted. An index may fill seven eighths of its places, their
    number is a power of two, and a place takes nine bytes: `2 ^ 59` places are the most that fit into fewer than
    `2 ^ 63` bytes. -/
instance treeBacking : Backing where
  Handle := Nat
  decideHandle := inferInstance
  Supply := Nat
  supply := 0
  draw n := (n, n + 1)
  release n _ := n
  releaseAll n := n
  Spent n slot := slot < n
  not_spent_draw n := Nat.lt_irrefl n
  spent_draw_self n := Nat.lt_succ_self n
  spent_draw h := Nat.lt_succ_of_lt h
  spent_release _ h := h
  spent_releaseAll h := h
  Nodes := Std.ExtTreeMap Nat
  vacant := ∅
  node? nodes slot := nodes[slot]?
  fill nodes slot a := nodes.insert slot a
  vacate nodes slot := nodes.erase slot
  occupied nodes := nodes.size
  node?_vacant _ := Std.ExtTreeMap.getElem?_empty
  node?_fill := Trees.getElem?_insert
  fill_self := Trees.insert_self
  node?_vacate := Trees.getElem?_erase
  occupied_vacant := Std.ExtTreeMap.size_empty
  occupied_fill := Trees.size_insert
  occupied_vacate := Trees.size_erase
  Index := Trees.Index
  bare := ∅
  file index hash slot := Trees.refile index hash (Trees.filed index hash ++ [slot])
  candidates := Trees.filed
  unfile := Trees.unfile
  filed := Trees.filed
  filed_bare hash := by
    rw [Trees.filed, Std.ExtTreeMap.getD_eq_getD_getElem?, Std.ExtTreeMap.getElem?_empty]
    rfl
  filed_file index hash hash' slot := by
    rw [Trees.filed_refile]
    split
    · next heq => exact heq ▸ List.perm_append_singleton slot _
    · exact .refl _
  mem_candidates h := h
  filed_of_mem_candidates h := ⟨_, h⟩
  exists_unfile {index hash slot} h _ := by
    refine ⟨_, if_pos h, fun hash' => ?_⟩
    rw [Trees.filed_refile]
    split
    · next heq => exact heq ▸ .refl _
    · exact .refl _
  maxFiled := 7 <<< 56

end DenseHash
