import DenseHash.Container.Basic
import DenseHash.Proofs.Fallback.Removal
import DenseHash.Proofs.Fallback.Traversal
import DenseHash.Proofs.Table.Insertion
import DenseHash.Proofs.Table.Removal
import DenseHash.Proofs.Table.Traversal

/-!
# Sound storage

`Store.Sound hashing s slots` says of either form of storage that it is sound, that its traversal order is
`slots`, and that every entry is stored under the hash of its key. From here on nothing depends on the form:

* **`Store.held`** tells what each slot holds, so the entries of a store are `slots.filterMap s.held`;
* every operation is described by what it does to the slots and to what they hold.

A removal may rename slots. What a cursor has to know about that is in `Store.Removes`.
-/

namespace DenseHash

variable {K V : Type}

/-! ## Hashes of keys -/

/-- Equal keys have equal hashes. -/
structure Hashing.Respects [BEq K] (hashing : Hashing K) : Prop where
  primary : ∀ {k k' : K}, (k == k') = true → hashing.primary k = hashing.primary k'
  secondary : hashing.secondary.Respects

/-- The hash under which a table stores a key. -/
def Hashing.stored (hashing : Hashing K) (key : K) : UInt32 := mix (hashing.primary key)

/-- The hash function of a fallback gives equal keys equal hashes. -/
theorem Hashing.Respects.digest [Backing] [BEq K] {hashing : Hashing K} (h : hashing.Respects) {f : Fallback K V}
    (hleft : hashing.secondary.Left f.draws) {k k' : K} (hk : (k == k') = true) : f.digest k = f.digest k' :=
  (h.secondary.left hleft).digest hk

/-- Equal keys are stored under equal hashes. -/
theorem Hashing.Respects.stored [BEq K] {hashing : Hashing K} (h : hashing.Respects) {k k' : K}
    (hk : (k == k') = true) : hashing.stored k = hashing.stored k' := congrArg mix (h.primary hk)

/-- Every entry is stored under the hash of its key. -/
def Table.Hashed (hash : K → UInt32) (t : Table K V) : Prop :=
  ∀ {i h key value}, t.content i = some (h, key, value) → h = hash key

/-- An entry under the hash of its key may be put in. -/
theorem Table.Hashed.update {hash : K → UInt32} {t t' : Table K V} {i : Nat} {h : UInt32} {key : K}
    {value : V} (ht : t.Hashed hash) (hkey : h = hash key)
    (hc : t'.content = Function.update t.content i (some (h, key, value))) : t'.Hashed hash := by
  intro k h' key' value' hk
  rw [hc] at hk
  by_cases hki : k = i
  · rw [hki, Function.update_self] at hk
    injection hk with hk
    injection hk with hk₁ hk
    injection hk with hk₂ _
    rw [← hk₁, ← hk₂, hkey]
  · rw [Function.update_of_ne hki] at hk
    exact ht hk

/-- What a table finds at an index depends on the key there alone. -/
theorem Table.Hashed.holds_iff_key [BEq K] {hash : K → UInt32} {t : Table K V} (h : t.Hashed hash) {stored : UInt32}
    {key : K} {i : Nat} : t.holds stored key i = true ↔
      ∃ k, (t.pair? i).map Prod.fst = some k ∧ stored = hash k ∧ (k == key) = true := by
  rw [holds_iff, pair?]
  constructor
  · rintro ⟨k, value, hc, hkey⟩
    exact ⟨k, by rw [hc]; rfl, h hc, hkey⟩
  · rintro ⟨k, hk, rfl, hkey⟩
    rw [Option.map_map, Option.map_eq_some_iff] at hk
    obtain ⟨⟨stored, k, value⟩, hc, rfl⟩ := hk
    exact ⟨k, value, by rw [hc, h hc]; rfl, hkey⟩

namespace Store

variable [Backing]

/-- The entry in a slot. -/
def held : Store K V → Slot → Option (K × V)
  | .table t, .index i => t.pair? i
  | .fallback f, .node s => f.pair? s
  | _, _ => none

/-- An entry that is held can be read. -/
theorem pair_eq {s : Store K V} {slot : Slot} {p : K × V} (hp : s.held slot = some p) : s.pair slot = .ok p := by
  cases s with
  | table t =>
      cases slot with
      | index i =>
          obtain ⟨⟨hash, key, value⟩, hc, rfl⟩ := Option.map_eq_some_iff.mp hp
          obtain ⟨e, he, -, -, rfl, rfl, -⟩ := Table.entry_eq hc
          rw [pair, he]
          rfl
      | node k => exact nomatch hp
  | fallback f =>
      cases slot with
      | index i => exact nomatch hp
      | node k =>
          obtain ⟨⟨hash, key, value⟩, hc, rfl⟩ := Option.map_eq_some_iff.mp hp
          obtain ⟨n, hn, -, -, rfl, rfl, -⟩ := Fallback.node_eq hc
          rw [pair, hn]
          rfl

/-- What can be read is an entry that is held. -/
theorem held_of_pair {s : Store K V} {slot : Slot} {p : K × V} (h : s.pair slot = .ok p) : s.held slot = some p := by
  cases s with
  | table t =>
      cases slot with
      | index i =>
          obtain ⟨e, he, hp⟩ := Checked.bind_eq_ok h
          cases hp
          show (t.content i).map Prod.snd = _
          rw [Table.content_of_entry he]
          rfl
      | node k => cases h
  | fallback f =>
      cases slot with
      | index i => cases h
      | node k =>
          obtain ⟨n, hn, hp⟩ := Checked.bind_eq_ok h
          cases hp
          show (f.content k).map Prod.snd = _
          rw [Fallback.content_of_node hn]
          rfl

/-- Reading a slot succeeds if it holds an entry, and gives it. -/
theorem pair_eq_ok_iff {s : Store K V} {slot : Slot} {p : K × V} : s.pair slot = .ok p ↔ s.held slot = some p :=
  ⟨held_of_pair, pair_eq⟩

/-- Replacing an entry of the table, seen through slots. -/
theorem held_table_update {t t' : Table K V} {i : Nat} {p : K × V}
    (h : t'.pair? = Function.update t.pair? i (some p)) :
    (table t').held = Function.update (table t).held (.index i) (some p) := by
  funext slot
  cases slot with
  | node k => rw [Function.update_of_ne (by simp)]; rfl
  | index k =>
      show t'.pair? k = _
      rw [h]
      by_cases hki : k = i
      · rw [hki, Function.update_self, Function.update_self]
      · rw [Function.update_of_ne hki, Function.update_of_ne fun heq => hki (Slot.index.inj heq)]
        rfl

/-- Replacing an entry of the fallback, seen through slots. -/
theorem held_fallback_update {f f' : Fallback K V} {k : Backing.Handle} {p : K × V}
    (h : f'.pair? = Function.update f.pair? k (some p)) :
    (fallback f').held = Function.update (fallback f).held (.node k) (some p) := by
  funext slot
  cases slot with
  | index i => rw [Function.update_of_ne (by simp)]; rfl
  | node m =>
      show f'.pair? m = _
      rw [h]
      by_cases hmk : m = k
      · rw [hmk, Function.update_self, Function.update_self]
      · rw [Function.update_of_ne hmk, Function.update_of_ne fun heq => hmk (Slot.node.inj heq)]
        rfl

/-- Two stores of the same form, which traverse in the same way. -/
structure SameKind (s s' : Store K V) : Prop where
  isFallback : s'.isFallback = s.isFallback
  byAccess : s'.byAccess = s.byAccess
  isPacked : s'.isPacked = s.isPacked

theorem SameKind.refl (s : Store K V) : s.SameKind s := ⟨rfl, rfl, rfl⟩

theorem SameKind.trans {s s' s'' : Store K V} (h : s.SameKind s') (h' : s'.SameKind s'') : s.SameKind s'' :=
  ⟨h'.isFallback.trans h.isFallback, h'.byAccess.trans h.byAccess, h'.isPacked.trans h.isPacked⟩

theorem sameKind_table {t t' : Table K V} (h : t.order.SameKind t'.order) :
    (table t).SameKind (table t') := ⟨rfl, h.1, h.2⟩

theorem sameKind_fallback {f f' : Fallback K V} (h : f'.byAccess = f.byAccess) :
    (fallback f).SameKind (fallback f') := ⟨rfl, h, rfl⟩

/-- Two stores of the same form which file under the same hashes. The chains of tables are not compared, because a table
    finds what is there whatever its chains are. -/
def SameFiles : Store K V → Store K V → Prop
  | .table _, .table _ => True
  | .fallback f, .fallback f' => f'.index = f.index ∧ f'.draws = f.draws
  | _, _ => False

theorem SameFiles.refl (s : Store K V) : s.SameFiles s := by
  cases s with
  | table t => trivial
  | fallback f => exact ⟨rfl, rfl⟩

theorem SameFiles.trans {s s' s'' : Store K V} (h : s.SameFiles s') (h' : s'.SameFiles s'') : s.SameFiles s'' := by
  cases s <;> cases s' <;> cases s'' <;> first | trivial | exact h.elim | exact h'.elim | skip
  exact ⟨h'.1.trans h.1, h'.2.trans h.2⟩

variable [BEq K]

/-- The storage is sound, and this is its traversal order. -/
def Sound (hashing : Hashing K) : Store K V → List Slot → Prop
  | .table t, slots => ∃ is, slots = is.map .index ∧ t.Sound is ∧ t.Hashed hashing.stored
  | .fallback f, slots => ∃ ss, slots = ss.map .node ∧ f.Sound ss ∧ hashing.secondary.Left f.draws

theorem index_injective : Function.Injective Slot.index := fun _ _ h => Slot.index.inj h

theorem node_injective : Function.Injective Slot.node := fun _ _ h => Slot.node.inj h

namespace Sound

variable {hashing : Hashing K} {s : Store K V} {slots as bs : List Slot} {slot : Slot} {p : K × V}

/-! ## The two forms -/

/-- Sound storage in a table: the slots are indices, which the table has in order. -/
theorem exists_indices {t : Table K V} (h : s.Sound hashing slots) (hs : s = .table t) :
    ∃ is, slots = is.map .index ∧ t.Sound is ∧ t.Hashed hashing.stored := by
  subst hs
  exact h

/-- Sound storage in a fallback: the slots are those of its nodes, in order. -/
theorem exists_nodes {f : Fallback K V} (h : s.Sound hashing slots) (hs : s = .fallback f) :
    ∃ ss, slots = ss.map .node ∧ f.Sound ss ∧ hashing.secondary.Left f.draws := by
  subst hs
  exact h

/-! ## Slots -/

/-- No slot is traversed twice. -/
theorem nodup (h : s.Sound hashing slots) : slots.Nodup := by
  cases s with
  | table t =>
      obtain ⟨is, rfl, ht, -⟩ := h
      exact ht.order.nodup.map index_injective
  | fallback f =>
      obtain ⟨ss, rfl, hf, -⟩ := h
      exact hf.nodup.map node_injective

/-- The slots that are traversed are those that hold an entry. -/
theorem mem_iff (h : s.Sound hashing slots) : slot ∈ slots ↔ ∃ p, s.held slot = some p := by
  cases s with
  | table t =>
      obtain ⟨is, rfl, ht, -⟩ := h
      cases slot with
      | index i =>
          rw [List.mem_map_of_injective index_injective, ht.mem_iff, ← Table.content_isSome_iff,
            ← Option.isSome_iff_exists]
          simp [held, Table.pair?]
      | node k => simp [held]
  | fallback f =>
      obtain ⟨ss, rfl, hf, -⟩ := h
      cases slot with
      | index i => simp [held]
      | node k =>
          rw [List.mem_map_of_injective node_injective, hf.mem_iff, ← Option.isSome_iff_exists]
          simp [held, Fallback.pair?]

/-- As many entries as slots. -/
theorem size_eq (h : s.Sound hashing slots) : s.size = slots.length := by
  cases s with
  | table t =>
      obtain ⟨is, rfl, ht, -⟩ := h
      rw [List.length_map]
      exact ht.order.length_eq.symm
  | fallback f =>
      obtain ⟨ss, rfl, hf, -⟩ := h
      rw [List.length_map]
      exact hf.count

/-! ## Traversing -/

theorem first_eq (h : s.Sound hashing slots) : s.first = slots.head? := by
  cases s with
  | table t =>
      obtain ⟨is, rfl, ht, -⟩ := h
      rw [first, Table.first, ht.order.first_eq, List.head?_map]
  | fallback f =>
      obtain ⟨ss, rfl, hf, -⟩ := h
      rw [first, hf.lists.first_eq, List.head?_map]

theorem last_eq (h : s.Sound hashing slots) : s.last = slots.getLast? := by
  cases s with
  | table t =>
      obtain ⟨is, rfl, ht, -⟩ := h
      rw [last, Table.last, ht.order.last_eq, List.getLast?_map]
  | fallback f =>
      obtain ⟨ss, rfl, hf, -⟩ := h
      rw [last, hf.lists.last_eq, List.getLast?_map]

/-- After a slot comes the one that is behind it. -/
theorem next_eq (h : s.Sound hashing (as ++ slot :: bs)) : s.next slot = .ok bs.head? := by
  cases s with
  | table t =>
      obtain ⟨is, hslots, ht, -⟩ := h
      obtain ⟨js, i, ks, rfl, rfl, rfl, rfl⟩ := map_eq_append_cons hslots.symm
      rw [next, Table.next, ht.order.next_eq, List.head?_map]
      rfl
  | fallback f =>
      obtain ⟨ss, hslots, hf, -⟩ := h
      obtain ⟨js, k, ks, rfl, rfl, rfl, rfl⟩ := map_eq_append_cons hslots.symm
      rw [next, hf.lists.next_eq, List.head?_map]
      rfl

/-- Before a slot comes the one that is in front of it. -/
theorem prev_eq (h : s.Sound hashing (as ++ slot :: bs)) : s.prev slot = .ok as.getLast? := by
  cases s with
  | table t =>
      obtain ⟨is, hslots, ht, -⟩ := h
      obtain ⟨js, i, ks, rfl, rfl, rfl, rfl⟩ := map_eq_append_cons hslots.symm
      rw [prev, Table.prev, ht.order.prev_eq, List.getLast?_map]
      rfl
  | fallback f =>
      obtain ⟨ss, hslots, hf, -⟩ := h
      obtain ⟨js, k, ks, rfl, rfl, rfl, rfl⟩ := map_eq_append_cons hslots.symm
      rw [prev, hf.lists.prev_eq, List.getLast?_map]
      rfl

/-- Walking through the slots gives the traversal. -/
theorem slots_eq (h : s.Sound hashing slots) : s.slots = .ok slots := by
  rw [Store.slots, h.first_eq]
  refine walk_eq (fun cs slot ds heq => ?_) (Nat.le_of_eq h.size_eq.symm)
  exact (heq ▸ h).next_eq

/-- Collecting the entries gives what the slots hold, in order. -/
theorem pairs_eq (h : s.Sound hashing slots) : s.pairs = .ok (slots.filterMap s.held) := by
  cases s with
  | table t =>
      obtain ⟨is, rfl, ht, -⟩ := h
      rw [pairs, ht.pairs_eq, List.filterMap_map]
      rfl
  | fallback f =>
      obtain ⟨ss, rfl, hf, -⟩ := h
      rw [pairs, hf.pairs_eq, List.filterMap_map]
      rfl

/-- References to the entries are given in order. -/
theorem references_eq (h : s.Sound hashing slots) : s.references = .ok slots := by
  cases s with
  | table t =>
      obtain ⟨is, rfl, ht, -⟩ := h
      rw [references, ht.references_eq]
      rfl
  | fallback f =>
      obtain ⟨ss, rfl, hf, -⟩ := h
      rw [references, hf.references_eq]
      rfl

/-- Taking all entries out gives them in order. -/
theorem inOrder_eq (h : s.Sound hashing slots) : s.inOrder = .ok (slots.filterMap s.held) := by
  rw [inOrder, h.slots_eq, Checked.ok_bind]
  refine Checked.mapM_eq_filterMap fun slot hslot => ?_
  obtain ⟨p, hp⟩ := h.mem_iff.mp hslot
  exact ⟨p, hp, pair_eq hp⟩

/-- In no two slots are equal keys, because equal keys have equal hashes. -/
theorem distinct (h : s.Sound hashing slots) (hr : hashing.Respects) {slot' : Slot} {q : K × V}
    (hp : s.held slot = some p) (hq : s.held slot' = some q) (hkey : (p.1 == q.1) = true) : slot = slot' := by
  cases s with
  | table t =>
      obtain ⟨is, rfl, ht, hhash⟩ := h
      cases slot with
      | node k => exact nomatch hp
      | index i =>
          cases slot' with
          | node k => exact nomatch hq
          | index j =>
              obtain ⟨⟨hash, key, value⟩, hi, rfl⟩ := Option.map_eq_some_iff.mp hp
              obtain ⟨⟨hash', key', value'⟩, hj, rfl⟩ := Option.map_eq_some_iff.mp hq
              obtain rfl := hhash hi
              obtain rfl := hhash hj
              -- with equal hashes, the table tells the indices apart by key
              rw [hr.stored hkey] at hi
              rw [ht.distinct hi hj hkey]
  | fallback f =>
      obtain ⟨ss, rfl, hf, hdraws⟩ := h
      cases slot with
      | index i => exact nomatch hp
      | node k =>
          cases slot' with
          | index j => exact nomatch hq
          | node m =>
              obtain ⟨⟨hash, key, value⟩, hi, rfl⟩ := Option.map_eq_some_iff.mp hp
              obtain ⟨⟨hash', key', value'⟩, hj, rfl⟩ := Option.map_eq_some_iff.mp hq
              have hi' := Fallback.label?_eq_some.mpr ⟨value, hi⟩
              have hj' := Fallback.label?_eq_some.mpr ⟨value', hj⟩
              obtain rfl := hf.hashed hi'
              obtain rfl := hf.hashed hj'
              rw [hr.digest hdraws hkey] at hi'
              rw [hf.distinct hi' hj' hkey]

/-- Where equal keys have equal hashes, no two entries have the same key. -/
theorem distinctKeys (h : s.Sound hashing slots) (hr : hashing.Respects) :
    DistinctKeys (slots.filterMap s.held) := by
  refine List.pairwise_filterMap.mpr (h.nodup.imp_of_mem fun {slot slot'} _ _ hne p hp q hq => ?_)
  exact Bool.eq_false_iff.mpr fun hkey => hne (h.distinct hr hp hq hkey)

end Sound

/-! ## Keys and hashes -/

/-- Two keys are looked for under the same hash. -/
def SameHash (hashing : Hashing K) (k k' : K) : Store K V → Prop
  | .table _ => hashing.stored k = hashing.stored k'
  | .fallback f => f.digest k = f.digest k'

variable {hashing : Hashing K} {k k' key : K}

/-- Equal keys are looked up under one hash, in either form. -/
theorem Sound.sameHash {s : Store K V} {slots : List Slot} (h : s.Sound hashing slots) (hr : hashing.Respects)
    (hk : (k == k') = true) : s.SameHash hashing k k' := by
  cases s with
  | table t => exact hr.stored hk
  | fallback f =>
      obtain ⟨ss, -, -, hdraws⟩ := h
      exact hr.digest hdraws hk

/-- Looking for a hash and a key in a table is looking for a key that is stored under this hash. -/
theorem holds_table_iff {t : Table K V} {i : Nat} (hhash : t.Hashed hashing.stored) :
    t.holds (hashing.stored key) key i = true ↔ ∃ stored value, (table t).held (.index i) = some (stored, value) ∧
      (stored == key) = true ∧ (table t).SameHash hashing stored key := by
  rw [Table.holds_iff]
  constructor
  · rintro ⟨stored, value, hc, hkey⟩
    exact ⟨stored, value, by simp [held, Table.pair?, hc], hkey, (hhash hc).symm⟩
  · rintro ⟨stored, value, hheld, hkey, hsame⟩
    obtain ⟨⟨hash, pair⟩, hc, rfl⟩ := Option.map_eq_some_iff.mp hheld
    obtain rfl := hhash hc
    rw [show hashing.stored stored = hashing.stored key from hsame] at hc
    exact ⟨stored, value, hc, hkey⟩

/-- A key that is stored under the hash of an equal one is in a slot of that hash. -/
theorem holds_of_held {f : Fallback K V} {ss : List Backing.Handle} {slot : Backing.Handle} {stored : K} {value : V}
    (hf : f.Sound ss) (hheld : (fallback f).held (.node slot) = some (stored, value)) (hkey : (stored == key) = true)
    (hsame : f.digest stored = f.digest key) : f.Holds key slot := by
  obtain ⟨⟨hash, pair⟩, hc, rfl⟩ := Option.map_eq_some_iff.mp hheld
  have hlabel := Fallback.label?_eq_some.mpr ⟨value, hc⟩
  obtain rfl := hf.hashed hlabel
  rw [hsame] at hlabel
  exact ⟨stored, hlabel, hkey⟩

end Store

end DenseHash
