import DenseHash.Proofs.Container.Growth

/-!
# Inserting

An insertion into a container does to its entries what `Listing.insert` does to a listing. The forms of storage
insert in ways of their own; `becomes_used` and `becomes_added` say what either of them comes to.
-/

namespace DenseHash

/-! ## Listings -/

namespace Listing

variable {K V : Type} [BEq K] {l : Listing K V} {key : K} {value : V}

/-- Inserting does not depend on how a removal would close up. -/
theorem insert_packed (b : Bool) :
    ({ l with packed := b } : Listing K V).insert key value =
      ((l.insert key value).1, { (l.insert key value).2 with packed := b }) := by
  simp only [insert]
  rw [show ({ l with packed := b } : Listing K V).locate? key = l.locate? key from rfl]
  cases l.locate? key <;> rfl

/-- How removals close up does not matter to the changes of a bulk load. -/
theorem extendChanges_packed (b : Bool) (pairs : List (K × V)) :
    extendChanges pairs ({ l with packed := b } : Listing K V) = extendChanges pairs l := by
  induction pairs generalizing l with
  | nil => rfl
  | cons p pairs ih =>
      obtain ⟨key, value⟩ := p
      rw [extendChanges, extendChanges, insert_packed, ih]
      rfl

/-- Inserting pairs one after the other. -/
def insertAll (pairs : List (K × V)) (l : Listing K V) : Listing K V :=
  pairs.foldl (fun l (key, value) => (l.insert key value).2) l

/-- A bulk load keeps the kind of listing. -/
theorem sameKind_insertAll (pairs : List (K × V)) (l : Listing K V) : l.SameKind (insertAll pairs l) := by
  induction pairs generalizing l with
  | nil => exact .refl l
  | cons p pairs ih => exact (sameKind_insert l p.1 p.2).trans (ih _)

/-- How removals close up does not matter to what a bulk load leaves. -/
theorem insertAll_packed (b : Bool) (pairs : List (K × V)) :
    insertAll pairs ({ l with packed := b } : Listing K V) = { insertAll pairs l with packed := b } := by
  induction pairs generalizing l with
  | nil => rfl
  | cons p pairs ih =>
      obtain ⟨key, value⟩ := p
      show insertAll pairs (({ l with packed := b } : Listing K V).insert key value).2 = _
      rw [insert_packed, ih]
      rfl

/-- A new key goes to the end, and that is one change. -/
theorem insert_absent (h : ∀ p ∈ l.pairs, (p.1 == key) = false) (value : V) :
    l.insert key value = (none, { l with pairs := l.pairs ++ [(key, value)] }) ∧
      l.insertChanges key = 1 := by
  rw [insert, insertChanges, locate?_eq_none h]
  exact ⟨rfl, rfl⟩

variable [EquivBEq K] {as bs : List (K × V)} {stored : K} {old : V}

/-- A key that is there gets the value and is used, which is a change if that moves it. -/
theorem insert_present (hd : DistinctKeys l.pairs) (hl : l.pairs = as ++ (stored, old) :: bs)
    (hkey : (stored == key) = true) (value : V) :
    l.insert key value = (some old, { l with pairs := used l.byAccess as (stored, value) bs }) ∧
      l.insertChanges key = (l.byAccess && !bs.isEmpty).toNat := by
  rw [insert, insertChanges, locate?_eq_some hd hl hkey]
  exact ⟨congrArg _ (use_length hl _), useChanges_length hl⟩

end Listing

namespace Container

variable [Backing]

/-- The room to make is a number, or too large for one. -/
theorem roomFor_cases {K V : Type} (c : Container K V) (hint : UInt64) :
    (∃ room, c.roomFor hint = .ok room) ∨ ∃ f, c.roomFor hint = .error f ∧ f.IsLimit := by
  rw [roomFor]
  split
  · exact .inl ⟨hint, rfl⟩
  · split
    · exact .inl ⟨_, rfl⟩
    · exact .inr ⟨_, rfl, trivial⟩

variable {K V : Type} [BEq K] {c c' : Container K V} {slots as bs : List Slot} {slot : Slot}
  {ps : List (K × V)} {key stored : K} {value old : V} {s : Store K V}

namespace Shows

/-- A value was replaced and the entry has been used. -/
theorem becomes_used (h : c.Shows (as ++ slot :: bs) ps) (hp : c.store.held slot = some (stored, old))
    (hkind : c.store.SameKind s) (hsound : s.Sound c.hashing (used c.store.byAccess as slot bs))
    (hheld : s.held = Function.update c.store.held slot (some (stored, value))) :
    c.Becomes (c.store.byAccess && !bs.isEmpty).toNat (as ++ slot :: bs)
      (used c.store.byAccess (as.filterMap c.store.held) (stored, value) (bs.filterMap c.store.held))
      (if c.store.byAccess && !bs.isEmpty then ({ c with store := s } : Container K V).bump
        else { c with store := s }) := by
  have hpairs := h.used_replaced hheld c.store.byAccess
  cases hmoved : (c.store.byAccess && !bs.isEmpty) with
  | true => exact ⟨_, ⟨hsound, hpairs⟩, .counted hkind⟩
  | false =>
      refine ⟨_, ⟨hsound, hpairs⟩, .silent hkind ?_⟩
      rw [used_of_not_moved hmoved]
      exact Store.labels_of_update hp hheld _

/-- A key was added at the end. -/
theorem becomes_added (h : c.Shows slots ps) (hslot : slot ∉ slots) (hkind : c.store.SameKind s)
    (hsound : s.Sound c.hashing (slots ++ [slot]))
    (hheld : s.held = Function.update c.store.held slot (some (key, value))) :
    c.Becomes 1 slots (ps ++ [(key, value)]) ({ c with store := s } : Container K V).bump := by
  refine ⟨slots ++ [slot], ⟨hsound, ?_⟩, .counted hkind⟩
  show (slots ++ [slot]).filterMap s.held = _
  rw [hheld, filterMap_update_append_singleton hslot, h.pairs]

/-- In a table, that is the index after the last one. -/
theorem becomes_added_table {t t' : Table K V} {is : List Nat} (h : c.Shows (is.map .index) ps)
    (hs : c.store = .table t)
    (ht : t.Sound is) (hhash : t.Hashed c.hashing.stored) (hkind : t.order.SameKind t'.order)
    (hsound : t'.Sound (is ++ [t.size]))
    (hcontent : t'.content = Function.update t.content t.size (some (c.storedHash key, key, value))) :
    c.Becomes 1 (is.map .index) (ps ++ [(key, value)]) ({ c with store := .table t' } : Container K V).bump := by
  have hslot : Slot.index t.size ∉ is.map Slot.index := by
    rw [List.mem_map_of_injective Store.index_injective, ht.mem_iff]
    exact Nat.lt_irrefl _
  have hheld := Store.held_table_update (Table.pair?_update hcontent)
  rw [← hs] at hheld
  refine h.becomes_added hslot (hs ▸ Store.sameKind_table hkind)
    ⟨is ++ [t.size], ?_, hsound, hhash.update rfl hcontent⟩ hheld
  rw [List.map_append]
  rfl

/-- What an operation does to a container that answers and shows what an insertion into its listing does. -/
def Inserts (c : Container K V) (slots : List Slot) (ps : List (K × V)) (key : K) (value : V)
    (a : Option V) (c' : Container K V) : Prop :=
  ((c.listingOf ps).insert key value).1 = a ∧
    c.Becomes ((c.listingOf ps).insertChanges key) slots ((c.listingOf ps).insert key value).2.pairs c'

/-- A new key. -/
theorem inserts_absent (hnew : ∀ p ∈ ps, (p.1 == key) = false)
    (h : c.Becomes 1 slots (ps ++ [(key, value)]) c') : Inserts c slots ps key value none c' := by
  obtain ⟨hinsert, hchanges⟩ := Listing.insert_absent (l := c.listingOf ps) hnew value
  rw [Inserts, hinsert, hchanges]
  exact ⟨rfl, h⟩

/-- A key that the table does not hold is in no entry. -/
theorem missing_of_table {t : Table K V} (h : c.Shows slots ps) (hr : c.hashing.Respects) (hs : c.store = .table t)
    (absent : ∀ i, t.holds (c.storedHash key) key i = false) : ∀ p ∈ ps, (p.1 == key) = false := by
  obtain ⟨is, -, -, hhash⟩ := h.sound.exists_indices hs
  refine h.missing fun slot stored old hheld => Bool.eq_false_iff.mpr fun hkey => ?_
  rw [hs] at hheld
  cases slot with
  | node k => exact absurd hheld.symm (Option.some_ne_none _)
  | index i =>
      have hholds := (Store.holds_table_iff hhash).mpr ⟨stored, old, hheld, hkey, hr.stored hkey⟩
      exact absurd ((absent i).symm.trans hholds) Bool.false_ne_true

/-- A key that the fallback does not hold is in no entry. -/
theorem missing_of_fallback {f : Fallback K V} (h : c.Shows slots ps) (hr : c.hashing.Respects)
    (hs : c.store = .fallback f) (absent : ∀ k, ¬f.Holds key k) : ∀ p ∈ ps, (p.1 == key) = false := by
  obtain ⟨ss, -, hf, hdraws⟩ := h.sound.exists_nodes hs
  refine h.missing fun slot stored old hheld => Bool.eq_false_iff.mpr fun hkey => ?_
  rw [hs] at hheld
  cases slot with
  | index i => exact absurd hheld.symm (Option.some_ne_none _)
  | node k => exact absent k (Store.holds_of_held hf hheld hkey (hr.digest hdraws hkey))

variable [EquivBEq K]

/-- A key that is there. -/
theorem inserts_present (h : c.Shows (as ++ slot :: bs) ps) (hr : c.hashing.Respects)
    (hp : c.store.held slot = some (stored, old)) (hkey : (stored == key) = true)
    (hkind : c.store.SameKind s) (hsound : s.Sound c.hashing (used c.store.byAccess as slot bs))
    (hheld : s.held = Function.update c.store.held slot (some (stored, value))) :
    Inserts c (as ++ slot :: bs) ps key value (some old)
      (if c.store.byAccess && !bs.isEmpty then ({ c with store := s } : Container K V).bump
        else { c with store := s }) := by
  have hbecomes := h.becomes_used hp hkind hsound hheld
  obtain ⟨p, hp', hps⟩ := h.split
  rw [hp] at hp'
  cases hp'
  obtain ⟨hinsert, hchanges⟩ := Listing.insert_present (l := c.listingOf ps) (h.distinctKeys hr) hps
    hkey value
  rw [Inserts, hinsert, hchanges, h.isEmpty_behind]
  exact ⟨rfl, hbecomes⟩

/-- Inserting into a table: the outcome is sorted by whether the key was there, and the guard is called after it. -/
theorem insert_table_meets {t : Table K V} (h : c.Shows slots ps) (hr : c.hashing.Respects)
    (hs : c.store = .table t) (key : K) (value : V) :
    (c.insert key value).Meets (Inserts c slots ps key value) := by
  obtain ⟨is, rfl, ht, hhash⟩ := h.sound.exists_indices hs
  rw [Container.insert]
  rw [hs]
  refine Reply.Meets.andThen (P := fun r c₁ => ∃ t', c₁ = { c with store := .table t' } ∧
    t.Inserts is (c.storedHash key) key value r t' ∧ t.order.SameKind t'.order) ?_ ?_
  · exact Reply.Meets.within ((ht.insert_meets _ key value).imp fun r t' hr' => ⟨t', rfl, hr'⟩)
  · rintro r - ⟨t', rfl, hinserts, hkind⟩
    cases hinserts with
    | @updated as bs i stored old _ split found same sound content =>
        subst split
        refine Reply.meets_ok ?_
        have hheld := Store.held_table_update (Table.pair?_update content)
        rw [← hs] at hheld
        have hused : (Store.table t').Sound c.hashing
            (used c.store.byAccess (as.map .index) (.index i) (bs.map .index)) := by
          rw [hs]
          exact ⟨_, (map_used _ _ as i bs).symm, sound, hhash.update (hhash found) content⟩
        have hp : c.store.held (.index i) = some (stored, old) := by
          rw [hs]
          simp [Store.held, Table.pair?, found]
        rw [List.map_append, List.map_cons] at h ⊢
        have hpresent := h.inserts_present hr hp same (hs ▸ Store.sameKind_table hkind) hused hheld
        rw [hs, List.isEmpty_map] at hpresent
        exact hpresent
    | @added chain resized _ absent sound content =>
        have hnew := h.missing_of_table hr hs absent
        have hadded := h.becomes_added_table hs ht hhash hkind sound content
        -- the guard may step in afterwards
        refine Reply.Meets.map (Reply.Gives.meets ?_)
        split
        · exact (hadded.flood_gives hr chain).imp fun _ c' hc' => inserts_absent hnew hc'
        · split
          · exact (hadded.inspect_gives hr).imp fun _ c' hc' => inserts_absent hnew hc'
          · exact Reply.gives_ok (inserts_absent hnew hadded)

/-- Inserting into the fallback, where no guard is called. -/
theorem insert_fallback_meets {f : Fallback K V} (h : c.Shows slots ps) (hr : c.hashing.Respects)
    (hs : c.store = .fallback f) (key : K) (value : V) :
    (c.insert key value).Meets (Inserts c slots ps key value) := by
  obtain ⟨ss, rfl, hf, hdraws⟩ := h.sound.exists_nodes hs
  obtain ⟨r, f', hinsert, hinserts, hdraws', haccess⟩ := hf.insert_eq key value
  have hkind : c.store.SameKind (.fallback f') := hs ▸ Store.sameKind_fallback haccess
  rw [Container.insert]
  rw [hs]
  dsimp only
  rw [hinsert]
  cases hinserts with
  | @updated as bs k hash stored old _ split found same sound content =>
      subst split
      refine Reply.meets_ok ?_
      have hheld := Store.held_fallback_update (Fallback.pair?_update content)
      rw [← hs] at hheld
      have hused : (Store.fallback f').Sound c.hashing
          (used c.store.byAccess (as.map .node) (.node k) (bs.map .node)) := by
        rw [hs]
        exact ⟨_, (map_used _ _ as k bs).symm, sound, hdraws'.symm ▸ hdraws⟩
      have hp : c.store.held (.node k) = some (stored, old) := by
        rw [hs]
        simp [Store.held, Fallback.pair?, found]
      rw [List.map_append, List.map_cons] at h ⊢
      have hpresent := h.inserts_present hr hp same hkind hused hheld
      rw [hs, List.isEmpty_map] at hpresent
      exact hpresent
  | added absent sound content =>
      -- a fresh node is filed, and no guard watches the fallback
      have hnew := h.missing_of_fallback hr hs absent
      have hslot : Slot.node f.fresh ∉ ss.map Slot.node := by
        rw [List.mem_map_of_injective Store.node_injective]
        exact hf.vacant
      have hheld := Store.held_fallback_update (Fallback.pair?_update content)
      rw [← hs] at hheld
      refine Reply.meets_ok (inserts_absent hnew (h.becomes_added hslot hkind
        ⟨ss ++ [f.fresh], ?_, sound, hdraws'.symm ▸ hdraws⟩ hheld))
      rw [List.map_append]
      rfl

/-- Inserting, in whatever form of storage. -/
theorem insert_meets (h : c.Shows slots ps) (hr : c.hashing.Respects) (key : K) (value : V) :
    (c.insert key value).Meets (Inserts c slots ps key value) := by
  cases hs : c.store with
  | table t => exact h.insert_table_meets hr hs key value
  | fallback f => exact h.insert_fallback_meets hr hs key value

/-! ## Inserting many -/

/-- Pairs are inserted into a container as they are into its listing. -/
theorem forEach_insert_meets (h : c.Shows slots ps) (hr : c.hashing.Respects) (pairs : List (K × V)) :
    (Reply.forEach (fun (key, value) c => (c.insert key value).map fun _ => ()) pairs c).Meets fun _ c' =>
      c.Becomes (Listing.extendChanges pairs (c.listingOf ps)) slots
        (Listing.insertAll pairs (c.listingOf ps)).pairs c' := by
  induction pairs generalizing c slots ps with
  | nil => exact Reply.meets_ok h.becomes_self
  | cons p pairs ih =>
      obtain ⟨key, value⟩ := p
      have hinsert : ((c.insert key value).map fun _ => ()).Meets fun _ c' =>
          c.Becomes ((c.listingOf ps).insertChanges key) slots
            ((c.listingOf ps).insert key value).2.pairs c' :=
        Reply.Meets.map ((h.insert_meets hr key value).imp fun _ _ hc' => hc'.2)
      refine Reply.Meets.andThen hinsert fun _ c₁ hc₁ => ?_
      obtain ⟨slots₁, hshows, hev⟩ := hc₁
      -- the container may have moved to the fallback, but inserting does not see that
      have hlisting : c₁.listingOf ((c.listingOf ps).insert key value).2.pairs =
          { ((c.listingOf ps).insert key value).2 with packed := c₁.store.isPacked } := by
        have haccess : c₁.store.byAccess = ((c.listingOf ps).insert key value).2.byAccess :=
          hev.byAccess.trans (Listing.sameKind_insert (c.listingOf ps) key value).byAccess.symm
        rw [listingOf, haccess]
      refine (ih hshows (hev.hashing ▸ hr)).imp fun _ c₂ hc₂ => ?_
      obtain ⟨slots₂, hshows₂, hev₂⟩ := hc₂
      rw [hlisting, Listing.insertAll_packed] at hshows₂
      rw [hlisting, Listing.extendChanges_packed] at hev₂
      exact ⟨slots₂, hshows₂, hev.trans hev₂⟩

/-- A bulk load leaves what the insertions leave, one after the other. -/
theorem extend_meets (h : c.Shows slots ps) (hr : c.hashing.Respects) (hint : UInt64)
    (pairs : List (K × V)) :
    (c.extend hint pairs).Meets fun _ c' =>
      c.Becomes (Listing.extendChanges pairs (c.listingOf ps)) slots
        (Listing.insertAll pairs (c.listingOf ps)).pairs c' := by
  rw [extend]
  rcases c.roomFor_cases hint with ⟨room, hroom⟩ | ⟨f, hf, hlimit⟩
  · rw [hroom]
    refine Reply.Meets.andThen (h.reserve_meets hr room) fun _ c₁ hc₁ => ?_
    obtain ⟨slots₁, hshows₁, hev₁⟩ := hc₁
    have hr₁ : c₁.hashing.Respects := hev₁.hashing ▸ hr
    have hlisting : c₁.listingOf ps = { c.listingOf ps with packed := c₁.store.isPacked } := by
      rw [listingOf, hev₁.byAccess]
      rfl
    refine Reply.Meets.andThen (hshows₁.forEach_insert_meets hr₁ pairs) fun _ c₂ hc₂ => ?_
    refine ((hc₂.inspect_gives hr₁).imp fun _ c₃ hc₃ => ?_).meets
    obtain ⟨slots₃, hshows₃, hev₃⟩ := hc₃
    rw [hlisting, Listing.insertAll_packed] at hshows₃
    rw [hlisting, Listing.extendChanges_packed] at hev₃
    have hev := hev₁.trans hev₃
    rw [Nat.zero_add] at hev
    exact ⟨slots₃, hshows₃, hev⟩
  · rw [hf]
    exact Reply.meets_fail hlimit

end Shows

end Container

end DenseHash
