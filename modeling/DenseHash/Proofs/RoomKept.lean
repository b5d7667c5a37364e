import DenseHash.Proofs.Container.Stored
import DenseHash.Proofs.Requests
import DenseHash.Proofs.Table.Spare

/-!
# Room that was asked for is kept

A request for room, and the expected size of the settings, are promises about the insertions that come after: so many new
keys are taken without rebuilding the buckets.

* **`newKeys`** counts the insertions of new keys in a run. Whatever else is done at single entries in between, updates,
  lookups and removals, is free.
* **`HasRoom n`** is the promise: every run with at most `n` new keys returns and rebuilds nothing. A table keeps the
  number of its buckets; if it had none it makes its first ones, as few as are needed for what is expected.
* **`Spares n`** is the invariant: a table has room to spare for `n` entries, and a new key takes one place
  (`Spares.apply_returnsUnresized` is the step, `Spares.run_returnsUnresized` the run). A fallback has no buckets, so
  nothing is asked of it.

A request is granted by other code where there are buckets than where there are none; `Table.Sound.reserve_spare` covers
both. Nothing is asked of the hash functions: what the flood guard moves is taken in by the fallback.
-/

namespace DenseHash

variable {K V α : Type}

namespace Container

/-- An operation at entries: it neither asks for room nor gives any up. -/
def AtEntries : Operation K V → Prop
  | .extend _ _ => False
  | .reserve _ => False
  | .shrink => False
  | _ => True

section Roomy

variable [Backing] [BEq K]

/-- Whether an operation inserts a key that is not there. -/
def adds (op : Operation K V) (c : Container K V) : Bool :=
  match op with
  | .insert key _ =>
    match c.contains key with
    | .ok false => true
    | _ => false
  | _ => false

/-- The insertions of new keys in a run. -/
def newKeys : List (Operation K V) → Container K V → Nat
  | [], _ => 0
  | op :: ops, c => (c.adds op).toNat + newKeys ops (c.apply op).state

/-- Up to `n` new keys are taken, in any run of operations at entries: it returns and rebuilds nothing, and as long as the
    entries are in a table it has the buckets that it had, or the first ones that it was to have. -/
def HasRoom (n : Nat) (c : Container K V) : Prop :=
  ∀ ops, (∀ op ∈ ops, AtEntries op) → newKeys ops c ≤ n →
    (∃ answers, (c.run ops).result = .ok answers) ∧ (c.run ops).Unresized ∧
      ∀ t', (c.run ops).state.store = .table t' → ∃ t, c.store = .table t ∧
        (t'.buckets = t.buckets ∨ t.buckets = 0 ∧ IsLeast (sizesFor t.expected t.loadFactor) t'.buckets)

/-- The storage is sound, and a table has room to spare. -/
structure Spares (room : Nat) (c : Container K V) : Prop where
  stored : c.Stored
  spare : c.OnTable fun t => t.Spare room

/-- A table that is left has the buckets that there were. -/
def KeepsBuckets (c c' : Container K V) : Prop :=
  ∀ t', c'.store = .table t' → ∃ t, c.store = .table t ∧ t.KeepsBuckets t'

variable {c c' c'' : Container K V} {t t' : Table K V} {room : Nat} {key : K} {value : V} {op : Operation K V}

omit [BEq K] in
theorem keepsBuckets_self (h : c'.store = c.store) : c.KeepsBuckets c' :=
  fun t' ht' => ⟨t', h ▸ ht', .refl t'⟩

omit [BEq K] in
theorem KeepsBuckets.trans (h : c.KeepsBuckets c') (h' : c'.KeepsBuckets c'') : c.KeepsBuckets c'' := by
  intro t'' ht''
  obtain ⟨t', ht', hkeeps'⟩ := h' t'' ht''
  obtain ⟨t, ht, hkeeps⟩ := h t' ht'
  exact ⟨t, ht, hkeeps.trans hkeeps'⟩

omit [BEq K] in
theorem keepsBuckets_table (hs : c.store = .table t) (hs' : c'.store = .table t') (h : t.KeepsBuckets t') :
    c.KeepsBuckets c' := by
  intro u hu
  obtain rfl := Store.table.inj (hs'.symm.trans hu)
  exact ⟨t, hs, h⟩

omit [BEq K] in
/-- Without a table there is nothing to rebuild. -/
theorem keepsBuckets_fallback {f : Fallback K V} (hs' : c'.store = .fallback f) : c.KeepsBuckets c' := by
  intro t' ht'
  rw [hs'] at ht'
  cases ht'

/-- What keeps the form of storage rebuilds nothing. -/
theorem KeepsForm.keepsBuckets {r : Reply (Container K V) α} (h : KeepsForm c r) : c.KeepsBuckets r.state := by
  intro t' ht'
  have hform := h.form
  rw [ht'] at hform
  cases hs : c.store with
  | fallback f =>
      rw [hs] at hform
      cases hform
  | table t =>
      rw [hs] at hform
      cases hform with
      | table hadds => exact ⟨t, rfl, hadds.keepsBuckets⟩

namespace Spares

theorem intact (h : c.Spares room) : c.store.Intact := h.spare.intact fun ht => ht.intact

/-- Room for more is room for less. -/
theorem mono (h : c.Spares room) {less : Nat} (hle : less ≤ room) : c.Spares less :=
  ⟨h.stored, fun t ht => (h.spare t ht).mono hle⟩

/-- What keeps the form of storage takes no place. -/
theorem of_keepsForm {r : Reply (Container K V) α} (h : c.Spares room) (hform : KeepsForm c r)
    (hstored : r.state.Stored) :
    r.state.Spares room :=
  ⟨hstored, hform.onTable (fun ht hadds => ht.of_addsNothing hadds) h.spare⟩

variable [EquivBEq K]

/-! ## One operation -/

/-- The guard that watches the chains rebuilds nothing. -/
theorem flood_returnsUnresized (h : c.Spares room) (hs : c.store = .table t) (chain : Nat) :
    (c.flood chain).ReturnsUnresized fun c' => c'.Spares room ∧ c.KeepsBuckets c' := by
  obtain ⟨f, ss, hflood, hf, hdraws⟩ := flood_eq hs (h.spare t hs).intact chain
  rw [hflood]
  refine ⟨⟨(), rfl⟩, fun before after entries hmem => ?_, ⟨⟨ss.map .node, ss, rfl, hf, hdraws⟩, ?_⟩, ?_⟩
  · cases List.mem_singleton.mp hmem
  · exact onTable_fallback rfl
  · exact keepsBuckets_fallback rfl

/-- An insertion into a table takes one place if the key is new. -/
theorem insert_table_returnsUnresized (hs : c.store = .table t)
    (h : c.Spares (room + (c.adds (.insert key value)).toNat)) :
    (c.insert key value).ReturnsUnresized fun c' => c'.Spares room ∧ c.KeepsBuckets c' := by
  have hstored := ((stored_invariant c.hashing).insertTable ⟨rfl, h.stored⟩ hs key value).2
  have hspare := h.spare t hs
  obtain ⟨is, hsound⟩ := hspare.intact
  obtain ⟨r, -, hiff⟩ := hsound.find_eq (c.storedHash key) key
  rw [Container.insert]
  rw [hs]
  let c₁ : Container K V := { c with store := .table (t.insert (c.storedHash key) key value).state }
  cases r with
  | some i =>
      have hholds := (hiff i).mp rfl
      obtain ⟨old, moved, hok, hadds, hevents⟩ := hspare.insert_present value hholds
      have hc₁ : c₁.Spares room :=
        ⟨hstored, onTable_table ((hspare.of_addsNothing hadds).mono (Nat.le_add_right _ _))⟩
      have hkeeps : c.KeepsBuckets c₁ := keepsBuckets_table hs rfl hadds.keepsBuckets
      refine Reply.ReturnsUnresized.andThen (P := fun _ => True) ⟨⟨_, hok⟩, Reply.unresized_of_nil hevents, trivial⟩ ?_
      intro outcome houtcome
      obtain rfl := Except.ok.inj (hok.symm.trans houtcome)
      cases moved
      · exact Reply.returnsUnresized_ok ⟨hc₁, hkeeps⟩
      · exact Reply.returnsUnresized_ok ⟨⟨hc₁.stored, hc₁.spare⟩, hkeeps⟩
  | none =>
      have habsent : ∀ i, t.holds (c.storedHash key) key i = false := fun i =>
        Bool.eq_false_iff.mpr fun hi => by cases (hiff i).mpr hi
      have hadds : c.adds (.insert key value) = true := by
        rw [adds, contains_of_absent hs hsound habsent]
      rw [hadds] at hspare
      obtain ⟨chain, hok, hspare', hkeeps', hevents⟩ := hspare.insert_new value habsent
      have hc₁ : c₁.bump.Spares room := ⟨hstored, onTable_table (c := c) hspare'⟩
      have hkeeps : c.KeepsBuckets c₁.bump := keepsBuckets_table hs rfl hkeeps'
      refine Reply.ReturnsUnresized.andThen (P := fun _ => True) ⟨⟨_, hok⟩, Reply.unresized_of_nil hevents, trivial⟩ ?_
      intro outcome houtcome
      obtain rfl := Except.ok.inj (hok.symm.trans houtcome)
      refine Reply.ReturnsUnresized.map ?_ _
      -- the table did not grow, so only the chain of the key is looked at
      split
      · obtain ⟨hresult, hunresized, hspares, hkeeps''⟩ := hc₁.flood_returnsUnresized rfl chain
        exact ⟨hresult, hunresized, hspares, hkeeps.trans hkeeps''⟩
      · exact Reply.returnsUnresized_ok ⟨hc₁, hkeeps⟩

/-- One step: a new key takes one place, and nothing else takes any. -/
theorem apply_returnsUnresized (h : c.Spares (room + (c.adds op).toNat)) (hop : AtEntries op) :
    (c.apply op).ReturnsUnresized fun c' => c'.Spares room ∧ c.KeepsBuckets c' := by
  by_cases hrebuild : MayRebuild op
  · cases op with
    | insert key value =>
        cases hs : c.store with
        | table t => exact (h.insert_table_returnsUnresized hs).map _
        | fallback f =>
            obtain ⟨old, hok, hstill⟩ := h.stored.insert_fallback_stillStored hs key value
            have hform := insert_fallback_keepsForm hs key value
            have hspares := h.of_keepsForm hform hstill.stored
            exact Reply.ReturnsUnresized.map ⟨⟨old, hok⟩, Reply.unresized_of_nil hform.events,
              hspares.mono (Nat.le_add_right _ _), hform.keepsBuckets⟩ _
    | extend hint pairs => exact hop.elim
    | reserve more => exact hop.elim
    | shrink => exact hop.elim
    | _ => exact hrebuild.elim
  · obtain ⟨slots, ps, hshows⟩ := h.stored.shows
    obtain ⟨a, hok, hstill⟩ := hshows.apply_stillStored hrebuild
    have hform := apply_keepsForm h.intact hrebuild
    have hspares := h.of_keepsForm hform hstill.stored
    exact ⟨⟨a, hok⟩, Reply.unresized_of_nil hform.events, hspares.mono (Nat.le_add_right _ _), hform.keepsBuckets⟩

/-! ## Many operations -/

/-- A whole run: the new keys in it take the places that were to spare. -/
theorem run_returnsUnresized {ops : List (Operation K V)} (h : c.Spares (room + newKeys ops c))
    (hops : ∀ op ∈ ops, AtEntries op) :
    (c.run ops).ReturnsUnresized fun c' => c'.Spares room ∧ c.KeepsBuckets c' := by
  induction ops generalizing c with
  | nil => exact Reply.returnsUnresized_ok ⟨h, keepsBuckets_self rfl⟩
  | cons op ops ih =>
      rw [newKeys, Nat.add_comm (c.adds op).toNat, ← Nat.add_assoc] at h
      have hfirst := h.apply_returnsUnresized (hops op List.mem_cons_self)
      obtain ⟨hspares, hkeeps⟩ := hfirst.state
      refine hfirst.andThen fun a _ => Reply.ReturnsUnresized.map ?_ _
      obtain ⟨hresult, hunresized, hspares', hkeeps'⟩ := ih hspares fun o ho => hops o (List.mem_cons_of_mem op ho)
      exact ⟨hresult, hunresized, hspares', hkeeps.trans hkeeps'⟩

/-- What is to spare is room that is kept. -/
theorem hasRoom (h : c.Spares room) : c.HasRoom room := by
  intro ops hops hnew
  have hspares : c.Spares (0 + newKeys ops c) := h.mono (by omega)
  obtain ⟨hresult, hunresized, -, hkeeps⟩ := run_returnsUnresized hspares hops
  refine ⟨hresult, hunresized, fun t' ht' => ?_⟩
  obtain ⟨t, ht, hbuckets⟩ := hkeeps t' ht'
  refine ⟨t, ht, ?_⟩
  rcases hbuckets.buckets with hsame | ⟨hzero, hfirst⟩
  · exact .inl hsame
  · exact .inr ⟨hzero, bucketsFor_isLeast (h.spare t ht).isLoad hfirst⟩

end Spares

/-! ## Promises -/

variable [EquivBEq K] {settings : Settings} {order : Order} {hashing : Hashing K} {owner : OwnerId} {d : Container K V}
  {events : List Event}

/-- A request that the largest table can meet is granted, and makes room to spare. -/
theorem Expects.reserve_spares {loadFactor : Binary64} (h : c.Expects loadFactor (capacityOf maxBuckets loadFactor))
    (hstored : c.Stored) (hlf : loadFactor.IsLoad) (hs : c.store = .table t) {more : UInt64}
    (hfits : c.size + more.toNat ≤ capacityOf maxBuckets loadFactor) :
    (c.reserve more).result = .ok () ∧ (c.reserve more).state.Spares more.toNat := by
  obtain ⟨hintact, rfl, hexpected⟩ := h t hs
  obtain ⟨is, hsound⟩ := id hintact
  rw [size, hs] at hfits
  obtain ⟨hok, hspare⟩ := hsound.reserve_spare hlf hexpected hfits
  refine ⟨?_, ((stored_invariant c.hashing).reserve ⟨rfl, hstored⟩ trivial).2, ?_⟩
  · cases hresult : (c.reserve more).result with
    | ok u => rfl
    | error f =>
        rw [(reserve_error_iff hs hintact).mp hresult] at hok
        cases hok
  · have hreserved : OnTable (fun t : Table K V => t.Spare more.toNat)
        { c with store := .table (t.reserve more.toNat).state } := onTable_table hspare
    show (c.reserve more).Leaves (OnTable fun t : Table K V => t.Spare more.toNat)
    rw [Container.reserve]
    rw [hs]
    refine Reply.Leaves.andThen (Reply.Leaves.within hreserved) fun _ _ h' => ?_
    split
    · exact h'.inspect
    · exact h'

omit [EquivBEq K] in
/-- A container that was just made has room to spare for what its settings expect. -/
theorem spares_of_make (horder : order.Fresh) (hmake : make settings order hashing owner = .ok c) :
    c.Spares settings.expectedSize.toNat := by
  obtain ⟨hlf, -, hexpected⟩ := Settings.of_check (eq_of_make hmake).1
  refine ⟨⟨[], (shows_of_make horder hmake).sound⟩, fun t ht => ?_⟩
  obtain ⟨-, rfl⟩ := eq_of_make hmake
  obtain rfl := Store.table.inj ht
  exact ⟨⟨[], Table.sound_empty horder.lists _ _⟩, hlf, fun hb => absurd rfl hb, fun _ => ⟨Nat.le_refl _, hexpected⟩⟩

/-- Requests and expected sizes keep what they promise, for every kind of container, every hash function and all settings
    that are accepted. If the largest table can hold so many entries more, a request for `more` returns, and then `more`
    new keys are taken without rebuilding the buckets; a new container takes as many as it was made for. Of the requests
    made before, only those made while there were no buckets have to be within the same bound. -/
theorem room_asked_for_is_kept (horder : order.Fresh) (hmake : make settings order hashing owner = .ok c)
    (hreach : c.Reaches (Fits ⌊2 ^ 30 * settings.loadFactor.value⌋₊) events d) (hd : d.store = .table t) {more : UInt64}
    (hfits : d.size + more.toNat ≤ ⌊2 ^ 30 * settings.loadFactor.value⌋₊) :
    (d.reserve more).result = .ok () ∧ (d.reserve more).state.HasRoom more.toNat ∧
      c.HasRoom settings.expectedSize.toNat := by
  obtain ⟨hlf, -, hexpected⟩ := Settings.of_check (eq_of_make hmake).1
  have hbound : capacityOf maxBuckets settings.loadFactor = ⌊2 ^ 30 * settings.loadFactor.value⌋₊ :=
    capacityOf_two_pow (k := 30) hlf (by decide)
  rw [← hbound] at hreach hfits
  obtain ⟨-, slots, ps, hshows⟩ := hreach.exists_shows horder hmake
  have hexpects := hreach.expects (expects_of_make horder hmake hexpected)
  obtain ⟨hok, hspares⟩ := hexpects.reserve_spares ⟨slots, hshows.sound⟩ hlf hd hfits
  exact ⟨hok, hspares.hasRoom, (spares_of_make horder hmake).hasRoom⟩

end Roomy

/-- A container with one entry is asked for room for three more. They fill the eight buckets that it gets. -/
theorem room_asked_for_is_kept_three :
    ∃ (c d : Container Nat Nat) (t t' : Table Nat Nat),
      make {} .dense ⟨fun _ => 0, ⟨fun _ _ => 0⟩⟩ 0 = .ok c ∧
        c.Reaches (Fits ⌊2 ^ 30 * Binary64.threeQuarters.value⌋₊) [] d ∧
        d.store = .table t ∧ t.buckets = 4 ∧ d.size + 3 ≤ ⌊2 ^ 30 * Binary64.threeQuarters.value⌋₊ ∧
          (d.reserve 3).state.store = .table t' ∧ t'.buckets = 8 ∧ (d.reserve 3).state.HasRoom 3 := by
  have hbound : capacityOf maxBuckets .threeQuarters = ⌊2 ^ 30 * Binary64.threeQuarters.value⌋₊ :=
    capacityOf_two_pow (k := 30) ⟨by decide +kernel, by decide +kernel⟩ (by decide)
  have hreach : ((⟨⟨fun _ => 0, ⟨fun _ _ => 0⟩⟩, .table (.empty .dense .threeQuarters 0), 9, 0, 0⟩ :
      Container Nat Nat)).Reaches (Fits ⌊2 ^ 30 * Binary64.threeQuarters.value⌋₊) [] _ :=
    .apply .start (.insert 1 10) fun _ _ _ => Nat.zero_le _
  have hmake : (make {} .dense ⟨fun _ => 0, ⟨fun _ _ => 0⟩⟩ 0 : Except _ (Container Nat Nat)) = .ok _ := rfl
  have hfits : 1 + (3 : UInt64).toNat ≤ ⌊2 ^ 30 * Binary64.threeQuarters.value⌋₊ := by
    rw [← hbound]
    decide +kernel
  exact ⟨_, _, _, _, hmake, hreach, rfl, rfl, hfits, rfl, rfl,
    (room_asked_for_is_kept .dense hmake hreach rfl hfits).2.1⟩

end Container

end DenseHash
