import DenseHash.Proofs.Container.KeepsForm
import DenseHash.Proofs.Fallback.Removal
import DenseHash.Proofs.Table.Traversal

/-!
# The flood guard

`alarm?` says when the guard steps in, and with which warning, from what is stored before an operation: an insertion
of a new key sets it off if the bucket of the key holds too many entries then, counted in the buckets that are there;
shrinking sets it off if a bucket of the shrunk table holds too many. Nothing else does.

A container is *guarded* if no bucket of its table holds too many entries. `apply_warnsExactly` is one step: an
operation on a guarded container that gives a result leaves a guarded container, logs the warning of its alarm and no
other, and leaves a fallback exactly if there was one before or there was an alarm. So the measurements that are made after
buckets have been added, and at the end of `extend`, never find anything.
-/

namespace DenseHash

variable [Backing] {K V α β : Type}

/-- What the guard sees to. -/
structure Table.Guarded [BEq K] (t : Table K V) (limit : Nat) : Prop where
  intact : t.Intact
  isLoad : t.loadFactor.IsLoad
  short : t.Short limit

namespace Container

variable [BEq K]

/-- No bucket of the table holds more entries than the limit allows. -/
def Guarded (c : Container K V) : Prop := ∀ t, c.store = .table t → t.Guarded c.maxChain

omit [BEq K] in
theorem exists_fallback_of_isFallback {c : Container K V} (h : c.isFallback = true) : ∃ f, c.store = .fallback f := by
  cases hs : c.store with
  | fallback f => exact ⟨f, rfl⟩
  | table t =>
      rw [isFallback, hs] at h
      cases h

omit [BEq K] in
theorem exists_table_of_isFallback {c : Container K V} (h : c.isFallback = false) : ∃ t, c.store = .table t := by
  cases hs : c.store with
  | table t => exact ⟨t, rfl⟩
  | fallback f =>
      rw [isFallback, hs] at h
      cases h

/-- A guarded table is intact. -/
theorem Guarded.intact {c : Container K V} (h : c.Guarded) : c.store.Intact := by
  cases hs : c.store with
  | table t => exact (h t hs).intact
  | fallback f => trivial

/-! ## Alarms -/

/-- The warning that inserting a key sets off. -/
def insertAlarm? (key : K) (c : Container K V) : Option Event :=
  match c.store with
  | .fallback _ => none
  | .table t =>
    let chain := t.load (bucketIndex t.buckets (c.storedHash key)) + 1
    match c.contains key with
    | .ok false => if c.maxChain < chain then some (.flooded chain c.maxChain (t.size + 1)) else none
    | _ => none

/-- The first warning that inserting pairs one after the other sets off. -/
def firstAlarm? : List (K × V) → Container K V → Option Event
  | [], _ => none
  | (key, value) :: pairs, c => (c.insertAlarm? key).or (firstAlarm? pairs (c.insert key value).state)

/-- The warning that shrinking sets off. -/
def shrinkAlarm? (c : Container K V) : Option Event :=
  match c.store with
  | .fallback _ => none
  | .table t =>
    let peak := t.shrink.state.peak
    if c.maxChain < peak then some (.flooded peak c.maxChain t.size) else none

/-- The warning that an operation sets off. -/
def alarm? (op : Operation K V) (c : Container K V) : Option Event :=
  match op with
  | .insert key _ => c.insertAlarm? key
  | .extend hint pairs =>
    match c.roomFor hint with
    | .ok room => firstAlarm? pairs (c.reserve room).state
    | .error _ => none
  | .shrink => c.shrinkAlarm?
  | _ => none

/-- An operation left a guarded container, logged the warning of its alarm and no other, and moved the entries to the
    fallback exactly if there was an alarm. -/
structure WarnsExactly (c : Container K V) (alarm : Option Event) (r : Reply (Container K V) α) : Prop where
  maxChain : r.state.maxChain = c.maxChain
  guarded : r.state.Guarded
  warnings : warnings r.events = alarm.toList
  isFallback : r.state.isFallback = (c.isFallback || alarm.isSome)

variable {c : Container K V} {alarm : Option Event} {key : K} {value : V}

theorem WarnsExactly.map {r : Reply (Container K V) α} (h : WarnsExactly c alarm r) (g : α → β) :
    WarnsExactly c alarm (r.map g) :=
  ⟨h.maxChain, h.guarded, h.warnings, h.isFallback⟩

/-- One operation after another. There is an alarm in at most one of them. -/
theorem WarnsExactly.andThen {alarm' : Option Event} {r : Reply (Container K V) α}
    {next : α → Container K V → Reply (Container K V) β} {a : α} (h : WarnsExactly c alarm r) (hok : r.result = .ok a)
    (h' : WarnsExactly r.state alarm' (next a r.state)) (hone : alarm.isSome = true → alarm' = none) :
    WarnsExactly c (alarm.or alarm') (r.andThen next) := by
  rw [Reply.andThen_of_ok hok]
  refine ⟨h'.maxChain.trans h.maxChain, h'.guarded, ?_, ?_⟩
  · show DenseHash.warnings (r.events ++ (next a r.state).events) = _
    rw [warnings_append, h.warnings, h'.warnings]
    cases alarm with
    | none => rfl
    | some e => rw [hone rfl]; rfl
  · show (next a r.state).state.isFallback = _
    rw [h'.isFallback, h.isFallback, Option.isSome_or, Bool.or_assoc]

/-- Nothing happened. -/
theorem Guarded.warnsExactly_ok (h : c.Guarded) (a : α) : WarnsExactly c none (.ok c a) :=
  ⟨rfl, h, rfl, (Bool.or_false _).symm⟩

theorem guarded_fallback {f : Fallback K V} (hs : c.store = .fallback f) : c.Guarded := by
  intro t ht
  rw [hs] at ht
  cases ht

theorem guarded_table {t : Table K V} (hs : c.store = .table t) (h : t.Guarded c.maxChain) : c.Guarded := by
  intro u hu
  rw [hs] at hu
  exact Store.table.inj hu ▸ h

/-- Whatever happens to a fallback without a warning. -/
theorem warnsExactly_fallback {r : Reply (Container K V) α} (hmax : r.state.maxChain = c.maxChain)
    (hf : c.isFallback = true) (hf' : r.state.isFallback = true) (hnoWarning : r.NoWarning) : WarnsExactly c none r := by
  refine ⟨hmax, ?_, hnoWarning, by rw [hf, hf']; rfl⟩
  cases hs : r.state.store with
  | fallback f => exact guarded_fallback hs
  | table t =>
      rw [isFallback, hs] at hf'
      cases hf'

/-- A table within the limit that is not warned about. -/
theorem warnsExactly_table {r : Reply (Container K V) α} {t t' : Table K V} (hs : c.store = .table t)
    (hs' : r.state.store = .table t') (hmax : r.state.maxChain = c.maxChain) (h : t'.Guarded c.maxChain)
    (hnoWarning : r.NoWarning) : WarnsExactly c none r := by
  refine ⟨hmax, guarded_table hs' (hmax ▸ h), hnoWarning, ?_⟩
  rw [isFallback, isFallback, hs, hs']
  rfl

/-- What adds no hash needs no watching. -/
theorem KeepsForm.warnsExactly {r : Reply (Container K V) α} (h : KeepsForm c r) (hc : c.Guarded) :
    WarnsExactly c none r := by
  have hnoWarning := Reply.noWarning_of_nil h.events
  have hform := h.form
  cases hs : c.store with
  | fallback f =>
      rw [hs] at hform
      refine warnsExactly_fallback h.maxChain ?_ ?_ hnoWarning
      · rw [isFallback, hs]
        rfl
      · rw [isFallback, hform.isFallback]
        rfl
  | table t =>
      rw [hs] at hform
      cases hs' : r.state.store with
      | fallback f =>
          rw [hs'] at hform
          cases hform
      | table t' =>
          rw [hs'] at hform
          cases hform with
          | table hadds =>
              have ht := hc t hs
              exact warnsExactly_table hs hs' h.maxChain
                ⟨hadds.intact, hadds.keeps.loadFactor ▸ ht.isLoad, hadds.short ht.short⟩ hnoWarning

/-- What is done after the table has been changed, where that logged no warning. -/
theorem WarnsExactly.after {c' : Container K V} {t t' : Table K V} {r : Reply (Container K V) α} {events : List Event}
    (h : WarnsExactly c' alarm r) (hs : c.store = .table t) (hs' : c'.store = .table t') (hmax : c'.maxChain = c.maxChain)
    (hnoWarning : DenseHash.warnings events = []) : WarnsExactly c alarm (r.after events) := by
  have hfallback : c'.isFallback = c.isFallback := by
    rw [Container.isFallback, Container.isFallback, hs, hs']
    rfl
  refine ⟨h.maxChain.trans hmax, h.guarded, ?_, hfallback ▸ h.isFallback⟩
  show DenseHash.warnings (events ++ r.events) = _
  rw [warnings_append, hnoWarning, h.warnings]
  rfl

/-- Measuring the chains of a table compares the fullest bucket with the limit. -/
theorem inspect_eq {t : Table K V} (hs : c.store = .table t) (ht : t.Intact) :
    c.inspect = if c.maxChain < t.peak then c.flood t.peak else .ok c () := by
  obtain ⟨is, hsound⟩ := ht
  rw [inspect]
  rw [hs]
  dsimp only
  rw [hsound.longestChain_eq_peak]

/-- Measuring finds nothing in a guarded container. -/
theorem Guarded.inspect_eq (h : c.Guarded) : c.inspect = .ok c () := by
  cases hs : c.store with
  | fallback f =>
      rw [inspect]
      rw [hs]
  | table t =>
      have ht := h t hs
      obtain ⟨is, hsound⟩ := ht.intact
      rw [Container.inspect_eq hs ht.intact, if_neg (Nat.not_lt.mpr (hsound.peak_le_iff.mpr ht.short))]

/-- Nothing to report for a key that is there. -/
theorem insertAlarm?_of_contains {t : Table K V} (hs : c.store = .table t) (hpresent : c.contains key = .ok true) :
    c.insertAlarm? key = none := by
  rw [insertAlarm?]
  rw [hs]
  dsimp only
  rw [hpresent]

/-- A new key is reported if the chain that it joins would be longer than chains may be. -/
theorem insertAlarm?_of_absent {t : Table K V} (hs : c.store = .table t) (habsent : c.contains key = .ok false) :
    c.insertAlarm? key =
      if c.maxChain < t.load (bucketIndex t.buckets (c.storedHash key)) + 1 then
        some (.flooded (t.load (bucketIndex t.buckets (c.storedHash key)) + 1) c.maxChain (t.size + 1))
      else none := by
  rw [insertAlarm?]
  rw [hs]
  dsimp only
  rw [habsent]

/-- A fallback sets off no alarm. -/
theorem firstAlarm?_fallback {f : Fallback K V} (hs : c.store = .fallback f) (pairs : List (K × V)) :
    c.firstAlarm? pairs = none := by
  induction pairs generalizing c f with
  | nil => rfl
  | cons p pairs ih =>
      obtain ⟨f', hs'⟩ := (insert_fallback_keepsForm hs p.1 p.2).form.exists_fallback hs
      have hnone : c.insertAlarm? p.1 = none := by
        rw [insertAlarm?]
        rw [hs]
      show (c.insertAlarm? p.1).or _ = none
      rw [hnone]
      exact ih hs'

/-- Nothing is reported from the fallback. -/
theorem alarm?_fallback {f : Fallback K V} (hs : c.store = .fallback f) (op : Operation K V) : c.alarm? op = none := by
  cases op with
  | insert key value =>
      rw [alarm?, insertAlarm?]
      rw [hs]
  | extend hint pairs =>
      rw [alarm?]
      cases c.roomFor hint with
      | error e => rfl
      | ok room =>
          obtain ⟨f', hs'⟩ := (reserve_fallback_keepsForm hs room).form.exists_fallback hs
          exact firstAlarm?_fallback hs' pairs
  | shrink =>
      rw [alarm?, shrinkAlarm?]
      rw [hs]
  | _ => rfl

variable [EquivBEq K]

/-! ## Moving to the fallback -/

/-- A sound table can always be moved, with one warning, and the fallback is sound. -/
theorem flood_eq {t : Table K V} (hs : c.store = .table t) (ht : t.Intact) (chain : Nat) :
    ∃ f ss, c.flood chain =
      ⟨({ c with store := .fallback f } : Container K V).bump, [.flooded chain c.maxChain t.size], .ok ()⟩ ∧
        f.Sound ss ∧ c.hashing.secondary.Left f.draws := by
  obtain ⟨is, hsound⟩ := ht
  obtain ⟨f, ss, hf, hfs, hdraws⟩ :=
    (Fallback.sound_empty (V := V) c.hashing.secondary t.order.byAccess).exists_insertAll (is.filterMap t.pair?)
  have hmoved : (t.pairs >>= fun pairs =>
      Fallback.insertAll pairs (.empty c.hashing.secondary t.order.byAccess)) = .ok f := by
    rw [hsound.pairs_eq, Checked.ok_bind, hf]
  refine ⟨f, ss, ?_, hfs, hdraws ▸ .refl _⟩
  rw [flood]
  rw [hs]
  dsimp only
  rw [hmoved]

/-- The guard reports the chain that it was called for, the limit and the number of entries. -/
theorem flood_warnsExactly {t : Table K V} (hs : c.store = .table t) (ht : t.Intact) (chain : Nat) :
    WarnsExactly c (some (.flooded chain c.maxChain t.size)) (c.flood chain) := by
  obtain ⟨f, -, hf, -⟩ := flood_eq hs ht chain
  rw [hf]
  exact ⟨rfl, guarded_fallback rfl, rfl, (Bool.or_true _).symm⟩

/-! ## Inserting -/

section Table

variable {t : Table K V} {is : List Nat}

/-- An entry that holds the key is found. -/
theorem contains_of_holds (hs : c.store = .table t) (h : t.Sound is) {i : Nat}
    (hi : t.holds (c.storedHash key) key i = true) : c.contains key = .ok true := by
  obtain ⟨r, hr, hiff⟩ := h.find_eq (c.storedHash key) key
  rw [contains, find]
  rw [hs]
  dsimp only
  rw [hr, (hiff i).mpr hi]
  rfl

/-- If no entry holds the key, none is found. -/
theorem contains_of_absent (hs : c.store = .table t) (h : t.Sound is)
    (habsent : ∀ i, t.holds (c.storedHash key) key i = false) : c.contains key = .ok false := by
  obtain ⟨r, hr, hiff⟩ := h.find_eq (c.storedHash key) key
  rw [contains, find]
  rw [hs]
  dsimp only
  rw [hr]
  cases r with
  | none => rfl
  | some i => exact absurd ((hiff i).mp rfl) (Bool.eq_false_iff.mp (habsent i))

/-- What the guard does after a new key has been stored: if the chain was short enough before the table grew, no bucket
    is too full now. -/
theorem guard_warnsExactly (hs : c.store = .table t) (hintact : t.Intact) (hlf : t.loadFactor.IsLoad) {chain : Nat}
    (hshort : chain ≤ c.maxChain → t.Short c.maxChain) (resized : Bool) :
    WarnsExactly c (if c.maxChain < chain then some (.flooded chain c.maxChain t.size) else none)
      (if c.maxChain < chain then c.flood chain else if resized then c.inspect else .ok c ()) := by
  by_cases hlong : c.maxChain < chain
  · rw [if_pos hlong, if_pos hlong]
    exact flood_warnsExactly hs hintact chain
  · rw [if_neg hlong, if_neg hlong]
    have hguarded := guarded_table hs ⟨hintact, hlf, hshort (Nat.not_lt.mp hlong)⟩
    split
    · rw [hguarded.inspect_eq]
      exact hguarded.warnsExactly_ok ()
    · exact hguarded.warnsExactly_ok ()

/-- An insertion into a table warns exactly of its alarm. -/
theorem insert_table_warnsExactly {old : Option V} (hs : c.store = .table t) (h : t.Guarded c.maxChain)
    (hok : (c.insert key value).result = .ok old) :
    WarnsExactly c (c.insertAlarm? key) (c.insert key value) := by
  obtain ⟨is, hsound⟩ := h.intact
  have hkeeps := t.insert_keeps (c.storedHash key) key value
  have hnoWarning := t.insert_noWarning (c.storedHash key) key value
  have hintact := h.intact.insert_leaves (c.storedHash key) key value
  have hlf : (t.insert (c.storedHash key) key value).state.loadFactor.IsLoad := hkeeps.loadFactor ▸ h.isLoad
  rw [insert] at hok ⊢
  rw [hs] at hok ⊢
  dsimp only at hok ⊢
  obtain ⟨outcome, hin', -, -⟩ := Reply.andThen_result_eq_ok hok
  rw [Reply.andThen_of_ok hin']
  have hin : (t.insert (c.storedHash key) key value).result = .ok outcome := hin'
  let c₁ : Container K V := { c with store := .table (t.insert (c.storedHash key) key value).state }
  cases outcome with
  | updated old moved =>
      have hcontains : c.contains key = .ok true := by
        cases ((hsound.insert_meets (c.storedHash key) key value).of_ok hin).1 with
        | updated split found same sound content =>
            exact contains_of_holds hs hsound (Table.holds_iff.mpr ⟨_, _, found, same⟩)
      have hadds := hsound.insert_updated hin
      have hguarded : c₁.Guarded := guarded_table rfl ⟨hintact, hlf, hadds.short h.short⟩
      rw [insertAlarm?_of_contains hs hcontains]
      exact ((keepsForm_count (c := c₁) hintact moved (some old)).warnsExactly hguarded).after hs rfl rfl hnoWarning
  | added chain resized =>
      have hcontains : c.contains key = .ok false := by
        cases ((hsound.insert_meets (c.storedHash key) key value).of_ok hin).1 with
        | added absent sound content => exact contains_of_absent hs hsound absent
      obtain ⟨hchain, hsize, hshort⟩ := hsound.insert_added hin
      rw [insertAlarm?_of_absent hs hcontains, ← hchain, ← hsize]
      have hguard := guard_warnsExactly (c := c₁.bump) rfl hintact hlf (hshort h.short) resized
      exact (hguard.map _).after hs rfl rfl hnoWarning

end Table

/-- An insertion that returns gives the warning that is due, and no other. -/
theorem insert_warnsExactly {old : Option V} (h : c.Guarded) (hok : (c.insert key value).result = .ok old) :
    WarnsExactly c (c.insertAlarm? key) (c.insert key value) := by
  cases hs : c.store with
  | table t => exact insert_table_warnsExactly hs (h t hs) hok
  | fallback f =>
      have hnone : c.insertAlarm? key = none := by
        rw [insertAlarm?]
        rw [hs]
      rw [hnone]
      exact (insert_fallback_keepsForm hs key value).warnsExactly h

/-- Pairs are inserted up to the first alarm, and the others go into the fallback. -/
theorem forEach_insert_warnsExactly {pairs : List (K × V)} {u : Unit} (h : c.Guarded)
    (hok : (Reply.forEach (fun (key, value) c => (c.insert key value).map fun _ => ()) pairs c).result = .ok u) :
    WarnsExactly c (c.firstAlarm? pairs)
      (Reply.forEach (fun (key, value) c => (c.insert key value).map fun _ => ()) pairs c) := by
  induction pairs generalizing c with
  | nil => exact h.warnsExactly_ok ()
  | cons p pairs ih =>
      obtain ⟨key, value⟩ := p
      obtain ⟨a, ha, hrest, -⟩ := Reply.andThen_result_eq_ok hok
      obtain ⟨old, hold, -⟩ := Reply.map_result_eq_ok ha
      have hfirst := (insert_warnsExactly h hold).map fun _ => ()
      refine hfirst.andThen ha (ih hfirst.guarded hrest) fun halarm => ?_
      obtain ⟨f, hf⟩ := exists_fallback_of_isFallback (hfirst.isFallback.trans (by rw [halarm, Bool.or_true]))
      exact firstAlarm?_fallback hf pairs

/-! ## Room -/

omit [EquivBEq K] in
/-- Making room gives no warning, since larger tables have no longer chains. -/
theorem reserve_warnsExactly {more : UInt64} {u : Unit} (h : c.Guarded) (hok : (c.reserve more).result = .ok u) :
    WarnsExactly c none (c.reserve more) := by
  cases hs : c.store with
  | fallback f => exact (reserve_fallback_keepsForm hs more).warnsExactly h
  | table t =>
      have ht := h t hs
      obtain ⟨is, hsound⟩ := ht.intact
      have hwidens := hsound.reserve_widens ht.isLoad more.toNat
      let c₁ : Container K V := { c with store := .table (t.reserve more.toNat).state }
      -- more buckets split the chains, so there is nothing to be found
      have hguarded : c₁.Guarded := guarded_table rfl
        ⟨hwidens.intact, t.reserve_loadFactor more.toNat ▸ ht.isLoad, hwidens.short ht.intact ht.short⟩
      rw [reserve] at hok ⊢
      rw [hs] at hok ⊢
      dsimp only at hok ⊢
      obtain ⟨a, ha, -, -⟩ := Reply.andThen_result_eq_ok hok
      rw [Reply.andThen_of_ok ha]
      refine WarnsExactly.after (show WarnsExactly c₁ _ _ from ?_) hs rfl rfl (t.reserve_noWarning more.toNat)
      split
      · show WarnsExactly c₁ none c₁.inspect
        rw [hguarded.inspect_eq]
        exact hguarded.warnsExactly_ok ()
      · exact hguarded.warnsExactly_ok ()

/-- Measuring a table that may have become too full. -/
theorem inspect_warnsExactly {t : Table K V} (hs : c.store = .table t) (hintact : t.Intact)
    (hlf : t.loadFactor.IsLoad) :
    WarnsExactly c (if c.maxChain < t.peak then some (.flooded t.peak c.maxChain t.size) else none) c.inspect := by
  rw [inspect_eq hs hintact]
  split
  · exact flood_warnsExactly hs hintact t.peak
  · rename_i hpeak
    obtain ⟨is, hsound⟩ := id hintact
    have hguarded := guarded_table hs ⟨hintact, hlf, hsound.peak_le_iff.mp (Nat.not_lt.mp hpeak)⟩
    exact hguarded.warnsExactly_ok ()

/-- Shrinking gives the warning that is due for the chains of the smaller table. -/
theorem shrink_warnsExactly {u : Unit} (h : c.Guarded) (hok : c.shrink.result = .ok u) :
    WarnsExactly c c.shrinkAlarm? c.shrink := by
  rw [shrink] at hok ⊢
  rw [shrinkAlarm?]
  cases hs : c.store with
  | fallback f => exact h.warnsExactly_ok ()
  | table t =>
      have ht := h t hs
      obtain ⟨is, hsound⟩ := ht.intact
      have hleaves := hsound.shrink_leaves
      let c₁ : Container K V := { c with store := .table t.shrink.state }
      rw [hs] at hok
      dsimp only at hok ⊢
      obtain ⟨a, ha, -, -⟩ := Reply.andThen_result_eq_ok hok
      rw [Reply.andThen_of_ok ha, ← Table.size_congr hleaves.1.content]
      refine WarnsExactly.after (show WarnsExactly c₁ _ _ from ?_) hs rfl rfl t.shrink_noWarning
      exact inspect_warnsExactly rfl ⟨is, hleaves.2⟩ (t.shrink_loadFactor ▸ ht.isLoad)

/-- A bulk load gives the warning of the first insertion for which one is due. -/
theorem extend_warnsExactly {hint room : UInt64} {pairs : List (K × V)} {u : Unit} (h : c.Guarded)
    (hroom : c.roomFor hint = .ok room) (hok : (c.extend hint pairs).result = .ok u) :
    WarnsExactly c ((c.reserve room).state.firstAlarm? pairs) (c.extend hint pairs) := by
  rw [extend] at hok ⊢
  rw [hroom] at hok ⊢
  dsimp only at hok ⊢
  obtain ⟨a, ha, hok, -⟩ := Reply.andThen_result_eq_ok hok
  have hreserve := reserve_warnsExactly h ha
  obtain ⟨b, hb, -, -⟩ := Reply.andThen_result_eq_ok hok
  have hall := forEach_insert_warnsExactly hreserve.guarded hb
  -- at the end there is nothing left to be found
  have hlast := hall.guarded.warnsExactly_ok ()
  rw [← hall.guarded.inspect_eq] at hlast
  have hinserts : WarnsExactly _ _ (Reply.andThen _ fun _ c => c.inspect) := hall.andThen hb hlast fun _ => rfl
  rw [Option.or_none] at hinserts
  refine hreserve.andThen ha hinserts fun hnone => ?_
  cases hnone

/-! ## Every operation -/

/-- One step: the container does what its alarm says. -/
theorem apply_warnsExactly {op : Operation K V} {a : Answer K V} (h : c.Guarded) (hok : (c.apply op).result = .ok a) :
    WarnsExactly c (c.alarm? op) (c.apply op) := by
  by_cases hop : MayRebuild op
  · cases op with
    | insert key value =>
        obtain ⟨old, hold, -⟩ := Reply.map_result_eq_ok hok
        exact (insert_warnsExactly h hold).map _
    | extend hint pairs =>
        obtain ⟨u, hu, -⟩ := Reply.map_result_eq_ok hok
        refine WarnsExactly.map ?_ _
        rw [alarm?]
        cases hroom : c.roomFor hint with
        | ok room => exact extend_warnsExactly h hroom hu
        | error f =>
            rw [extend, hroom] at hu
            cases hu
    | reserve more =>
        obtain ⟨u, hu, -⟩ := Reply.map_result_eq_ok hok
        exact (reserve_warnsExactly h hu).map _
    | shrink =>
        obtain ⟨u, hu, -⟩ := Reply.map_result_eq_ok hok
        exact (shrink_warnsExactly h hu).map _
    | _ => exact hop.elim
  · have hnone : c.alarm? op = none := by
      cases op <;> first | rfl | exact absurd trivial hop
    rw [hnone]
    exact (apply_keepsForm h.intact hop).warnsExactly h

end Container

end DenseHash
