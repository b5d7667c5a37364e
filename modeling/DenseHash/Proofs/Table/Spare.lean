import DenseHash.Proofs.Table.Buckets

/-!
# Room to spare

A table has *room to spare* for a number of entries if they fit into the buckets that there are; without buckets, if they
are expected, and the largest table has room for what is expected. Either way the insertion of a new key returns, uses up
one place, and rebuilds nothing. What happens at single entries uses up none.

A request for room makes that room: in the buckets if there are some, else in what is expected.
-/

namespace DenseHash

namespace Reply

variable {σ τ α β : Type}

/-- The operation did not rebuild any buckets. -/
def Unresized (r : Reply σ α) : Prop := ∀ before after entries, Event.resized before after entries ∉ r.events

/-- The operation gave a result, rebuilt nothing, and left a state that meets a condition. -/
structure ReturnsUnresized (r : Reply σ α) (P : σ → Prop) : Prop where
  result : ∃ a, r.result = .ok a
  unresized : r.Unresized
  state : P r.state

theorem unresized_of_nil {r : Reply σ α} (h : r.events = []) : r.Unresized := by
  intro before after entries
  rw [h]
  exact List.not_mem_nil

variable {P Q : σ → Prop}

theorem returnsUnresized_ok {s : σ} {a : α} (h : P s) :
    (ok s a).ReturnsUnresized P := ⟨⟨a, rfl⟩, unresized_of_nil rfl, h⟩

/-- What is made of the answer does not matter. -/
theorem ReturnsUnresized.map {r : Reply σ α} (h : r.ReturnsUnresized P) (g : α → β) : (r.map g).ReturnsUnresized P := by
  obtain ⟨⟨a, ha⟩, hunresized, hstate⟩ := h
  exact ⟨⟨g a, by rw [map_result, ha]; rfl⟩, hunresized, hstate⟩

/-- One operation after the other. -/
theorem ReturnsUnresized.andThen {r : Reply σ α} {next : α → σ → Reply σ β} (h : r.ReturnsUnresized P)
    (hnext : ∀ a, r.result = .ok a → (next a r.state).ReturnsUnresized Q) : (r.andThen next).ReturnsUnresized Q := by
  obtain ⟨⟨a, ha⟩, hunresized, -⟩ := h
  obtain ⟨hresult, hunresized', hstate⟩ := hnext a ha
  rw [andThen_of_ok ha]
  refine ⟨hresult, fun before after entries hmem => ?_, hstate⟩
  rcases List.mem_append.mp hmem with hmem | hmem
  · exact hunresized before after entries hmem
  · exact hunresized' before after entries hmem

end Reply

namespace Table

variable {K V : Type} {t t' t'' : Table K V} {is : List Nat} {room : Nat} {hash : UInt32} {key : K} {value : V}

/-! ## Buckets that stay -/

/-- The buckets are as many as before; a table without buckets may have been given its first ones. -/
structure KeepsBuckets (t t' : Table K V) : Prop where
  loadFactor : t'.loadFactor = t.loadFactor
  expected : t'.expected = t.expected
  buckets : t'.buckets = t.buckets ∨ t.buckets = 0 ∧ bucketsFor t.expected t.loadFactor = .ok t'.buckets

theorem KeepsBuckets.refl (t : Table K V) : t.KeepsBuckets t := ⟨rfl, rfl, .inl rfl⟩

theorem KeepsBuckets.trans (h : t.KeepsBuckets t') (h' : t'.KeepsBuckets t'') : t.KeepsBuckets t'' := by
  refine ⟨h'.loadFactor.trans h.loadFactor, h'.expected.trans h.expected, ?_⟩
  rcases h'.buckets with hsame | ⟨hzero, hfirst⟩
  · rw [hsame]
    exact h.buckets
  · rw [h.expected, h.loadFactor] at hfirst
    rcases h.buckets with hsame | ⟨hb, -⟩
    · exact .inr ⟨hsame ▸ hzero, hfirst⟩
    · exact .inr ⟨hb, hfirst⟩

/-! ## Growing and logging -/

/-- Growing is logged where it takes place. -/
theorem grow_events (hok : t.grow.result = .ok false) : t.grow.events = [] := by
  rcases grow_cases hok with ⟨hroom, -, -⟩ | ⟨-, hresized, -⟩
  · rw [grow, if_pos hroom]
    rfl
  · cases hresized

section Spare

variable [BEq K]

/-- What adds nothing keeps the buckets. -/
theorem AddsNothing.keepsBuckets (h : t.AddsNothing t') : t.KeepsBuckets t' :=
  ⟨h.keeps.loadFactor, h.keeps.expected, .inl h.buckets⟩

/-- The table has room for so many entries beside those that it has. -/
structure Spare (t : Table K V) (room : Nat) : Prop where
  intact : t.Intact
  isLoad : t.loadFactor.IsLoad
  allocated : t.buckets ≠ 0 → t.size + room ≤ t.capacity
  unallocated : t.buckets = 0 → room ≤ t.expected ∧ t.expected ≤ capacityOf maxBuckets t.loadFactor

/-- An insertion that did not resize has logged nothing. -/
theorem insertAllocated_events {outcome : Inserted V} (hok : (t.insertAllocated hash key value).result = .ok outcome)
    (hunresized : ∀ chain, outcome ≠ .added chain true) : (t.insertAllocated hash key value).events = [] := by
  revert hok
  rw [insertAllocated]
  split
  · exact fun _ => rfl
  · split
    · split <;> exact fun _ => rfl
    · split
      · exact fun _ => rfl
      · split
        · intro hok
          obtain ⟨resized, hgrown, rfl⟩ := Reply.map_result_eq_ok hok
          cases resized with
          | false => exact grow_events hgrown
          | true => exact absurd rfl (hunresized _)
        · exact fun _ => rfl

/-- An insertion that did not grow the table has logged nothing. -/
theorem insert_events {outcome : Inserted V} (hok : (t.insert hash key value).result = .ok outcome)
    (hunresized : ∀ chain, outcome ≠ .added chain true) : (t.insert hash key value).events = [] := by
  rw [insert] at hok ⊢
  obtain ⟨u, hu, hok, -⟩ := Reply.andThen_result_eq_ok hok
  rw [Reply.andThen_of_ok hu]
  show t.allocate.events ++ _ = []
  rw [allocate_events, insertAllocated_events hok hunresized]
  rfl

namespace Spare

/-- What adds nothing takes no room. -/
theorem of_addsNothing (h : t.Spare room) (ht : t.AddsNothing t') : t'.Spare room where
  intact := ht.intact
  isLoad := ht.keeps.loadFactor ▸ h.isLoad
  allocated := by
    intro hb
    have hcapacity : t'.capacity = t.capacity := by rw [capacity, capacity, ht.buckets, ht.keeps.loadFactor]
    have hroom := h.allocated (ht.buckets ▸ hb)
    have hsize := ht.size_le
    omega
  unallocated := by
    intro hb
    rw [ht.keeps.expected, ht.keeps.loadFactor]
    exact h.unallocated (ht.buckets ▸ hb)

/-- Less room is there as well. -/
theorem mono (h : t.Spare room) {less : Nat} (hle : less ≤ room) : t.Spare less where
  intact := h.intact
  isLoad := h.isLoad
  allocated := fun hb => by
    have hroom := h.allocated hb
    omega
  unallocated := fun hb => ⟨hle.trans (h.unallocated hb).1, (h.unallocated hb).2⟩

/-- The largest table has the room as well. -/
theorem size_add_le (h : t.Spare room) : t.size + room ≤ capacityOf maxBuckets t.loadFactor := by
  obtain ⟨is, hs⟩ := h.intact
  by_cases hb : t.buckets = 0
  · have hsize := hs.unallocated hb
    obtain ⟨hroom, hfits⟩ := h.unallocated hb
    omega
  · exact (h.allocated hb).trans (hs.capacity_le h.isLoad)

/-- The buckets in force have the room, once there are any. -/
theorem le_capacityOf_inForce (h : t.Spare room) {u : Unit} (hok : t.allocate.result = .ok u) :
    t.size + room ≤ capacityOf t.inForce t.loadFactor := by
  obtain ⟨is, hs⟩ := h.intact
  by_cases hb : t.buckets = 0
  · have hsize := hs.unallocated hb
    have hfirst := (bucketsFor_spec (bucketsFor_of_allocate hb hok)).1
    have hroom := (h.unallocated hb).1
    omega
  · have hroom := h.allocated hb
    rw [capacity, if_neg hb] at hroom
    rwa [inForce_of_ne hb]

variable [EquivBEq K]

/-! ## Insertions -/

/-- The insertion of a key that is there. -/
theorem insert_present (h : t.Spare room) (value : V) {i : Nat} (hi : t.holds hash key i = true) :
    ∃ old moved, (t.insert hash key value).result = .ok (.updated old moved) ∧
      t.AddsNothing (t.insert hash key value).state ∧ (t.insert hash key value).events = [] := by
  obtain ⟨is, hs⟩ := h.intact
  have hb : t.buckets ≠ 0 := by
    intro hzero
    obtain ⟨stored, old, hc, -⟩ := holds_iff.mp hi
    have hlt := lt_size_of_content hc
    have hsize := hs.unallocated hzero
    omega
  cases hresult : (t.insert hash key value).result with
  | error f =>
      -- only a new key is refused
      have herr := hresult
      rw [Table.insert, allocate_of_ne hb] at herr
      obtain ⟨-, hrefuses, -⟩ := hs.insertAllocated_refused hb h.isLoad herr
      exact absurd ((hrefuses.absent i).symm.trans hi) Bool.false_ne_true
  | ok outcome =>
      cases outcome with
      | updated old moved =>
          exact ⟨old, moved, rfl, hs.insert_updated hresult, insert_events hresult fun _ heq => by cases heq⟩
      | added chain resized =>
          cases ((hs.insert_meets hash key value).of_ok hresult).1 with
          | added absent sound content => exact absurd ((absent i).symm.trans hi) Bool.false_ne_true

/-- The insertion of a new key returns, takes one place and rebuilds nothing. -/
theorem insert_new (h : t.Spare (room + 1)) (value : V) (habsent : ∀ i, t.holds hash key i = false) :
    ∃ chain, (t.insert hash key value).result = .ok (.added chain false) ∧
      (t.insert hash key value).state.Spare room ∧ t.KeepsBuckets (t.insert hash key value).state ∧
        (t.insert hash key value).events = [] := by
  obtain ⟨is, hs⟩ := h.intact
  have hlargest := h.size_add_le
  have hkeeps := t.insert_keeps hash key value
  obtain ⟨outcome, hok⟩ := (hs.insert_isOk_iff h.isLoad (by omega) hash key value).mpr fun hb => (h.unallocated hb).2
  cases outcome with
  | updated old moved =>
      cases ((hs.insert_meets hash key value).of_ok hok).1 with
      | updated split found same sound content =>
          have hholds := holds_iff.mpr ⟨_, _, found, same⟩
          exact absurd ((habsent _).symm.trans hholds) Bool.false_ne_true
  | added chain resized =>
      have hallocated := hok
      rw [Table.insert] at hallocated
      obtain ⟨u, hu, -⟩ := Reply.andThen_result_eq_ok hallocated
      have hforce := h.le_capacityOf_inForce hu
      rcases (hs.insert_resizes hok).2 with ⟨-, rfl, hbuckets⟩ | ⟨hfull, -, -⟩
      · have hsize := (hs.insert_added hok).2.1
        have hmade : t.inForce ≠ 0 := (hs.allocate_meets.of_ok hu).2.2
        refine ⟨chain, hok, ⟨h.intact.insert_leaves hash key value, hkeeps.loadFactor ▸ h.isLoad, fun hb => ?_,
          fun hb => absurd (hbuckets.symm.trans hb) hmade⟩, ⟨hkeeps.loadFactor, hkeeps.expected, ?_⟩,
          insert_events hok fun _ heq => by cases heq⟩
        · rw [capacity, if_neg hb, hbuckets, hkeeps.loadFactor, hsize]
          omega
        · by_cases hb : t.buckets = 0
          · exact .inr ⟨hb, hbuckets ▸ bucketsFor_of_allocate hb hu⟩
          · exact .inl (hbuckets.trans (inForce_of_ne hb))
      -- the room was there before
      · omega

end Spare

/-! ## Requests -/

omit [BEq K] in
/-- Buckets that a request was granted in have room for what was wanted. -/
theorem reserve_room (hb : t.buckets ≠ 0) {more : Nat} {u : Unit} (hok : (t.reserve more).result = .ok u) :
    min (t.size + more) maxWord ≤ (t.reserve more).state.capacity := by
  rw [reserve] at hok ⊢
  dsimp only at hok ⊢
  rw [if_neg hb] at hok ⊢
  obtain ⟨u', hu', -, hstate⟩ := Reply.andThen_result_eq_ok hok
  rw [hstate, ensure_state]
  by_cases hfull : t.capacity < min (t.size + more) maxWord
  · rw [if_pos hfull] at hu' ⊢
    cases hn : bucketsFor (min (t.size + more) maxWord) t.loadFactor with
    | ok n =>
        rw [hn] at hu'
        exact (resize_of_ok hu').2.2.2 ▸ (bucketsFor_spec hn).1
    | error f =>
        rw [hn] at hu'
        cases hu'
  · rw [if_neg hfull]
    exact Nat.not_lt.mp hfull

/-- A request makes the room that it asks for: in the buckets if there are any, and else in what is expected. -/
theorem Sound.reserve_spare (h : t.Sound is) (hlf : t.loadFactor.IsLoad)
    (hexpected : t.buckets = 0 → t.expected ≤ capacityOf maxBuckets t.loadFactor) {more : Nat}
    (hfits : t.size + more ≤ capacityOf maxBuckets t.loadFactor) :
    (t.reserve more).result = .ok () ∧ (t.reserve more).state.Spare more := by
  have hword : capacityOf maxBuckets t.loadFactor < maxWord := (capacityOf_maxBuckets_le hlf).trans_lt (by decide)
  have hwanted : min (t.size + more) maxWord = t.size + more := by omega
  have hok : (t.reserve more).result = .ok () := h.reserve_of_le hlf (by omega)
  obtain ⟨halike, hsound⟩ := h.reserve_leaves more
  have hsize := size_congr halike.content
  refine ⟨hok, ⟨is, hsound⟩, t.reserve_loadFactor more ▸ hlf, fun hb' => ?_, fun hb' => ?_⟩
  · have hb : t.buckets ≠ 0 := by
      intro hb
      rw [reserve_unallocated hb] at hb'
      exact hb' hb
    have hroom := reserve_room hb hok
    omega
  · have hb : t.buckets = 0 := by
      by_contra hb
      exact (reserve_keeps hb more).allocated hb hb'
    have hlarge := hexpected hb
    rw [reserve_unallocated hb]
    show more ≤ max t.expected (min (t.size + more) maxWord) ∧
      max t.expected (min (t.size + more) maxWord) ≤ capacityOf maxBuckets t.loadFactor
    omega

end Spare

end Table

end DenseHash
