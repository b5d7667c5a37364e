import DenseHash.Proofs.Table.Room

/-!
# The number of buckets

What each change does to the number of buckets.

* **The first buckets** are as many as `bucketsFor` gives for the entries that are expected.
* **Requests and shrinking** rebuild the table with the buckets that its entries need, or more, or leave it as it is
  (`Refits`).
* **Growing** takes place exactly if the entries are more than the capacity (`grow_cases`).
* **Insertion** of a new key looks at the buckets in force, which are the first ones if there were none
  (`Sound.insert_resizes`).
-/

namespace DenseHash

/-- A size that has room is not enlarged. -/
theorem enlarge_of_room {loadFactor : Binary64} {count size : Nat} (fuel : Nat) (hword : size < wordValues)
    (hroom : count ≤ capacityOf size loadFactor) : enlarge loadFactor count (fuel + 1) size = .ok size := by
  rw [enlarge, if_neg (Nat.not_le.mpr hword), if_neg (Nat.not_lt.mpr hroom)]

namespace Table

variable {K V : Type} {t t' : Table K V} {is : List Nat} {hash : UInt32} {key : K} {value : V}

/-! ## The first buckets -/

/-- The buckets that an insertion looks at: those that there are, or the first ones. -/
def inForce (t : Table K V) : Nat := t.allocate.state.buckets

theorem inForce_of_ne (hb : t.buckets ≠ 0) : t.inForce = t.buckets := by rw [inForce, allocate_of_ne hb]; rfl

/-- In a table without buckets, those that it would get are in force. -/
theorem inForce_of_ok (hb : t.buckets = 0) {n : Nat} (hn : bucketsFor t.expected t.loadFactor = .ok n) :
    t.inForce = n := by
  rw [inForce, allocate, if_pos hb, hn]
  dsimp only
  rw [ensure_state]
  exact Array.size_replicate

/-- Buckets that were made are as many as the expected entries ask for. -/
theorem bucketsFor_of_allocate (hb : t.buckets = 0) {u : Unit} (hok : t.allocate.result = .ok u) :
    bucketsFor t.expected t.loadFactor = .ok t.inForce := by
  cases hn : bucketsFor t.expected t.loadFactor with
  | ok n => rw [inForce_of_ok hb hn]
  | error f =>
      rw [allocate, if_pos hb, hn] at hok
      cases hok

/-! ## Buckets for the entries -/

/-- The table stayed as it was, or got the buckets that so many entries need as it has, or more. -/
def Refits (t t' : Table K V) : Prop :=
  t' = t ∨ ∃ count, t.size ≤ count ∧ bucketsFor count t.loadFactor = .ok t'.buckets

/-- A resize to the buckets that the entries need, refused or not. -/
theorem resize_refits {count n : Nat} (hcount : t.size ≤ count) (hn : bucketsFor count t.loadFactor = .ok n) :
    (t.resize n).Leaves t.Refits := by
  rcases t.resize_state n with heq | ⟨-, hbuckets, -⟩
  · exact .inl heq
  · exact .inr ⟨count, hcount, hbuckets.symm ▸ hn⟩

/-- Making room in a table with buckets, refused or not. -/
theorem reserve_refits (hsmall : t.size ≤ maxBuckets) (hb : t.buckets ≠ 0) (more : Nat) :
    (t.reserve more).Leaves t.Refits := by
  rw [reserve]
  dsimp only
  rw [if_neg hb]
  refine Reply.Leaves.andThen ?_ fun _ _ h' => by rwa [Reply.Leaves, ensure_state]
  split
  · cases hn : bucketsFor (min (t.size + more) maxWord) t.loadFactor with
    | error f => exact .inl rfl
    | ok n =>
        have hword : maxBuckets ≤ maxWord := by decide
        exact resize_refits (Nat.le_min.mpr ⟨Nat.le_add_right _ _, hsmall.trans hword⟩) hn
  · exact .inl rfl

/-- Shrinking a table with entries, refused or not. -/
theorem shrink_refits (hsize : t.size ≠ 0) : t.shrink.Leaves t.Refits := by
  rw [shrink, if_neg hsize]
  refine Reply.Leaves.andThen ?_ fun _ _ h' => h'
  cases hn : bucketsFor t.size t.loadFactor with
  | error f => exact .inl rfl
  | ok n =>
      dsimp only
      split
      · exact resize_refits (Nat.le_refl _) hn
      · exact .inl rfl

/-- What was rebuilt has room for its entries. -/
theorem Refits.room (h : t.Refits t') (hsize : t'.size = t.size) (hlf : t'.loadFactor = t.loadFactor) :
    t' = t ∨ t'.size ≤ t'.capacity ∧ minBuckets ≤ t'.buckets := by
  rcases h with heq | ⟨count, hcount, hn⟩
  · exact .inl heq
  · obtain ⟨hroom, -, hmin, -⟩ := bucketsFor_spec hn
    have hb : t'.buckets ≠ 0 := fun hzero => absurd (hzero ▸ hmin) (by decide)
    rw [capacity, if_neg hb, hsize, hlf]
    exact .inr ⟨hcount.trans hroom, hmin⟩

/-! ## Growing -/

/-- Growing that was not refused took place exactly if it had to. -/
theorem grow_cases {resized : Bool} (hok : t.grow.result = .ok resized) :
    (t.size ≤ t.capacity ∧ resized = false ∧ t.grow.state = t) ∨
      t.capacity < t.size ∧ resized = true ∧
        enlarge t.loadFactor t.size 64 (2 * t.buckets) = .ok t.grow.state.buckets := by
  rw [grow] at hok ⊢
  split
  · rename_i hroom
    rw [if_pos hroom] at hok
    exact .inl ⟨hroom, (Except.ok.inj hok).symm, rfl⟩
  · rename_i hfull
    rw [if_neg hfull] at hok
    cases hn : enlarge t.loadFactor t.size 64 (2 * t.buckets) with
    | error f =>
        rw [hn] at hok
        cases hok
    | ok n =>
        rw [hn] at hok
        obtain ⟨u, hu, hresized⟩ := Reply.map_result_eq_ok hok
        exact .inr ⟨Nat.not_le.mp hfull, hresized.symm, congrArg Except.ok (resize_of_ok hu).2.2.1.symm⟩

/-! ## Insertion -/

variable [BEq K] [EquivBEq K] {chain : Nat} {resized : Bool}

/-- What an insertion of a new key tells: how many entries there now are in its bucket, and whether they were one more
    than the buckets in force have room for. -/
theorem Sound.insert_resizes (h : t.Sound is) (hok : (t.insert hash key value).result = .ok (.added chain resized)) :
    chain = 1 + t.hashes.countP (fun hash' => bucketIndex t.inForce hash' == bucketIndex t.inForce hash) ∧
      ((t.size + 1 ≤ capacityOf t.inForce t.loadFactor ∧ resized = false ∧
          (t.insert hash key value).state.buckets = t.inForce) ∨
        capacityOf t.inForce t.loadFactor < t.size + 1 ∧ resized = true ∧
          enlarge t.loadFactor (t.size + 1) 64 (2 * t.inForce) = .ok (t.insert hash key value).state.buckets) := by
  rw [insert] at hok ⊢
  obtain ⟨u, hu, hok', hstate⟩ := Reply.andThen_result_eq_ok hok
  obtain ⟨halike, hsound, hb⟩ := h.allocate_meets.of_ok hu
  obtain ⟨hchain, t₁, ht₁, hb₁, hsound₁, hgrown, hstate₁⟩ := hsound.insertAllocated_appends hb hok'
  obtain ⟨hkeeps, hbuckets, -⟩ := append_keeps ht₁
  have hsize : t₁.size = t.size + 1 := by rw [hsound.size_of_listed hsound₁, size_congr halike.content]
  have hlf : t₁.loadFactor = t.loadFactor := hkeeps.loadFactor.trans t.allocate_keeps.loadFactor
  have hcapacity : t₁.capacity = capacityOf t.inForce t.loadFactor := by
    rw [capacity, if_neg hb₁, hbuckets, hlf]
    rfl
  refine ⟨?_, ?_⟩
  · rw [hchain, load, halike.hashes, Nat.add_comm]
    rfl
  · rw [hstate, hstate₁, ← hsize, ← hcapacity, ← hlf, show t.inForce = t₁.buckets from hbuckets.symm]
    rcases grow_cases hgrown with ⟨hroom, hresized, hgrow⟩ | hgrown
    · exact .inl ⟨hroom, hresized, by rw [hgrow]⟩
    · exact .inr hgrown

/-- A table that has taken a new key is not too full. -/
theorem Sound.insert_room (h : t.Sound is) (hok : (t.insert hash key value).result = .ok (.added chain resized)) :
    (t.insert hash key value).state.size ≤ (t.insert hash key value).state.capacity := by
  rw [insert] at hok ⊢
  obtain ⟨u, hu, hok, hstate⟩ := Reply.andThen_result_eq_ok hok
  obtain ⟨-, hsound, hb⟩ := h.allocate_meets.of_ok hu
  rw [hstate]
  exact hsound.insertAllocated_room hb hok

end Table

end DenseHash
