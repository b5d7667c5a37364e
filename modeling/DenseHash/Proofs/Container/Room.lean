import DenseHash.Proofs.Container.Invariant
import DenseHash.Proofs.Table.Room

/-!
# Room in a container

A container expects at most a bound (`Expects`) if its table is intact, has the load factor that the container was made
with, and, as long as it has no buckets, is not to make room for more entries than that. Every operation keeps it so,
also one that is refused, unless it asks a table without buckets for more than the bound (`Fits`).

The guard never refuses anything, so an insertion into a container is refused exactly if its table refuses it. One that
returns tells what it did to the table (`insert_of_some`, `insert_of_none`).
-/

namespace DenseHash

variable {K V α : Type} [BEq K]

/-- A table with the load factor it was made with, that expects at most `bound` entries when it gets its first
    buckets. -/
structure Table.Expects (t : Table K V) (loadFactor : Binary64) (bound : Nat) : Prop where
  intact : t.Intact
  loadFactor : t.loadFactor = loadFactor
  expected : t.buckets = 0 → t.expected ≤ bound

/-- What keeps the request for room and the load factor, and does not give buckets back, expects no more. -/
theorem Table.Expects.keeps {t t' : Table K V} {loadFactor : Binary64} {bound : Nat}
    (h : t.Expects loadFactor bound) (hkeeps : t.Keeps t') (hintact : t'.Intact) : t'.Expects loadFactor bound := by
  refine ⟨hintact, hkeeps.loadFactor.trans h.loadFactor, fun hb' => ?_⟩
  have hb : t.buckets = 0 := by
    by_contra hb
    exact hkeeps.allocated hb hb'
  exact hkeeps.expected ▸ h.expected hb

namespace Container

variable [Backing]

/-- What the table of a container expects, if the container is not in its fallback. -/
def Expects (loadFactor : Binary64) (bound : Nat) (c : Container K V) : Prop :=
  ∀ t, c.store = .table t → t.Expects loadFactor bound

omit [BEq K] in
/-- The room that an operation asks for. -/
def asked : Operation K V → Nat
  | .reserve more => more.toNat
  | .extend hint _ => hint.toNat
  | _ => 0

omit [BEq K] in
/-- What is asked of a table without buckets is not beyond the bound. -/
def Fits (bound : Nat) (c : Container K V) (op : Operation K V) : Prop :=
  ∀ t, c.store = .table t → t.buckets = 0 → asked op ≤ bound

variable {c : Container K V} {t t' : Table K V} {loadFactor : Binary64} {bound : Nat}

omit [BEq K] in
/-- Without buckets there are no entries, and a hint is taken as it is. -/
theorem Fits.room {hint room : UInt64} {pairs : List (K × V)} (h : c.Fits bound (.extend hint pairs))
    (hempty : ∀ t, c.store = .table t → t.buckets = 0 → t.size = 0) (hroom : c.roomFor hint = .ok room) :
    c.Fits bound (.reserve room) := by
  intro t hs hb
  have hsize : c.size = 0 := by
    rw [size, hs]
    exact hempty t hs hb
  rw [roomFor, if_pos hsize] at hroom
  rw [← Except.ok.inj hroom]
  exact h t hs hb

end Container

/-- Every operation keeps what a table expects within the bound. -/
theorem Table.expects_invariant [Backing] [EquivBEq K] (loadFactor : Binary64) (bound : Nat) :
    Table.Invariant (Container.Fits (K := K) (V := V) bound) fun t => t.Expects loadFactor bound where
  intact := fun h => h.intact
  addsNothing := fun h hadds => h.keeps hadds.keeps hadds.intact
  insert := fun {t} h hash key value =>
    h.keeps (t.insert_keeps hash key value) (h.intact.insert_leaves hash key value)
  room := by
    intro c hint pairs room h hfits hroom
    refine hfits.room (fun t hs hb => ?_) hroom
    obtain ⟨is, hsound⟩ := (h t hs).intact
    exact hsound.unallocated hb
  reserve := by
    intro c t more hs h hfits
    obtain ⟨is, hsound⟩ := h.intact
    have hintact : (t.reserve more.toNat).state.Intact := ⟨is, (hsound.reserve_leaves more.toNat).2⟩
    by_cases hb : t.buckets = 0
    -- the larger of two numbers within the bound is remembered
    · have hsize := hsound.unallocated hb
      have hmore : more.toNat ≤ bound := hfits t hs hb
      have hexpected := h.expected hb
      rw [Table.reserve_unallocated hb] at hintact ⊢
      refine ⟨hintact, h.loadFactor, fun _ => ?_⟩
      show max t.expected (min (t.size + more.toNat) maxWord) ≤ bound
      omega
    · exact h.keeps (Table.reserve_keeps hb _) hintact
  shrink := by
    intro t h
    obtain ⟨is, hsound⟩ := h.intact
    have hintact : t.shrink.state.Intact := ⟨is, hsound.shrink_leaves.2⟩
    by_cases hsize : t.size = 0
    · rw [Table.shrink_empty hsize] at hintact ⊢
      exact ⟨hintact, h.loadFactor, fun _ => Nat.zero_le bound⟩
    · exact h.keeps (Table.shrink_keeps hsize) hintact

namespace Container

variable [Backing] {c : Container K V} {t : Table K V} {loadFactor : Binary64} {bound : Nat}

/-- A whole run. -/
theorem Reaches.expects [EquivBEq K] {c₀ : Container K V} {events : List Event} (h : c₀.Reaches (Fits bound) events c)
    (h₀ : c₀.Expects loadFactor bound) : c.Expects loadFactor bound :=
  (invariant_onTable (Table.expects_invariant loadFactor bound)).reaches h h₀

omit [BEq K] in
/-- A word bounds every request. -/
theorem fits_maxWord (c : Container K V) (op : Operation K V) : c.Fits maxWord op := by
  intro t _ _
  cases op with
  | reserve more => exact Nat.le_of_lt_succ more.toNat_lt
  | extend hint pairs => exact Nat.le_of_lt_succ hint.toNat_lt
  | _ => exact Nat.zero_le maxWord

variable [EquivBEq K]

/-! ## What is refused -/

/-- Moving the entries refuses nothing. -/
theorem flood_result (hs : c.store = .table t) (ht : t.Intact) (chain : Nat) : (c.flood chain).result = .ok () := by
  obtain ⟨f, -, hf, -⟩ := flood_eq hs ht chain
  rw [hf]

/-- Neither does measuring. -/
theorem inspect_result (hs : c.store = .table t) (ht : t.Intact) : c.inspect.result = .ok () := by
  rw [inspect_eq hs ht]
  split
  · exact flood_result hs ht t.peak
  · rfl

/-- The guard refuses no key that the table has taken. -/
theorem insert_error_iff (hs : c.store = .table t) (ht : t.Intact) {key : K} {value : V} {f : Fault} :
    (c.insert key value).result = .error f ↔ (t.insert (c.storedHash key) key value).result = .error f := by
  have hintact := ht.insert_leaves (c.storedHash key) key value
  rw [Container.insert]
  rw [hs]
  refine Reply.within_andThen_error_iff fun outcome _ => ?_
  cases outcome with
  | updated old moved => exact ⟨some old, rfl⟩
  | added chain resized =>
      refine ⟨none, ?_⟩
      dsimp only
      rw [Reply.map_result]
      split
      · rw [flood_result rfl hintact]
        rfl
      · split
        · rw [inspect_result rfl hintact]
          rfl
        · rfl

omit [EquivBEq K] in
/-- An insertion that found the key has changed the table at its entry. -/
theorem insert_of_some {old : V} (hs : c.store = .table t) (hok : (c.insert key value).result = .ok (some old)) :
    ∃ moved, (t.insert (c.storedHash key) key value).result = .ok (.updated old moved) ∧
      (c.insert key value).state.store = .table (t.insert (c.storedHash key) key value).state := by
  rw [insert] at hok ⊢
  rw [hs] at hok ⊢
  dsimp only at hok ⊢
  obtain ⟨outcome, houtcome, hok, hstate⟩ := Reply.andThen_result_eq_ok hok
  rw [hstate]
  cases outcome with
  | updated old' moved =>
      obtain rfl : old' = old := Option.some.inj (Except.ok.inj hok)
      exact ⟨moved, houtcome, by cases moved <;> rfl⟩
  | added chain resized =>
      obtain ⟨-, -, hnone⟩ := Reply.map_result_eq_ok hok
      cases hnone

omit [EquivBEq K] in
/-- An insertion that did not find it has added it to the table, if there still is one. -/
theorem insert_of_none (hs : c.store = .table t) (hok : (c.insert key value).result = .ok none)
    (hs' : (c.insert key value).state.store = .table t') :
    ∃ chain resized, (t.insert (c.storedHash key) key value).result = .ok (.added chain resized) ∧
      t' = (t.insert (c.storedHash key) key value).state := by
  rw [insert] at hok hs'
  rw [hs] at hok hs'
  dsimp only at hok hs'
  obtain ⟨outcome, houtcome, hok, hstate⟩ := Reply.andThen_result_eq_ok hok
  rw [hstate] at hs'
  cases outcome with
  | updated old moved => cases Except.ok.inj hok
  | added chain resized =>
      refine ⟨chain, resized, houtcome, ?_⟩
      -- the guard that follows leaves this table or none
      let c₁ : Container K V := { c with store := .table (t.insert (c.storedHash key) key value).state }
      have hkept : OnTable (· = (t.insert (c.storedHash key) key value).state) c₁.bump :=
        fun _ hu => (Store.table.inj hu).symm
      have hguarded : Reply.Leaves (if c.maxChain < chain then c₁.bump.flood chain
          else if resized then c₁.bump.inspect else .ok c₁.bump ())
          (OnTable (· = (t.insert (c.storedHash key) key value).state)) := by
        split
        · exact hkept.flood chain
        · split
          · exact hkept.inspect
          · exact hkept
      exact hguarded t' hs'

/-- Making room in a container is refused exactly if its table refuses it. -/
theorem reserve_error_iff (hs : c.store = .table t) (ht : t.Intact) {more : UInt64} {f : Fault} :
    (c.reserve more).result = .error f ↔ (t.reserve more.toNat).result = .error f := by
  obtain ⟨is, hsound⟩ := ht
  have hintact : (t.reserve more.toNat).state.Intact := ⟨is, (hsound.reserve_leaves more.toNat).2⟩
  rw [Container.reserve]
  rw [hs]
  refine Reply.within_andThen_error_iff fun _ _ => ?_
  split
  · exact ⟨(), inspect_result rfl hintact⟩
  · exact ⟨(), rfl⟩

end Container

end DenseHash
