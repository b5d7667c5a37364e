import DenseHash.Proofs.Container.Parts

/-!
# Inserting, making room and moving to the fallback

The flood guard moves the entries without changing their order, so an insertion and a request for room show the
same entries whether it steps in or not. A limit of size is the only reason to refuse one of them.
-/

namespace DenseHash

namespace Container

variable [Backing] {K V : Type} [BEq K] {c c' : Container K V} {slots : List Slot} {ps : List (K × V)} {n : Nat}

/-- Other buckets show the same. -/
theorem Shows.becomes_alike {t t' : Table K V} {is : List Nat} (h : c.Shows slots ps)
    (hs : c.store = .table t) (hslots : slots = is.map .index) (hhash : t.Hashed c.hashing.stored)
    (halike : t.Alike t') (ht' : t'.Sound is) : c.Becomes 0 slots ps { c with store := .table t' } := by
  have hheld : (Store.table t').held = c.store.held := by
    rw [hs]
    funext slot
    cases slot with
    | index i => simp only [Store.held, Table.pair?, halike.content]
    | node k => rfl
  have hsound : Store.Sound c.hashing (.table t') slots :=
    ⟨is, hslots, ht', fun hc => hhash (halike.content ▸ hc)⟩
  refine ⟨slots, ⟨hsound, ?_⟩, .silent ?_ ?_⟩
  · show slots.filterMap (Store.table t').held = ps
    rw [hheld, h.pairs]
  · rw [hs]
    exact Store.sameKind_table (by rw [halike.order]; exact .refl _)
  · rw [Store.labels, hheld]
    rfl

variable [EquivBEq K]

namespace Shows

/-! ## The flood guard -/

/-- The flood guard leaves the entries as they are. It may move them into the fallback. -/
theorem flood_gives (h : c.Shows slots ps) (hr : c.hashing.Respects) (chain : Nat) :
    (c.flood chain).Gives fun _ c' => c.Becomes 0 slots ps c' := by
  have hsound := h.sound
  have hpairs := h.sound.pairs_eq
  rw [flood]
  cases hs : c.store with
  | fallback f => exact Reply.gives_ok h.becomes_self
  | table t =>
      rw [h.pairs, hs] at hpairs
      have hempty := Fallback.sound_empty (V := V) c.hashing.secondary t.order.byAccess
      obtain ⟨f, ss, hall, hf, hps, hdraws, haccess⟩ :=
        hempty.insertAll_eq ps (by simpa using h.distinctKeys hr)
      -- every pair is read off the table before the first is inserted
      have hmoved : (t.pairs >>= fun pairs =>
          Fallback.insertAll pairs (.empty c.hashing.secondary t.order.byAccess)) = .ok f := by
        rw [show t.pairs = .ok ps from hpairs, Checked.ok_bind, hall]
      dsimp only
      rw [hmoved]
      refine ⟨(), rfl, ss.map .node, ⟨⟨ss, rfl, hf, hdraws ▸ .refl _⟩, ?_⟩, ?_⟩
      · rw [List.filterMap_map]
        exact hps
      -- moving counts as one change, which no caller asked for
      · have hfloods : c.floods ({ c with store := .fallback f } : Container K V).bump = 1 := by
          rw [floods, isFallback]
          rw [hs]
          rfl
        refine ⟨rfl, rfl, rfl, ?_, ?_, fun _ => rfl, ?_, fun hzero => ?_⟩
        · rw [hs]
          exact haccess
        · exact (Bool.and_false _).symm
        · rw [hfloods]
          rfl
        · rw [hfloods] at hzero
          exact absurd hzero Nat.one_ne_zero

/-- Inspecting the chains leaves the entries as they are, whether it calls the guard or not. -/
theorem inspect_gives (h : c.Shows slots ps) (hr : c.hashing.Respects) :
    c.inspect.Gives fun _ c' => c.Becomes 0 slots ps c' := by
  rw [inspect]
  cases hs : c.store with
  | fallback f => exact Reply.gives_ok h.becomes_self
  | table t =>
      obtain ⟨is, -, ht, -⟩ := h.sound.exists_indices hs
      obtain ⟨n, hn⟩ := ht.longestChain_eq
      dsimp only
      rw [hn]
      dsimp only
      split
      · exact h.flood_gives hr n
      · exact Reply.gives_ok h.becomes_self

end Shows

/-- The guard does not change what another operation made of a container. -/
theorem Becomes.flood_gives (h : c.Becomes n slots ps c') (hr : c.hashing.Respects) (chain : Nat) :
    (c'.flood chain).Gives fun _ c'' => c.Becomes n slots ps c'' := by
  obtain ⟨slots', hshows, hev⟩ := id h
  refine (hshows.flood_gives (hev.hashing ▸ hr) chain).imp fun _ c'' hc'' => ?_
  obtain ⟨slots'', hshows', hev'⟩ := hc''
  exact ⟨slots'', hshows', hev.trans hev'⟩

/-- Inspecting what a container became adds no change to it. -/
theorem Becomes.inspect_gives (h : c.Becomes n slots ps c') (hr : c.hashing.Respects) :
    c'.inspect.Gives fun _ c'' => c.Becomes n slots ps c'' := by
  obtain ⟨slots', hshows, hev⟩ := id h
  refine (hshows.inspect_gives (hev.hashing ▸ hr)).imp fun _ c'' hc'' => ?_
  obtain ⟨slots'', hshows', hev'⟩ := hc''
  exact ⟨slots'', hshows', hev.trans hev'⟩

namespace Shows

/-! ## Room -/

/-- Making room leaves the entries as they are. -/
theorem reserve_meets (h : c.Shows slots ps) (hr : c.hashing.Respects) (more : UInt64) :
    (c.reserve more).Meets fun _ c' => c.Becomes 0 slots ps c' := by
  rw [reserve]
  cases hs : c.store with
  | fallback f =>
      dsimp only
      rw [Fallback.reserve]
      split
      · exact Reply.Meets.mk_error rfl trivial
      · exact Reply.Meets.mk_ok rfl h.becomes_self
  | table t =>
      obtain ⟨is, hslots, ht, hhash⟩ := h.sound.exists_indices hs
      dsimp only
      refine Reply.Meets.andThen (P := fun _ c' => c.Becomes 0 slots ps c') ?_ fun _ c' hc' => ?_
      · exact Reply.Meets.within ((ht.reserve_meets _).imp fun _ t' ht' =>
          h.becomes_alike hs hslots hhash ht'.1 ht'.2)
      · split
        · exact (hc'.inspect_gives hr).meets
        · exact Reply.meets_ok hc'

/-- Giving room back leaves the entries as they are. -/
theorem shrink_meets (h : c.Shows slots ps) (hr : c.hashing.Respects) :
    c.shrink.Meets fun _ c' => c.Becomes 0 slots ps c' := by
  rw [shrink]
  cases hs : c.store with
  | fallback f => exact Reply.meets_ok h.becomes_self
  | table t =>
      obtain ⟨is, hslots, ht, hhash⟩ := h.sound.exists_indices hs
      dsimp only
      refine Reply.Meets.andThen (P := fun _ c' => c.Becomes 0 slots ps c') ?_ fun _ c' hc' => ?_
      · exact Reply.Meets.within (ht.shrink_meets.imp fun _ t' ht' =>
          h.becomes_alike hs hslots hhash ht'.1 ht'.2)
      · exact (hc'.inspect_gives hr).meets

end Shows

end Container

end DenseHash
