import DenseHash.Cursor.Sweep
import DenseHash.Proofs.Cursor.Place
import DenseHash.Proofs.Sift

/-!
# What a sweep meets

`Cursor.sweep` goes along a container, `Swept.along` along a list, where what it leaves and the order in which it
meets the entries can be read off.

* **`Swept.along_seen_perm`:** every entry is met once. If removal is in place, they are met in their order.
* **`Swept.parts_along`:** gone is what the visitor picked as it came, and what it did not pick stays, in the order
  in which it was met.
* **`Cursor.Stands.sweepFor_gives`:** the cursor does the same, from wherever it stands.
-/

namespace DenseHash

variable {K V σ : Type}

/-! ## Sweeping a list -/

/-- The entries that a visitor picks as they come, and those that it does not. -/
def parts (pick : σ → K → V → σ × Bool) (state : σ) : List (K × V) → List (K × V) × List (K × V)
  | [] => ([], [])
  | (key, value) :: rest =>
      let (state, picked) := pick state key value
      let (gone, kept) := parts pick state rest
      if picked then ((key, value) :: gone, kept) else (gone, (key, value) :: kept)

/-- The visitor of a walk that drops what is picked, and that writes down what it has seen. -/
def noting (pick : σ → K → V → σ × Bool) (notes : σ × List (K × V)) (key : K) (value : V) :
    (σ × List (K × V)) × V × Bool :=
  let (state, picked) := pick notes.1 key value
  ((state, (key, value) :: notes.2), value, !picked)

/-- What the visitor with notes does, read off the one that picks. -/
theorem noting_eq {pick : σ → K → V → σ × Bool} {state state' : σ} {key : K} {value : V} {picked : Bool}
    (h : pick state key value = (state', picked)) (seen : List (K × V)) :
    noting pick (state, seen) key value = ((state', (key, value) :: seen), value, !picked) := by
  rw [noting, h]

namespace Swept

@[simp] theorem seen_see (p : K × V) (s : Swept K V) : (s.see p).seen = p :: s.seen := rfl

@[simp] theorem gone_see (p : K × V) (s : Swept K V) : (s.see p).gone = s.gone := rfl

@[simp] theorem stopped_see (p : K × V) (s : Swept K V) : (s.see p).stopped = s.stopped := rfl

@[simp] theorem seen_drop (p : K × V) (s : Swept K V) : (s.drop p).seen = s.seen := rfl

@[simp] theorem gone_drop (p : K × V) (s : Swept K V) : (s.drop p).gone = p :: s.gone := rfl

@[simp] theorem stopped_drop (p : K × V) (s : Swept K V) : (s.drop p).stopped = s.stopped := rfl

/-- What a sweep of a list meets, and what it leaves. -/
def along (packed : Bool) (pick : σ → K → V → σ × Bool) (state : σ) :
    List (K × V) → Swept K V × List (K × V)
  | [] => (ended none, [])
  | (key, value) :: rest =>
      let (state, picked) := pick state key value
      if picked then
        let (swept, kept) := along packed pick state (closeUp packed rest)
        ((swept.drop (key, value)).see (key, value), kept)
      else
        let (swept, kept) := along packed pick state rest
        (swept.see (key, value), (key, value) :: kept)
termination_by pairs => pairs.length
decreasing_by
  · rw [Listing.length_closeUp]
    exact Nat.lt_add_one _
  · exact Nat.lt_add_one _

section Along

variable {packed : Bool} {pick : σ → K → V → σ × Bool} {state state' : σ} {key : K} {value : V}
  {rest : List (K × V)}

/-- An entry that is picked goes, the rest closes up, and the sweep goes on behind it. -/
theorem along_picked (h : pick state key value = (state', true)) :
    along packed pick state ((key, value) :: rest) =
      (((along packed pick state' (closeUp packed rest)).1.drop (key, value)).see (key, value),
        (along packed pick state' (closeUp packed rest)).2) := by
  rw [along, h]
  rfl

/-- An entry that is not picked stays. -/
theorem along_spared (h : pick state key value = (state', false)) :
    along packed pick state ((key, value) :: rest) =
      ((along packed pick state' rest).1.see (key, value), (key, value) :: (along packed pick state' rest).2) := by
  rw [along, h]
  rfl

theorem parts_picked (h : pick state key value = (state', true)) :
    parts pick state ((key, value) :: rest) =
      ((key, value) :: (parts pick state' rest).1, (parts pick state' rest).2) := by
  rw [parts, h]
  rfl

theorem parts_spared (h : pick state key value = (state', false)) :
    parts pick state ((key, value) :: rest) =
      ((parts pick state' rest).1, (key, value) :: (parts pick state' rest).2) := by
  rw [parts, h]
  rfl

/-- Sweeping meets one entry, and goes on with the others. -/
theorem along_induction {P : σ → List (K × V) → Prop} (packed : Bool) (pick : σ → K → V → σ × Bool)
    (nil : ∀ state, P state [])
    (picked : ∀ state key value state' rest, pick state key value = (state', true) →
      P state' (closeUp packed rest) → P state ((key, value) :: rest))
    (spared : ∀ state key value state' rest, pick state key value = (state', false) →
      P state' rest → P state ((key, value) :: rest)) (state : σ) (ps : List (K × V)) : P state ps := by
  induction state, ps using Listing.sift_induction packed
    fun state key value => ((pick state key value).1, value, !(pick state key value).2) with
  | nil state => exact nil state
  | stays state key value state' value' rest hkeep ih =>
      cases hpick : pick state key value with
      | mk next picks =>
          rw [hpick] at hkeep
          cases picks <;> cases hkeep
          exact spared state key value _ rest hpick ih
  | goes state key value state' value' rest hkeep ih =>
      cases hpick : pick state key value with
      | mk next picks =>
          rw [hpick] at hkeep
          cases picks <;> cases hkeep
          exact picked state key value _ rest hpick ih

end Along

variable (packed : Bool) (pick : σ → K → V → σ × Bool) (state : σ) (ps : List (K × V))

/-- A sweep of a list comes to its end. -/
theorem along_stopped : (along packed pick state ps).1.stopped = none := by
  induction state, ps using along_induction packed pick with
  | nil state => rw [along]; rfl
  | picked state key value state' rest hpick ih => simpa [along_picked hpick] using ih
  | spared state key value state' rest hpick ih => simpa [along_spared hpick] using ih

/-- Every entry is met once. -/
theorem along_seen_perm : (along packed pick state ps).1.seen.Perm ps := by
  induction state, ps using along_induction packed pick with
  | nil state => rw [along]; exact .refl []
  | picked state key value state' rest hpick ih =>
      rw [along_picked hpick]
      exact (ih.trans (closeUp_perm packed rest)).cons (key, value)
  | spared state key value state' rest hpick ih =>
      rw [along_spared hpick]
      exact ih.cons (key, value)

/-- If removal is in place, the entries are met in order. -/
theorem along_seen_inPlace : (along false pick state ps).1.seen = ps := by
  induction state, ps using along_induction false pick with
  | nil state => rw [along]; rfl
  | picked state key value state' rest hpick ih =>
      rw [along_picked hpick]
      exact congrArg (List.cons (key, value)) ih
  | spared state key value state' rest hpick ih =>
      rw [along_spared hpick]
      exact congrArg (List.cons (key, value)) ih

/-- What is gone and what is left, as the visitor decided in the order in which it met the entries. -/
theorem parts_along : parts pick state (along packed pick state ps).1.seen =
    ((along packed pick state ps).1.gone, (along packed pick state ps).2) := by
  induction state, ps using along_induction packed pick with
  | nil state => rw [along]; rfl
  | picked state key value state' rest hpick ih =>
      rw [along_picked hpick]
      dsimp only [seen_see, seen_drop]
      rw [parts_picked hpick, ih]
      rfl
  | spared state key value state' rest hpick ih =>
      rw [along_spared hpick]
      dsimp only [seen_see]
      rw [parts_spared hpick, ih]
      rfl

/-- A walk of the same visitor meets the same entries and leaves the same. -/
theorem sift_noting (seen : List (K × V)) : ∃ state', Listing.sift packed (noting pick) (state, seen) ps =
    ((along packed pick state ps).2, state', (along packed pick state ps).1.seen.reverse ++ seen) := by
  induction state, ps using along_induction packed pick generalizing seen with
  | nil state => exact ⟨state, by rw [along, Listing.sift]; rfl⟩
  | picked state key value state' rest hpick ih =>
      obtain ⟨state₁, hsift⟩ := ih ((key, value) :: seen)
      refine ⟨state₁, ?_⟩
      rw [Listing.sift_drop (noting_eq hpick seen), hsift, along_picked hpick]
      simp
  | spared state key value state' rest hpick ih =>
      obtain ⟨state₁, hsift⟩ := ih ((key, value) :: seen)
      refine ⟨state₁, ?_⟩
      rw [Listing.sift_keep (noting_eq hpick seen), hsift, along_spared hpick]
      simp

/-- The walk of a listing that drops what is picked leaves what the sweep leaves, and notes what it meets. -/
theorem walk_noting (l : Listing K V) : ∃ state', l.walk (noting pick) (state, []) 0 =
    ({ l with pairs := (along l.packed pick state l.pairs).2 }, state',
      (along l.packed pick state l.pairs).1.seen.reverse) := by
  obtain ⟨state', hsift⟩ := sift_noting l.packed pick state l.pairs []
  have hwalk := Listing.walk_eq_sift (noting pick) (state, []) (List.nil_append l.pairs).symm
  rw [hsift, List.append_nil] at hwalk
  exact ⟨state', hwalk⟩

/-- What is not picked stays in order. -/
theorem parts_sublist : (parts pick state ps).2.Sublist ps := by
  induction ps generalizing state with
  | nil => exact .refl []
  | cons p rest ih =>
      obtain ⟨key, value⟩ := p
      obtain ⟨state', picks, hpick⟩ : ∃ a b, pick state key value = (a, b) := ⟨_, _, rfl⟩
      cases picks with
      | true =>
          rw [parts_picked hpick]
          exact (ih state').cons (key, value)
      | false =>
          rw [parts_spared hpick]
          exact (ih state').cons_cons (key, value)

end Swept

/-! ## Sweeping a container -/

namespace Cursor

variable [Backing] {c : Container K V} {cur : Cursor} {slots as bs : List Slot} {ps : List (K × V)} {last : Option K}

namespace Stands

/-- There is a next entry if slots are to come. -/
theorem hasNext_eq (h : cur.Stands c as bs last) (ha : cur.Admitted c) : cur.hasNext = !bs.isEmpty := by
  rw [hasNext, ha.poison, h.upcoming]
  cases bs <;> rfl

/-- A sweep that is at the end stops there. -/
theorem sweepFor_nil (pick : σ → K → V → σ × Bool) (fuel : Nat) (state : σ) (h : cur.Stands c as [] last)
    (ha : cur.Admitted c) : sweepFor pick fuel state cur c = .ok (c, cur) (.ended none) := by
  unfold sweepFor
  rw [h.hasNext_eq ha]
  exact if_neg Bool.false_ne_true

end Stands

variable [BEq K]

/-- The cursor has come to the end of what its container has become. -/
structure Through (c : Container K V) (ps : List (K × V)) (c' : Container K V) (cur : Cursor) : Prop where
  kind : c.store.SameKind c'.store
  admitted : cur.Admitted c'
  shows : ∃ slots last, c'.Shows slots ps ∧ cur.Stands c' slots [] last

namespace Stands

/-- A sweep that is at the end has gone through. -/
theorem sweepFor_end (pick : σ → K → V → σ × Bool) (fuel : Nat) (state : σ) (h : cur.Stands c as [] last)
    (ha : cur.Admitted c) (hshows : c.Shows (as ++ []) ps) :
    (sweepFor pick fuel state cur c).Gives fun swept s =>
      swept = .ended none ∧ Through c (as.filterMap c.store.held) s.1 s.2 := by
  rw [List.append_nil] at hshows
  rw [h.sweepFor_nil pick fuel state ha]
  exact Reply.gives_ok ⟨rfl, .refl _, ha, as, last, hshows.pairs ▸ hshows, h⟩

/-- From wherever the cursor stands, a sweep does to the entries before it what a sweep of a list does. -/
theorem sweepFor_gives (pick : σ → K → V → σ × Bool) {fuel : Nat} (state : σ) (h : cur.Stands c as bs last)
    (ha : cur.Admitted c) (hshows : c.Shows (as ++ bs) ps) (hfuel : bs.length ≤ fuel) :
    (sweepFor pick fuel state cur c).Gives fun swept s =>
      swept = (Swept.along c.store.isPacked pick state (bs.filterMap c.store.held)).1 ∧
        Through c (as.filterMap c.store.held ++
          (Swept.along c.store.isPacked pick state (bs.filterMap c.store.held)).2) s.1 s.2 := by
  induction fuel generalizing c cur as bs ps last state with
  | zero =>
      obtain rfl := List.length_eq_zero_iff.mp (Nat.le_zero.mp hfuel)
      rw [List.filterMap_nil, Swept.along, List.append_nil]
      exact h.sweepFor_end pick 0 state ha hshows
  | succ fuel ih =>
      cases bs with
      | nil =>
          rw [List.filterMap_nil, Swept.along, List.append_nil]
          exact h.sweepFor_end pick (fuel + 1) state ha hshows
      | cons slot bs =>
          replace hfuel : bs.length ≤ fuel := Nat.le_of_succ_le_succ hfuel
          obtain ⟨key, value, cur₁, hp, hnext, ha₁, hst₁⟩ := h.next_cons ha hshows
          obtain ⟨state₁, picks, hpick⟩ : ∃ a b, pick state key value = (a, b) := ⟨_, _, rfl⟩
          rw [sweepFor]
          rw [h.hasNext_eq ha, if_pos (show (!(slot :: bs).isEmpty) = true from rfl), hnext]
          dsimp only
          rw [hpick, List.filterMap_cons_some hp]
          dsimp only
          rw [List.append_cons] at hshows
          cases picks with
          | true =>
              -- the cursor is back where the entry was, and the slots before it are renamed
              rw [if_pos rfl, Swept.along_picked hpick]
              obtain ⟨as', slot', value', hcons, hp', hgives⟩ := hst₁.remove_some ha₁ hshows
              obtain ⟨rfl, hslot⟩ := List.append_inj' hcons rfl
              obtain rfl := (List.cons.inj hslot).1
              obtain rfl : value = value' := (Prod.mk.inj (Option.some.inj (hp.symm.trans hp'))).2
              refine hgives.andThen ?_
              rintro _ ⟨c₂, cur₂⟩ ⟨rfl, rename, hremoved, ha₂, hst₂⟩
              have hshows₂ := hremoved.shows
              rw [List.map_append] at hshows₂
              have hfuel₂ : ((closeUp c.store.isPacked bs).map rename).length ≤ fuel := by
                rw [List.length_map, Listing.length_closeUp]
                exact hfuel
              refine Reply.Gives.map ((ih state₁ hst₂ ha₂ hshows₂ hfuel₂).imp fun swept s hs => ?_)
              rw [hremoved.front, hremoved.back, hremoved.kind.isPacked] at hs
              obtain ⟨rfl, hkind, ha', hthrough⟩ := hs
              exact ⟨rfl, hremoved.kind.trans hkind, ha', hthrough⟩
          | false =>
              -- the entry joins those behind the cursor
              rw [if_neg Bool.false_ne_true, Swept.along_spared hpick]
              refine Reply.Gives.map ((ih state₁ hst₁ ha₁ hshows hfuel).imp fun swept s hs => ?_)
              rw [List.filterMap_append, List.filterMap_cons_some hp, List.filterMap_nil, List.append_assoc] at hs
              obtain ⟨rfl, hthrough⟩ := hs
              exact ⟨rfl, hthrough⟩

/-- The cursor has a next entry exactly if a step returns one. -/
theorem hasNext_iff (h : cur.Stands c as bs last) (ha : cur.Admitted c) (hshows : c.Shows (as ++ bs) ps) :
    cur.hasNext = true ↔ ∃ p cur', cur.next c = .ok (.ok p, cur') := by
  rw [h.hasNext_eq ha]
  cases bs with
  | nil =>
      rw [h.next_nil ha]
      constructor
      · intro hfalse
        exact absurd hfalse Bool.false_ne_true
      · rintro ⟨p, cur', heq⟩
        cases heq
  | cons slot bs =>
      obtain ⟨key, value, cur', -, hnext, -, -⟩ := h.next_cons ha hshows
      exact ⟨fun _ => ⟨(key, value), cur', hnext⟩, fun _ => rfl⟩

end Stands

/-- From the start, all of the container is swept. -/
theorem sweep_gives (h : c.Shows slots ps) (pick : σ → K → V → σ × Bool) (state : σ) :
    (sweep pick state (.start c) c).Gives fun swept s =>
      swept = (Swept.along c.store.isPacked pick state ps).1 ∧
        Through c (Swept.along c.store.isPacked pick state ps).2 s.1 s.2 := by
  have hstart : c.Shows ([] ++ slots) ps := h
  have hfuel : slots.length ≤ c.size + 1 := Nat.le_succ_of_le (Nat.le_of_eq h.sound.size_eq.symm)
  have hgives := (stands_start h).sweepFor_gives pick state ⟨rfl, rfl, rfl⟩ hstart hfuel
  rw [h.pairs] at hgives
  exact hgives

end Cursor

end DenseHash
