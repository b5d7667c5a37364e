import DenseHash.Proofs.Container.Stored
import DenseHash.Proofs.Cursor.Sweep

/-!
# Retaining is sweeping

Entries can be removed by a visitor that says which ones stay, or through a cursor that is stepped to the end. The one loop
holds the place where it goes on in a variable; the other has it in the cursor, which also checks the container before
every step and takes over the generation after every removal. If the visitor changes no value, the two do the same:

* **`Cursor.Admitted.retainFrom_noting`** compares them step by step, wherever the cursor stands, and whatever the
  container is like. What carries the induction is that the cursor is still admitted.
* **`Container.retain_is_sweep`** is about the whole loops. They differ in the number of steps that they are ready to make,
  but in a container that operations lead to there is never one too many.
-/

namespace DenseHash

variable {K V σ : Type}

/-! ## Writing the value that is there -/

/-- Nothing changes if a value is replaced by itself. -/
theorem Table.setValue_self {t : Table K V} {i : Nat} {e : Entry K V} (h : t.entry i = .ok e) :
    t.setValue i e.value = .ok t := by
  obtain ⟨e', he', hget, -⟩ := entry_eq (content_of_entry h)
  obtain rfl := Except.ok.inj (he'.symm.trans h)
  have hi : i < t.size := (Array.getElem?_eq_some_iff.mp hget).1
  have hentries : t.entries.modify i (fun e => { e with value := e'.value }) = t.entries := by
    apply Array.ext_getElem?
    intro k
    rw [Array.getElem?_modify]
    split
    · rename_i hik
      rw [← hik, hget]
      rfl
    · rfl
  rw [setValue, if_pos hi, hentries]

theorem Fallback.setValue_self [Backing] {f : Fallback K V} {slot : Backing.Handle} {n : Node K V}
    (h : f.node slot = .ok n) :
    f.setValue slot n.value = .ok f := by
  obtain ⟨n', hn', hget, -⟩ := node_eq (content_of_node h)
  obtain rfl := Except.ok.inj (hn'.symm.trans h)
  have hnodes : Backing.fill f.nodes slot n' = f.nodes := Backing.fill_self hget
  rw [setValue, h, Checked.ok_bind]
  show Except.ok { f with nodes := Backing.fill f.nodes slot n' } = _
  rw [hnodes]

/-- The same in either form of storage. -/
theorem Store.setValue_self [Backing] {s : Store K V} {slot : Slot} {key : K} {value : V}
    (h : s.pair slot = .ok (key, value)) : s.setValue slot value = .ok s := by
  cases s with
  | table t =>
      cases slot with
      | index i =>
          obtain ⟨e, he, hp⟩ := Checked.bind_eq_ok h
          cases hp
          rw [setValue, Table.setValue_self he]
          rfl
      | node k => cases h
  | fallback f =>
      cases slot with
      | index i => cases h
      | node k =>
          obtain ⟨n, hn, hp⟩ := Checked.bind_eq_ok h
          cases hp
          rw [setValue, Fallback.setValue_self hn]
          rfl

/-! ## Retaining, step by step -/

/-- The visitor that drops what is picked and changes no value. -/
def sparing (pick : σ → K → V → σ × Bool) (state : σ) (key : K) (value : V) : σ × V × Bool :=
  let (state, picked) := pick state key value
  (state, value, !picked)

/-- What the sparing visitor does, read off the one that picks. -/
theorem sparing_eq {pick : σ → K → V → σ × Bool} {state state' : σ} {key : K} {value : V} {picked : Bool}
    (h : pick state key value = (state', picked)) : sparing pick state key value = (state', value, !picked) := by
  rw [sparing, h]

namespace Container

variable [Backing] {c : Container K V} {slot : Slot} {upcoming place : Option Slot} {key : K} {value : V} {fuel : Nat}
  {f : Fault}
  {keep : σ → K → V → σ × V × Bool} {state state' : σ}

/-- What a loop reads at a slot before it changes anything: where it goes on, and the entry. -/
def meet (c : Container K V) (slot : Slot) : Checked (Option Slot × K × V) := do
  let upcoming ← c.store.next slot
  let pair ← c.store.pair slot
  pure (upcoming, pair)

/-- One step of a visitor that does not change the value. -/
theorem retainFrom_step {stays : Bool} (hmeet : c.meet slot = .ok (upcoming, key, value))
    (hkeep : keep state key value = (state', value, stays)) :
    retainFrom keep (fuel + 1) (some slot) state c =
      if stays then retainFrom keep fuel upcoming state' c
      else (c.removeSlot slot upcoming).andThen fun removed c => retainFrom keep fuel removed.2 state' c := by
  obtain ⟨upcoming', hnext, hrest⟩ := Checked.bind_eq_ok hmeet
  obtain ⟨pair, hpair, hends⟩ := Checked.bind_eq_ok hrest
  cases hends
  rw [retainFrom, hnext, Checked.ok_bind, hpair, Checked.ok_bind]
  dsimp only
  rw [hkeep]
  dsimp only
  rw [Store.setValue_self hpair]
  rfl

/-- A slot that is refused ends the loop before anything is changed. -/
theorem retainFrom_of_meet_error (hmeet : c.meet slot = .error f) :
    retainFrom keep (fuel + 1) (some slot) state c = .fail c f := by
  rw [meet] at hmeet
  rw [retainFrom]
  cases hnext : c.store.next slot with
  | error g =>
      rw [hnext] at hmeet
      cases hmeet
      rfl
  | ok upcoming =>
      rw [hnext, Checked.ok_bind] at hmeet
      cases hpair : c.store.pair slot with
      | error g =>
          rw [hpair] at hmeet
          cases hmeet
          rfl
      | ok pair =>
          rw [hpair] at hmeet
          cases hmeet

/-- A loop that has come to its end does not use more fuel. -/
theorem retainFrom_succ {final : σ} (h : (retainFrom keep fuel place state c).result = .ok final) :
    retainFrom keep (fuel + 1) place state c = retainFrom keep fuel place state c := by
  induction fuel generalizing c place state with
  | zero =>
      cases place with
      | none => rfl
      | some slot => cases h
  | succ fuel ih =>
      cases place with
      | none => rfl
      | some slot =>
          rw [retainFrom] at h
          rw [retainFrom, retainFrom]
          obtain ⟨visited, hvisited, h, -⟩ := Reply.andThen_result_eq_ok h
          rw [Reply.andThen_of_ok hvisited, Reply.andThen_of_ok hvisited]
          obtain ⟨upcoming, state', stays⟩ := visited
          dsimp only at h ⊢
          cases stays with
          | true => rw [if_pos rfl, if_pos rfl, ih h]
          | false =>
              rw [if_neg Bool.false_ne_true] at h
              obtain ⟨removed, hremoved, h, -⟩ := Reply.andThen_result_eq_ok h
              rw [if_neg Bool.false_ne_true, if_neg Bool.false_ne_true, Reply.andThen_of_ok hremoved,
                Reply.andThen_of_ok hremoved, ih h]

/-- Writing down what is seen has no part in what is done. -/
theorem retainFrom_sparing (pick : σ → K → V → σ × Bool) (fuel : Nat) (place : Option Slot) (state : σ)
    (seen : List (K × V)) (c : Container K V) :
    retainFrom (sparing pick) fuel place state c = (retainFrom (noting pick) fuel place (state, seen) c).map Prod.fst := by
  induction fuel generalizing place state seen c with
  | zero => cases place <;> rfl
  | succ fuel ih =>
      cases place with
      | none => rfl
      | some slot =>
          cases hmeet : c.meet slot with
          | error f =>
              rw [retainFrom_of_meet_error hmeet, retainFrom_of_meet_error hmeet]
              rfl
          | ok met =>
              obtain ⟨upcoming, key, value⟩ := met
              obtain ⟨state', picked, hpick⟩ : ∃ a b, pick state key value = (a, b) := ⟨_, _, rfl⟩
              rw [retainFrom_step hmeet (sparing_eq hpick), retainFrom_step hmeet (noting_eq hpick seen)]
              cases picked with
              | false => exact ih upcoming state' ((key, value) :: seen) c
              | true =>
                  rw [if_neg (show ¬(!true) = true from Bool.false_ne_true),
                    if_neg (show ¬(!true) = true from Bool.false_ne_true)]
                  cases hrem : (c.removeSlot slot upcoming).result with
                  | error f =>
                      rw [Reply.andThen_of_error hrem, Reply.andThen_of_error hrem]
                      rfl
                  | ok removed =>
                      rw [Reply.andThen_of_ok hrem, Reply.andThen_of_ok hrem]
                      exact congrArg (Reply.after _) (ih removed.2 state' ((key, value) :: seen) _)

end Container

/-! ## Two loops side by side -/

namespace Cursor

variable [Backing] {c : Container K V} {cur : Cursor} {slot : Slot} {upcoming : Option Slot} {key : K} {value : V}
  {fuel : Nat}
  {pick : σ → K → V → σ × Bool} {state state' : σ} {seen : List (K × V)}

/-- An admitted cursor has a next entry if it has a next slot. -/
theorem Admitted.hasNext_eq (ha : cur.Admitted c) : cur.hasNext = cur.upcoming.isSome := by
  rw [hasNext, ha.poison]
  rfl

/-- A cursor that is admitted reads its container. -/
theorem Admitted.next_some (ha : cur.Admitted c) (hup : cur.upcoming = some slot) :
    cur.next c = (do
      let (upcoming, pair) ← c.meet slot
      pure (.ok pair, { cur with upcoming, current := some slot })) := by
  rw [next, ha.check_eq, Container.meet]
  dsimp only
  rw [hup]
  dsimp only
  cases c.store.next slot with
  | error f => rfl
  | ok upcoming =>
      rw [Checked.ok_bind, Checked.ok_bind]
      cases c.store.pair slot <;> rfl

/-- What is left of a removal that gave a result, and the cursor that made it. -/
theorem Admitted.remove_current {removed : (K × V) × Option Slot} (ha : cur.Admitted c) (hcur : cur.current = some slot)
    (hrem : (c.removeSlot slot cur.upcoming).result = .ok removed) :
    let c' := (c.removeSlot slot cur.upcoming).state
    let cur' := { cur with upcoming := removed.2, current := none, expected := c'.generation }
    cur.remove c = ⟨(c', cur'), (c.removeSlot slot cur.upcoming).events, .ok (.ok removed.1)⟩ ∧ cur'.Admitted c' := by
  have howner : (c.removeSlot slot cur.upcoming).state.owner = c.owner := by
    rw [Container.removeSlot]
    cases c.store.removeSlot slot cur.upcoming <;> rfl
  refine ⟨?_, ha.owner.trans howner.symm, rfl, ha.poison⟩
  rw [remove, ha.check_eq]
  dsimp only
  rw [hcur]
  dsimp only
  generalize c.removeSlot slot cur.upcoming = r at hrem ⊢
  obtain ⟨c', events, result⟩ := r
  cases hrem
  show Reply.mk _ (events ++ []) _ = _
  rw [List.append_nil]
  rfl

/-- A removal that is refused leaves what it leaves without a cursor. -/
theorem Admitted.remove_error {f : Fault} (ha : cur.Admitted c) (hcur : cur.current = some slot)
    (hrem : (c.removeSlot slot cur.upcoming).result = .error f) :
    cur.remove c = ⟨((c.removeSlot slot cur.upcoming).state, { cur with current := none }),
      (c.removeSlot slot cur.upcoming).events, .error f⟩ := by
  rw [remove, ha.check_eq]
  dsimp only
  rw [hcur]
  dsimp only
  rw [Reply.within_andThen_of_error hrem]

/-- A sweep and a visitor that writes down what it sees leave the same, log the same and see the same, and they fail in
    the same way; the cursor is refused nowhere. -/
theorem Admitted.retainFrom_noting (ha : cur.Admitted c) (pick : σ → K → V → σ × Bool) (fuel : Nat) (state : σ)
    (seen : List (K × V)) :
    ((Container.retainFrom (noting pick) fuel cur.upcoming (state, seen) c).map fun notes => (none, notes.2)) =
      ((sweepFor pick fuel state cur c).map fun swept => (swept.stopped, swept.seen.reverse ++ seen)).within Prod.fst := by
  induction fuel generalizing c cur state seen with
  | zero =>
      unfold sweepFor
      rw [ha.hasNext_eq]
      cases cur.upcoming <;> rfl
  | succ fuel ih =>
      unfold sweepFor
      rw [ha.hasNext_eq]
      cases hup : cur.upcoming with
      | none => rfl
      | some slot =>
          rw [if_pos (show (some slot).isSome = true from rfl), ha.next_some hup]
          cases hmeet : c.meet slot with
          | error f =>
              rw [Container.retainFrom_of_meet_error hmeet]
              rfl
          | ok met =>
              obtain ⟨upcoming, key, value⟩ := met
              obtain ⟨state', picked, hpick⟩ : ∃ a b, pick state key value = (a, b) := ⟨_, _, rfl⟩
              have ha₁ : ({ cur with upcoming, current := some slot } : Cursor).Admitted c :=
                ⟨ha.owner, ha.expected, ha.poison⟩
              rw [Checked.ok_bind, Container.retainFrom_step hmeet (noting_eq hpick seen)]
              dsimp only [Checked.pure_eq]
              rw [hpick]
              dsimp only
              cases picked with
              | false =>
                  -- the entry stays, and both go on behind it
                  have hrest := ih ha₁ state' ((key, value) :: seen)
                  rw [if_neg Bool.false_ne_true, if_pos (show (!false) = true from rfl), hrest, Reply.map_map]
                  simp
              | true =>
                  rw [if_pos rfl, if_neg (show ¬(!true) = true from Bool.false_ne_true)]
                  cases hrem : (c.removeSlot slot upcoming).result with
                  | error f =>
                      rw [ha₁.remove_error rfl hrem, Reply.andThen_of_error hrem]
                      rfl
                  | ok removed =>
                      -- the cursor takes over the generation that is left, so it is still admitted
                      obtain ⟨hremove, ha₂⟩ := ha₁.remove_current rfl hrem
                      have hrest := ih ha₂ state' ((key, value) :: seen)
                      rw [hremove, Reply.andThen_of_ok hrem]
                      refine (congrArg (Reply.after _) hrest).trans ?_
                      rw [Reply.andThen_of_ok rfl]
                      dsimp only
                      show _ = (((Reply.map _ (Reply.map _ (sweepFor _ _ _ _ _))).within Prod.fst).after _)
                      rw [Reply.map_map]
                      simp

/-- What two loops that did the same say of each other if one gave a result. -/
theorem eq_of_noting {r : Reply (Container K V) (σ × List (K × V))} {r' : Reply (Container K V × Cursor) (Swept K V)}
    {final : σ} {notes : List (K × V)}
    (h : (r.map fun notes => (none, notes.2)) =
      (r'.map fun swept => (swept.stopped, swept.seen.reverse ++ [])).within Prod.fst)
    (hr : r.result = .ok (final, notes)) :
    ∃ swept, r'.result = .ok swept ∧ swept.stopped = none ∧
      r = ⟨r'.state.1, r'.events, .ok (final, swept.seen.reverse)⟩ := by
  obtain ⟨c, events, result⟩ := r
  obtain rfl : result = .ok (final, notes) := hr
  obtain ⟨hstate, hevents, hresult⟩ := Reply.mk.inj h
  obtain ⟨swept, hswept, hends⟩ := Reply.map_result_eq_ok (r := r') hresult.symm
  obtain ⟨hstopped, hseen⟩ := Prod.mk.inj hends
  dsimp only at hseen
  rw [List.append_nil] at hseen
  refine ⟨swept, hswept, hstopped, ?_⟩
  rw [hseen, ← show c = r'.state.1 from hstate, ← show events = r'.events from hevents]

end Cursor

namespace Container

variable [BEq K] [EquivBEq K] {settings : Settings} {order : Order} {hashing : Hashing K} {owner : OwnerId}
  {events : List Event}

/-- Whatever the history of a container, retaining what a visitor does not pick and sweeping what it picks visit the same
    entries in the same order, and leave the same: the same entries in the same slots under the same links, the same
    buckets and the same generation. Neither is refused, and it does not matter whether the visitor writes down what it
    sees. -/
theorem retain_is_sweep [Backing] {c d : Container K V} (horder : order.Fresh)
    (hmake : make settings order hashing owner = .ok c) (hreach : c.Reaches Any events d)
    (pick : σ → K → V → σ × Bool) (state : σ) :
    ∃ swept final, (Cursor.sweep pick state (.start d) d).result = .ok swept ∧ swept.stopped = none ∧
      d.retain (noting pick) (state, []) =
        ⟨(Cursor.sweep pick state (.start d) d).state.1, (Cursor.sweep pick state (.start d) d).events,
          .ok (final, swept.seen.reverse)⟩ ∧
      d.retain (sparing pick) state =
        ⟨(Cursor.sweep pick state (.start d) d).state.1, (Cursor.sweep pick state (.start d) d).events, .ok final⟩ := by
  obtain ⟨-, slots, ps, hshows⟩ := hreach.exists_shows horder hmake
  have hstart : d.Shows ([] ++ slots) ps := hshows
  have hsize : slots.length ≤ d.size := Nat.le_of_eq hshows.sound.size_eq.symm
  -- the loop comes to its end, so the step that the sweep has to spare makes no difference to it
  obtain ⟨⟨final, notes⟩, hnotes, -⟩ : (retainFrom (noting pick) d.size slots.head? (state, []) d).Gives _ :=
    hstart.retainFrom_gives (noting pick) hsize
  rw [← hshows.sound.first_eq] at hnotes
  have hwhole : d.retain (noting pick) (state, []) =
      retainFrom (noting pick) (d.size + 1) (Cursor.start d).upcoming (state, []) d := (retainFrom_succ hnotes).symm
  have hadmitted : (Cursor.start d).Admitted d := ⟨rfl, rfl, rfl⟩
  have hloops := hadmitted.retainFrom_noting pick (d.size + 1) state []
  rw [← hwhole] at hloops
  obtain ⟨swept, hswept, hstopped, hretain⟩ := Cursor.eq_of_noting hloops hnotes
  refine ⟨swept, final, hswept, hstopped, hretain, ?_⟩
  rw [retain, retainFrom_sparing pick d.size d.store.first state [] d]
  exact congrArg (Reply.map Prod.fst) hretain

/-- A visitor that picks every other entry. The last entry takes the place of the first one and is met next. -/
theorem retain_is_sweep_alternating :
    ∃ (c d : Container Nat Nat) (pick : Bool → Nat → Nat → Bool × Bool),
      make {} .dense ⟨fun k => k.toUInt64, ⟨fun _ k => k.toUInt64⟩⟩ 0 = .ok c ∧ c.Reaches Any [] d ∧
        d.toList = .ok [(1, 10), (2, 20), (3, 30)] ∧ pick = (fun turn _ _ => (!turn, turn)) ∧
        (d.retain (noting pick) (true, [])).result = .ok (false, [(2, 20), (3, 30), (1, 10)]) ∧
        (d.retain (sparing pick) true).state = (Cursor.sweep pick true (.start d) d).state.1 ∧
        (d.retain (sparing pick) true).state.toList = .ok [(3, 30)] ∧
        (d.retain (sparing pick) true).state.generation = d.generation + 2 := by
  have hmake : (make {} .dense ⟨fun k => k.toUInt64, ⟨fun _ k => k.toUInt64⟩⟩ 0 : Except _ (Container Nat Nat)) = .ok _ :=
    rfl
  have hreach : (⟨⟨fun k => k.toUInt64, ⟨fun _ k => k.toUInt64⟩⟩, .table (.empty .dense .threeQuarters 0), 9, 0, 0⟩ :
      Container Nat Nat).Reaches Any [] _ :=
    .apply (.apply (.apply .start (.insert 1 10) trivial) (.insert 2 20) trivial) (.insert 3 30) trivial
  obtain ⟨swept, final, -, -, -, hsparing⟩ := retain_is_sweep .dense hmake hreach (fun turn _ _ => (!turn, turn)) true
  exact ⟨_, _, _, hmake, hreach, by decide +kernel, rfl, by decide +kernel, by rw [hsparing],
    by decide +kernel, by decide +kernel⟩

end Container

end DenseHash
