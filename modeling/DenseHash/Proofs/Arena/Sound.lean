import DenseHash.Proofs.Arena.Basic
import DenseHash.Proofs.Cursor.Place

/-!
# What steps of an arena preserve

`Watched.Fits w c` ties the notes on a cursor to the container that made it. Identity and generation are tied
always: the two generations differ by the changes that the cursor has missed. Only if it has missed none do its
slots still mean something, and then it stands where the notes say.

A step of an arena changes one container or one cursor. `Watched.Fits.evolves` is about the cursors that look on
while a container changes, `Watched.Fits.stepped` and `Watched.Fits.removed` are about the one that acts.
-/

namespace DenseHash

variable [Backing] {K V : Type}

/-! ## Cursors that look on -/

/-- If the structure did not change, a slot still holds the key that it held. -/
theorem Cursor.Holds.of_labels {c c' : Container K V} {slots as : List Slot} {current : Option Slot}
    {last : Option K} (h : Holds c as current last) (has : ∀ k ∈ as, k ∈ slots)
    (hlabels : c'.store.labels slots = c.store.labels slots) : Holds c' as current last := by
  cases h with
  | nothing => exact .nothing as
  | entry as held =>
      have hslot := has _ (List.mem_append_right as (List.mem_singleton_self _))
      have hkey := (Prod.mk.inj (List.map_inj_left.mp hlabels _ hslot)).2
      rw [held] at hkey
      obtain ⟨⟨key', value'⟩, hheld, rfl⟩ := Option.map_eq_some_iff.mp hkey
      exact .entry as hheld

namespace Watched

/-- What is known about a cursor agrees with the container that made it. -/
structure Fits (w : Watched K) (c : Container K V) : Prop where
  owner : w.cursor.owner = c.owner
  generation : w.cursor.poison = none → c.generation = w.cursor.expected + UInt64.ofNat w.missed
  poison : ∀ e, w.cursor.poison = some e →
    w.missed ≠ 0 ∧ ∃ expected found, expected ≠ found ∧ e = .modified expected found
  stands : w.missed = 0 → ∃ as bs, c.store.slots = .ok (as ++ bs) ∧ as.length = w.position ∧
    w.cursor.Stands c as bs w.last

section Refused

variable {w : Watched K} {c : Container K V}

/-- The changes that a cursor has missed, as far as the generation shows them. -/
theorem Fits.ofNat_missed (h : w.Fits c) (hpoison : w.cursor.poison = none) :
    UInt64.ofNat w.missed = c.generation - w.cursor.expected := by
  rw [h.generation hpoison, UInt64.add_comm, UInt64.add_sub_cancel]

/-- A cursor that meets a change notes it. -/
theorem Fits.poisoned (h : w.Fits c) (hpoison : w.cursor.poison = none)
    (hstale : c.generation ≠ w.cursor.expected) :
    Fits { w with cursor := { w.cursor with poison := some (.modified w.cursor.expected c.generation) } } c := by
  have hmissed : w.missed ≠ 0 := by
    intro hzero
    have hgen := h.generation hpoison
    rw [hzero] at hgen
    exact hstale (hgen.trans (UInt64.add_zero _))
  refine ⟨h.owner, fun hnone => absurd hnone (Option.some_ne_none _), fun e he => ?_,
    fun hzero => absurd hzero hmissed⟩
  exact ⟨hmissed, _, _, Ne.symm hstale, (Option.some.inj he).symm⟩

/-- A cursor that is not refused fits if it stands where its notes say, or if they say that it missed as many
    changes as the generation does not show. -/
theorem fits_admitted (ha : w.cursor.Admitted c) (hmissed : UInt64.ofNat w.missed = 0)
    (hstands : w.missed = 0 → ∃ as bs, c.store.slots = .ok (as ++ bs) ∧ as.length = w.position ∧
      w.cursor.Stands c as bs w.last) : w.Fits c where
  owner := ha.owner
  generation := fun _ => by rw [ha.expected, hmissed, UInt64.add_zero]
  poison := fun e he => absurd (ha.poison.symm.trans he).symm (Option.some_ne_none e)
  stands := hstands

end Refused

variable [BEq K] {w : Watched K} {c c' : Container K V} {slots slots' as bs : List Slot} {ps ps' : List (K × V)}
  {n i : Nat}

/-- A new cursor stands in front of all entries and missed nothing. -/
theorem fits_start (h : c.Shows slots ps) (i : Nat) : Fits ⟨.start c, i, 0, none, 0⟩ c :=
  fits_admitted ⟨rfl, rfl, rfl⟩ rfl fun _ => ⟨[], slots, h.sound.slots_eq, rfl, Cursor.stands_start h⟩

/-- A container changes under a cursor. -/
theorem Fits.evolves (h : w.Fits c) (hshows : c.Shows slots ps) (hshows' : c'.Shows slots' ps')
    (hev : c.Evolves n slots c' slots') (hi : w.home = i) : (w.miss i (n + c.floods c')).Fits c' := by
  rw [miss, if_pos hi]
  refine ⟨h.owner.trans hev.owner.symm, fun hpoison => ?_, fun e he => ?_, fun hzero => ?_⟩
  · rw [hev.generation, h.generation hpoison, UInt64.add_assoc, ← UInt64.ofNat_add]
  · obtain ⟨hmissed, hmodified⟩ := h.poison e he
    exact ⟨fun hzero => hmissed (Nat.eq_zero_of_add_eq_zero_right hzero), hmodified⟩
  · obtain ⟨as, bs, hslots, hlength, hstands⟩ := h.stands (Nat.eq_zero_of_add_eq_zero_right hzero)
    obtain rfl : slots = as ++ bs := Except.ok.inj (hshows.sound.slots_eq.symm.trans hslots)
    -- no change was missed, so the slots and what stands in them are the same
    have hlabels := hev.steady (Nat.eq_zero_of_add_eq_zero_left hzero)
    have hsame : slots' = as ++ bs := by
      rw [← c'.store.map_fst_labels slots', hlabels, Store.map_fst_labels]
    subst hsame
    exact ⟨as, bs, hshows'.sound.slots_eq, hlength, hstands.upcoming,
      hstands.current.of_labels (fun k hk => List.mem_append_left bs hk) hlabels⟩

/-! ## The cursor that acts -/

/-- A step forward keeps the notes on a cursor right, whether it is refused, at its end, or meets an entry. -/
theorem Fits.stepped {outcome : Except CursorError (K × V)} {cur : Cursor} (h : w.Fits c)
    (hshows : c.Shows slots ps) (hnext : w.cursor.next c = .ok (outcome, cur)) :
    (w.stepped outcome cur).Fits c := by
  cases hpoison : w.cursor.poison with
  | some e =>
      rw [Cursor.next_refused (Cursor.check_poisoned h.owner hpoison)] at hnext
      cases hnext
      exact h
  | none =>
      by_cases hgen : c.generation = w.cursor.expected
      · have ha : w.cursor.Admitted c := ⟨h.owner, hgen.symm, hpoison⟩
        have ha' := ha.next_admitted hnext
        have hmissed : UInt64.ofNat w.missed = 0 := by
          rw [h.ofNat_missed hpoison, hgen, UInt64.sub_self]
        by_cases hzero : w.missed = 0
        · obtain ⟨as, bs, hslots, hlength, hstands⟩ := h.stands hzero
          obtain rfl : slots = as ++ bs := Except.ok.inj (hshows.sound.slots_eq.symm.trans hslots)
          cases bs with
          | nil =>
              rw [hstands.next_nil ha] at hnext
              cases hnext
              exact h
          | cons slot bs =>
              obtain ⟨key, value, cur', -, hnext', -, hstands'⟩ := hstands.next_cons ha hshows
              rw [hnext'] at hnext
              cases hnext
              refine fits_admitted ha' hmissed fun _ => ⟨as ++ [slot], bs, ?_, ?_, hstands'⟩
              · rw [hslots, ← List.append_cons]
              · rw [List.length_append, hlength]
                rfl
        -- enough changes were missed for the generation to come round, and the step goes on unnoticed
        · cases outcome with
          | ok p => exact fits_admitted ha' hmissed fun h => absurd h hzero
          | error e => exact fits_admitted ha' hmissed fun h => absurd h hzero
      · rw [Cursor.next_refused (Cursor.check_stale h.owner hpoison hgen)] at hnext
        cases hnext
        exact h.poisoned hpoison hgen

/-- What a cursor that is told to remove leaves: its container with the change that it made, and itself. -/
structure Left (c : Container K V) (slots : List Slot) (n : Nat) (w : Watched K) (c' : Container K V) : Prop where
  shows : ∃ slots' ps', c'.Shows slots' ps' ∧ c.Evolves n slots c' slots'
  steady : c.floods c' = 0
  fits : w.Fits c'

/-- A refused removal leaves everything as it was. -/
theorem left_refused (hshows : c.Shows slots ps) (hfits : w.Fits c) : Left c slots 0 w c :=
  ⟨⟨slots, ps, hshows, .refl c slots⟩, Container.floods_of_sameKind (.refl _), hfits⟩

/-- A removal is one change of structure, and no switch to the fallback. -/
theorem left_removed {slot : Slot} {rename : Slot → Slot}
    (hremoved : Container.Shows.Removed c as slot bs rename c') (hfits : w.Fits c') :
    Left c (as ++ slot :: bs) 1 w c' :=
  ⟨⟨_, _, hremoved.shows, hremoved.evolves⟩, Container.floods_of_sameKind hremoved.kind, hfits⟩

/-- A removal through a cursor counts as one change if it took an entry, and as none if it was refused; the notes on
    the cursor stay right. -/
theorem Fits.removed {outcome : Except CursorError (K × V)} (h : w.Fits c) (hshows : c.Shows slots ps)
    (hrem : (w.cursor.remove c).result = .ok outcome) :
    Left c slots (removals outcome) (w.removed outcome (w.cursor.remove c).state.2)
      (w.cursor.remove c).state.1 := by
  cases hpoison : w.cursor.poison with
  | some e =>
      rw [Cursor.remove_refused (Cursor.check_poisoned h.owner hpoison)] at hrem ⊢
      cases hrem
      -- a poisoned cursor answers with its poison
      exact left_refused hshows h
  | none =>
      by_cases hgen : c.generation = w.cursor.expected
      · have ha : w.cursor.Admitted c := ⟨h.owner, hgen.symm, hpoison⟩
        have hmissed : UInt64.ofNat w.missed = 0 := by
          rw [h.ofNat_missed hpoison, hgen, UInt64.sub_self]
        by_cases hzero : w.missed = 0
        · obtain ⟨as, bs, hslots, hlength, hstands⟩ := h.stands hzero
          obtain rfl : slots = as ++ bs := Except.ok.inj (hshows.sound.slots_eq.symm.trans hslots)
          cases hlast : w.last with
          | none =>
              rw [hlast] at hstands
              rw [hstands.remove_none ha] at hrem ⊢
              cases hrem
              exact left_refused hshows h
          | some key =>
              rw [hlast] at hstands
              obtain ⟨as', slot, value, rfl, -, r, hr, rfl, rename, hremoved, ha', hstands'⟩ :=
                hstands.remove_some ha hshows
              rw [hr] at hrem
              cases hrem
              rw [← List.append_cons]
              refine left_removed hremoved (fits_admitted ha' hmissed fun _ => ⟨_, _, ?_, ?_, hstands'⟩)
              · rw [← List.map_append]
                exact hremoved.sound.slots_eq
              · show (as'.map rename).length = w.position - 1
                rw [← hlength, List.length_map, List.length_append]
                rfl
        · -- as many changes were missed as the generation does not show
          rcases ha.remove_admitted hshows hrem with ⟨e, rfl, hstate⟩ | hsome
          · rw [hstate]
            exact left_refused hshows h
          · obtain ⟨p, as, slot, bs, rename, rfl, rfl, hremoved, ha'⟩ := hsome
            exact left_removed hremoved (fits_admitted ha' hmissed fun h => absurd h hzero)
      · rw [Cursor.remove_refused (Cursor.check_stale h.owner hpoison hgen)] at hrem ⊢
        cases hrem
        exact left_refused hshows (h.poisoned hpoison hgen)

end Watched

/-! ## Arenas -/

variable [BEq K]

omit [Backing] [BEq K] in
/-- The identities that are given out before they begin again are different. -/
theorem OwnerId.nth_inj {i j : Nat} (hi : i < wordValues) (hj : j < wordValues)
    (h : OwnerId.nth i = OwnerId.nth j) : i = j := by
  have hword (n : Nat) : (OwnerId.nth n).word.toNat = n % wordValues := UInt64.toNat_ofNat'
  have hwords : i % wordValues = j % wordValues := by rw [← hword, ← hword, h]
  rwa [Nat.mod_eq_of_lt hi, Nat.mod_eq_of_lt hj] at hwords

/-- A container at place `i` is sound and has the identity of that place. -/
structure Container.SoundAt (c : Container K V) (i : Nat) : Prop where
  owner : c.owner = .nth i
  respects : c.hashing.Respects
  shows : ∃ slots ps, c.Shows slots ps

namespace Arena

/-- No identity is given out twice, every container is sound in its place, and what is known about a cursor agrees with the
    container that made it. -/
structure Sound (a : Arena K V) : Prop where
  few : a.containers.length ≤ wordValues
  soundAt : ∀ {i : Nat} {c : Container K V}, a.containers[i]? = some c → c.SoundAt i
  fits : ∀ w ∈ a.cursors, ∃ c, a.containers[w.home]? = some c ∧ w.Fits c

namespace Sound

variable {a : Arena K V} {c c' : Container K V} {w : Watched K} {slots slots' : List Slot} {i j n : Nat}

/-- Another container. -/
theorem push (h : a.Sound) (hfew : a.containers.length < wordValues) (hc : c.SoundAt a.containers.length) :
    Sound { a with containers := a.containers ++ [c] } := by
  refine ⟨?_, fun {i c'} hi => ?_, fun w hw => ?_⟩
  · rw [List.length_append]
    exact hfew
  · by_cases hlt : i < a.containers.length
    · exact h.soundAt ((List.getElem?_append_left hlt).symm.trans hi)
    · rw [List.getElem?_append_right (Nat.not_lt.mp hlt)] at hi
      obtain ⟨hzero, rfl⟩ := List.getElem?_eq_some_iff.mp hi
      obtain rfl : i = a.containers.length := by
        have : i - a.containers.length < 1 := hzero
        omega
      simpa using hc
  · obtain ⟨c', hc', hfits⟩ := h.fits w hw
    obtain ⟨hlt, -⟩ := List.getElem?_eq_some_iff.mp hc'
    exact ⟨c', (List.getElem?_append_left hlt).trans hc', hfits⟩

/-- Another cursor. -/
theorem watch (h : a.Sound) (hw : ∃ c, a.containers[w.home]? = some c ∧ w.Fits c) :
    Sound { a with cursors := a.cursors ++ [w] } := by
  refine ⟨h.few, h.soundAt, fun w' hw' => ?_⟩
  rcases List.mem_append.mp hw' with hw' | hw'
  · exact h.fits w' hw'
  · obtain rfl := List.mem_singleton.mp hw'
    exact hw

/-- A cursor is replaced. -/
theorem set_cursor (h : a.Sound) (hw : ∃ c, a.containers[w.home]? = some c ∧ w.Fits c) :
    Sound { a with cursors := a.cursors.set j w } := by
  refine ⟨h.few, h.soundAt, fun w' hw' => ?_⟩
  rcases List.mem_or_eq_of_mem_set hw' with hw' | rfl
  · exact h.fits w' hw'
  · exact hw

/-- A container is replaced by what it became, and the cursors that it made have missed that. -/
theorem replace {ps ps' : List (K × V)} (h : a.Sound) (hc : a.containers[i]? = some c) (hshows : c.Shows slots ps)
    (hshows' : c'.Shows slots' ps') (hev : c.Evolves n slots c' slots') :
    Sound { containers := a.containers.set i c'
            cursors := a.cursors.map (Watched.miss i (n + c.floods c')) } := by
  obtain ⟨hlt, -⟩ := List.getElem?_eq_some_iff.mp hc
  have hset : (a.containers.set i c')[i]? = some c' := by rw [List.getElem?_set_self hlt]
  refine ⟨?_, fun {k c''} hk => ?_, fun w hw => ?_⟩
  · rw [List.length_set]
    exact h.few
  · by_cases hki : i = k
    · subst hki
      obtain rfl : c' = c'' := Option.some.inj (hset.symm.trans hk)
      obtain ⟨howner, hrespects, -⟩ := h.soundAt hc
      exact ⟨hev.owner.trans howner, hev.hashing ▸ hrespects, slots', ps', hshows'⟩
    · rw [List.getElem?_set_ne hki] at hk
      exact h.soundAt hk
  · obtain ⟨w₀, hw₀, rfl⟩ := List.mem_map.mp hw
    obtain ⟨c₀, hc₀, hfits⟩ := h.fits w₀ hw₀
    by_cases hi : w₀.home = i
    · have hhome : (w₀.miss i (n + c.floods c')).home = i := by
        rw [Watched.miss, if_pos hi]
        exact hi
      obtain rfl : c = c₀ := Option.some.inj (hc.symm.trans (hi ▸ hc₀))
      exact ⟨c', by rw [hhome]; exact hset, hfits.evolves hshows hshows' hev hi⟩
    · have hsame : w₀.miss i (n + c.floods c') = w₀ := by rw [Watched.miss, if_neg hi]
      rw [hsame]
      exact ⟨c₀, by rw [List.getElem?_set_ne (Ne.symm hi)]; exact hc₀, hfits⟩

/-- Of the cursors, only those that a container made are admitted by it. -/
theorem foreign (h : a.Sound) (hc : a.containers[i]? = some c) (hw : a.cursors[j]? = some w) (hi : i ≠ w.home) :
    c.owner ≠ w.cursor.owner := by
  obtain ⟨c₀, hc₀, hfits⟩ := h.fits w (List.mem_of_getElem? hw)
  obtain ⟨hlt, -⟩ := List.getElem?_eq_some_iff.mp hc
  obtain ⟨hlt₀, -⟩ := List.getElem?_eq_some_iff.mp hc₀
  rw [hfits.owner, (h.soundAt hc).owner, (h.soundAt hc₀).owner]
  exact fun hsame => hi (OwnerId.nth_inj (hlt.trans_le h.few) (hlt₀.trans_le h.few) hsame)

/-- The container that made a cursor. -/
theorem fits_home (h : a.Sound) (hc : a.containers[w.home]? = some c) (hw : a.cursors[j]? = some w) : w.Fits c := by
  obtain ⟨c₀, hc₀, hfits⟩ := h.fits w (List.mem_of_getElem? hw)
  obtain rfl : c = c₀ := Option.some.inj (hc.symm.trans hc₀)
  exact hfits

theorem next {outcome : Except CursorError (K × V)} {cur : Cursor} (h : a.Sound)
    (hc : a.containers[i]? = some c) (hw : a.cursors[j]? = some w)
    (hnext : w.cursor.next c = .ok (outcome, cur)) :
    Sound { a with cursors := a.cursors.set j (w.stepped outcome cur) } := by
  by_cases hi : i = w.home
  · subst hi
    obtain ⟨slots, ps, hshows⟩ := (h.soundAt hc).shows
    have hhome : (w.stepped outcome cur).home = w.home := by cases outcome <;> rfl
    exact h.set_cursor ⟨c, hhome ▸ hc, (h.fits_home hc hw).stepped hshows hnext⟩
  · rw [Cursor.next_refused (Cursor.check_foreign (h.foreign hc hw hi))] at hnext
    cases hnext
    exact h.set_cursor (h.fits w (List.mem_of_getElem? hw))

/-- A cursor removes the entry that it is at, and the other cursors of that container miss a change. -/
theorem remove {outcome : Except CursorError (K × V)} (h : a.Sound) (hc : a.containers[i]? = some c)
    (hw : a.cursors[j]? = some w) (hrem : (w.cursor.remove c).result = .ok outcome) :
    Sound { containers := a.containers.set i (w.cursor.remove c).state.1
            cursors := (a.cursors.map (Watched.miss i (removals outcome))).set j
              (w.removed outcome (w.cursor.remove c).state.2) } := by
  obtain ⟨slots, ps, hshows⟩ := (h.soundAt hc).shows
  obtain ⟨hlt, -⟩ := List.getElem?_eq_some_iff.mp hc
  by_cases hi : i = w.home
  · subst hi
    obtain ⟨⟨slots', ps', hshows', hev⟩, hsteady, hfits⟩ := (h.fits_home hc hw).removed hshows hrem
    have hsound := h.replace hc hshows hshows' hev
    rw [hsteady, Nat.add_zero] at hsound
    have hhome : (w.removed outcome (w.cursor.remove c).state.2).home = w.home := by cases outcome <;> rfl
    refine hsound.set_cursor ⟨_, ?_, hfits⟩
    rw [hhome, List.getElem?_set_self hlt]
  · rw [Cursor.remove_refused (Cursor.check_foreign (h.foreign hc hw hi))] at hrem ⊢
    cases hrem
    have hsound := h.replace hc hshows hshows (.refl c slots)
    rw [Container.floods_of_sameKind (.refl _)] at hsound
    obtain ⟨c₀, hc₀, hfits⟩ := h.fits w (List.mem_of_getElem? hw)
    refine hsound.set_cursor ⟨c₀, ?_, hfits⟩
    rw [← hc₀]
    exact List.getElem?_set_ne hi

end Sound

/-! ## Every step -/

section Steps

variable [EquivBEq K] {a a' : Arena K V}

/-- What a step preserves. -/
theorem Sound.step (h : a.Sound) (hstep : a.Step a') : a'.Sound := by
  cases hstep with
  | make few fresh respects made =>
      have hshows := Container.shows_of_make fresh made
      obtain ⟨-, rfl⟩ := Container.eq_of_make made
      exact h.push few ⟨rfl, respects, [], [], hshows⟩
  | copy few container =>
      obtain ⟨-, hrespects, slots, ps, hshows⟩ := h.soundAt container
      exact h.push few ⟨rfl, hrespects, slots, ps, hshows.copy _⟩
  | apply container returned =>
      obtain ⟨-, hrespects, slots, ps, hshows⟩ := h.soundAt container
      obtain ⟨-, slots', hshows', hev⟩ := (hshows.apply_meets hrespects _).of_ok returned
      rw [hshows.changesBy_eq]
      exact h.replace container hshows hshows' hev
  | cursor container =>
      obtain ⟨-, -, slots, ps, hshows⟩ := h.soundAt container
      exact h.watch ⟨_, container, Watched.fits_start hshows _⟩
  | duplicate watched => exact h.watch (h.fits _ (List.mem_of_getElem? watched))
  | next container watched returned => exact h.next container watched returned
  | remove container watched returned => exact h.remove container watched returned

/-- What every run preserves. -/
theorem Reachable.sound (h : a.Reachable) : a.Sound := by
  induction h with
  | empty =>
      exact ⟨Nat.zero_le _, fun hi => absurd hi.symm (Option.some_ne_none _), fun w hw => absurd hw List.not_mem_nil⟩
  | step reachable step ih => exact ih.step step

end Steps

end Arena

end DenseHash
