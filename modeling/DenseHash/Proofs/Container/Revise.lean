import DenseHash.Proofs.Container.Removal

/-!
# Iteration that changes values

A script that hands out the entries of some slots, and changes the value of each, leaves keys and order alone and
does not touch an entry that it does not hand out. What it shows and leaves is what `Listing.revise` says.
-/

namespace DenseHash

variable [Backing]

namespace Store

variable {K V : Type} [BEq K] {hashing : Hashing K} {slots ws : List Slot} {slot : Slot} {s s' s'' : Store K V}

/-- Values in the slots `ws` were changed, and nothing else was. -/
structure Revised (hashing : Hashing K) (slots ws : List Slot) (s s' : Store K V) : Prop where
  kind : s.SameKind s'
  sound : s'.Sound hashing slots
  files : s.SameFiles s'
  keys : ∀ k, (s'.held k).map Prod.fst = (s.held k).map Prod.fst
  off : ∀ k, k ∉ ws → s'.held k = s.held k

namespace Revised

theorem refl (h : s.Sound hashing slots) (ws : List Slot) : Revised hashing slots ws s s :=
  ⟨.refl s, h, .refl s, fun _ => rfl, fun _ _ => rfl⟩

/-- A revision of some slots after a revision of others that contain them. -/
theorem trans {vs : List Slot} (h : Revised hashing slots ws s s') (h' : Revised hashing slots vs s' s'')
    (hvs : ∀ k ∈ vs, k ∈ ws) : Revised hashing slots ws s s'' :=
  ⟨h.kind.trans h'.kind, h'.sound, h.files.trans h'.files, fun k => (h'.keys k).trans (h.keys k), fun k hk =>
    (h'.off k fun hm => hk (hvs k hm)).trans (h.off k hk)⟩

/-- What is held where nothing was changed. -/
theorem filterMap_off {ks : List Slot} (h : Revised hashing slots ws s s') (hks : ∀ k ∈ ks, k ∉ ws) :
    ks.filterMap s'.held = ks.filterMap s.held :=
  List.filterMap_congr fun k hk => h.off k (hks k hk)

end Revised

/-- The entries in the slots `ws` are to be handed out, each once. -/
structure Pending (hashing : Hashing K) (slots ws : List Slot) (s : Store K V) : Prop where
  sound : s.Sound hashing slots
  nodup : ws.Nodup
  held : ∀ w ∈ ws, ∃ p, s.held w = some p

namespace Pending

/-- As many entries are to be handed out as there are slots. -/
theorem length_held (h : Pending hashing slots ws s) : (ws.filterMap s.held).length = ws.length := by
  refine List.filterMap_length_eq_length.mpr fun w hw => ?_
  obtain ⟨p, hp⟩ := h.held w hw
  rw [hp]
  rfl

/-- All entries that are to be handed out can be read. -/
theorem mapM_pair (h : Pending hashing slots ws s) : ws.mapM s.pair = .ok (ws.filterMap s.held) := by
  refine Checked.mapM_eq_filterMap fun w hw => ?_
  obtain ⟨p, hp⟩ := h.held w hw
  exact ⟨p, hp, pair_eq hp⟩

/-- Nothing is left to hand out. -/
theorem nil (h : s.Sound hashing slots) : Pending hashing slots [] s :=
  ⟨h, List.nodup_nil, fun _ hw => absurd hw List.not_mem_nil⟩

/-- Whichever of the slots is handed out, its value is changed and the others wait. -/
theorem reviseAt (change : K → V → V) {us : List Slot} (h : Pending hashing slots us s)
    (hus : us.Perm (slot :: ws)) :
    ∃ key value s₁, s.held slot = some (key, value) ∧
      reviseAt change s slot = .ok ((key, change key value), s₁) ∧ Pending hashing slots ws s₁ ∧
        ws.filterMap s₁.held = ws.filterMap s.held ∧
          ∀ s', Revised hashing slots ws s₁ s' →
            Revised hashing slots us s s' ∧ s'.held slot = some (key, change key value) := by
  obtain ⟨hslot, hnodup⟩ := List.nodup_cons.mp (hus.nodup_iff.mp h.nodup)
  obtain ⟨⟨key, value⟩, hp⟩ := h.held slot (hus.mem_iff.mpr List.mem_cons_self)
  obtain ⟨s₁, hs, hkind, hsound, hupdate⟩ := h.sound.setValue_eq hp (change key value)
  have hself : s₁.held slot = some (key, change key value) := by rw [hupdate, Function.update_self]
  have hother : ∀ k, k ≠ slot → s₁.held k = s.held k := fun k hk => by
    rw [hupdate, Function.update_of_ne hk]
  have hrest : ∀ k ∈ ws, s₁.held k = s.held k := fun k hk => hother k fun heq => hslot (heq ▸ hk)
  refine ⟨key, value, s₁, hp, ?_, ⟨hsound, hnodup, fun w hw => ?_⟩, List.filterMap_congr hrest, fun s' hrev => ?_⟩
  · rw [Store.reviseAt, pair_eq hp, Checked.ok_bind]
    dsimp only
    rw [hs]
    rfl
  · rw [hrest w hw]
    exact h.held w (hus.mem_iff.mpr (List.mem_cons_of_mem slot hw))
  · refine ⟨⟨hkind.trans hrev.kind, hrev.sound, (setValue_sameFiles hs).trans hrev.files,
      fun k => (hrev.keys k).trans (keys_of_update hp hupdate k), fun k hk => ?_⟩, (hrev.off slot hslot).trans hself⟩
    have hcons : k ∉ slot :: ws := fun hm => hk (hus.mem_iff.mpr hm)
    rw [hrev.off k fun hm => hcons (List.mem_cons_of_mem slot hm),
      hother k fun heq => hcons (heq ▸ List.mem_cons_self)]

end Pending

variable (change : K → V → V)

/-- An entry with its value changed. -/
def changed (change : K → V → V) (p : K × V) : K × V := (p.1, change p.1 p.2)

/-- All slots in turn: each entry is handed out as it was changed, and stays so. -/
theorem reviseAll_eq (h : Pending hashing slots ws s) :
    ∃ s', reviseAll change ws s = .ok ((ws.filterMap s.held).map (changed change), s') ∧
      Revised hashing slots ws s s' ∧
      ws.filterMap s'.held = (ws.filterMap s.held).map (changed change) := by
  induction ws generalizing s with
  | nil => exact ⟨s, rfl, .refl h.sound _, rfl⟩
  | cons w ws ih =>
      obtain ⟨key, value, s₁, hp, hs₁, h₁, hback, hafter⟩ := h.reviseAt change (.refl _)
      obtain ⟨s', hs', hrev₁, hall⟩ := ih h₁
      obtain ⟨hrev, hself⟩ := hafter s' hrev₁
      refine ⟨s', ?_, hrev, ?_⟩
      · rw [reviseAll, hs₁, Checked.ok_bind]
        dsimp only
        rw [hs', hback, List.filterMap_cons_some hp]
        rfl
      · rw [List.filterMap_cons_some hself, hall, hback, List.filterMap_cons_some hp]
        rfl

/-! ### Moves of a script -/

/-- A script that takes from the slots `ws` shows and leaves what `Listing.revise` says of the entries in them. -/
def Follows (hashing : Hashing K) (slots : List Slot) (moves : List Move) (ws : List Slot) (s : Store K V) : Prop :=
  ∃ s', reviseBy change moves ws s = .ok ((Listing.revise change moves (ws.filterMap s.held)).1, s') ∧
    Revised hashing slots ws s s' ∧ ws.filterMap s'.held = (Listing.revise change moves (ws.filterMap s.held)).2

variable {change} {moves : List Move}

/-- A move that hands nothing out adds a reading, and what follows is as it would be without it. -/
theorem Follows.reading (h : Follows change hashing slots moves ws s) {move : Move} {reading : Reading (K × V)}
    (hby : reviseBy change (move :: moves) ws s =
      (reviseBy change moves ws s >>= fun (readings, store) => pure (reading :: readings, store)))
    (hlist : Listing.revise change (move :: moves) (ws.filterMap s.held) =
      (reading :: (Listing.revise change moves (ws.filterMap s.held)).1,
        (Listing.revise change moves (ws.filterMap s.held)).2)) :
    Follows change hashing slots (move :: moves) ws s := by
  obtain ⟨s', hs', hrev, hall⟩ := h
  refine ⟨s', ?_, hrev, hlist ▸ hall⟩
  rw [hby, hs', hlist]
  rfl

section Steps

variable (ih : ∀ {ws : List Slot} {s : Store K V}, Pending hashing slots ws s → Follows change hashing slots moves ws s)
include ih

/-- The first slot is revised, and the script goes on behind it. -/
theorem follows_front (h : Pending hashing slots ws s) : Follows change hashing slots (.front :: moves) ws s := by
  cases ws with
  | nil => exact (ih h).reading rfl rfl
  | cons w ws =>
      obtain ⟨key, value, s₁, hp, hs₁, h₁, hback, hafter⟩ := h.reviseAt change (.refl _)
      obtain ⟨s', hs', hrev₁, hall⟩ := ih h₁
      obtain ⟨hrev, hself⟩ := hafter s' hrev₁
      refine ⟨s', ?_, hrev, ?_⟩
      · rw [reviseBy]
        dsimp only
        rw [hs₁, Checked.ok_bind]
        dsimp only
        rw [hs', hback, List.filterMap_cons_some hp]
        rfl
      · rw [List.filterMap_cons_some hself, hall, hback, List.filterMap_cons_some hp]
        rfl

/-- The last slot is revised, and the script goes on in front of it, where nothing has changed. -/
theorem follows_back (h : Pending hashing slots ws s) : Follows change hashing slots (.back :: moves) ws s := by
  rcases List.eq_nil_or_concat' ws with rfl | ⟨ws, w, rfl⟩
  · refine (ih h).reading ?_ rfl
    rw [reviseBy]
    rfl
  · obtain ⟨key, value, s₁, hp, hs₁, h₁, hfront, hafter⟩ := h.reviseAt change (List.perm_append_singleton w ws)
    obtain ⟨s', hs', hrev₁, hall⟩ := ih h₁
    obtain ⟨hrev, hself⟩ := hafter s' hrev₁
    have hitems : (ws ++ [w]).filterMap s.held = ws.filterMap s.held ++ [(key, value)] := by
      rw [List.filterMap_append, List.filterMap_cons_some hp]
      rfl
    refine ⟨s', ?_, hrev, ?_⟩
    · rw [reviseBy, List.getLast?_concat, List.dropLast_concat]
      dsimp only
      rw [hs₁, Checked.ok_bind]
      dsimp only
      rw [hs', hfront, hitems, Listing.revise, List.getLast?_concat, List.dropLast_concat]
      rfl
    · rw [List.filterMap_append, List.filterMap_cons_some hself, hall, hfront, hitems, Listing.revise,
        List.getLast?_concat, List.dropLast_concat]
      rfl

/-- All slots are revised. Later moves have none left, so they leave alone what was revised here. -/
theorem follows_rest (h : Pending hashing slots ws s) : Follows change hashing slots (.rest :: moves) ws s := by
  obtain ⟨s₁, hs₁, hrev₁, hall₁⟩ := reviseAll_eq change h
  obtain ⟨s', hs', hrev', -⟩ := ih (.nil hrev₁.sound)
  refine ⟨s', ?_, hrev₁.trans hrev' fun k hk => absurd hk List.not_mem_nil, ?_⟩
  · rw [reviseBy, hs₁, Checked.ok_bind]
    dsimp only
    rw [hs']
    rfl
  · rw [hrev'.filterMap_off fun k _ => List.not_mem_nil, hall₁]
    rfl

end Steps

/-- A whole script, by one step lemma for each kind of move. -/
theorem reviseBy_eq (change : K → V → V) (moves : List Move) (h : Pending hashing slots ws s) :
    Follows change hashing slots moves ws s := by
  induction moves generalizing s ws with
  | nil => exact ⟨s, rfl, .refl h.sound _, rfl⟩
  | cons move moves ih =>
      cases move with
      | front => exact follows_front ih h
      | back => exact follows_back ih h
      | length => exact (ih h).reading (by rw [reviseBy]) (by rw [Listing.revise, h.length_held])
      | bounds => exact (ih h).reading (by rw [reviseBy]) (by rw [Listing.revise, h.length_held])
      | copy => exact (ih h).reading (by rw [reviseBy, h.mapM_pair, Checked.ok_bind]) (by rw [Listing.revise])
      | rest => exact follows_rest ih h

end Store

namespace Container

variable {K V : Type} [BEq K] {c : Container K V} {slots : List Slot} {ps : List (K × V)}

/-- Only values change, and they become what the listing says. -/
theorem Shows.revise_eq (h : c.Shows slots ps) (moves : List Move) (change : K → V → V) :
    ∃ s, c.revise moves change = .ok { c with store := s } (Listing.revise change moves ps).1 ∧
      Store.Revised c.hashing slots slots c.store s ∧ slots.filterMap s.held = (Listing.revise change moves ps).2 := by
  obtain ⟨s, hs, hrev, hall⟩ := Store.reviseBy_eq change moves
    ⟨h.sound, h.sound.nodup, fun _ hw => h.held_of_mem hw⟩
  rw [h.pairs] at hs hall
  refine ⟨s, ?_, hrev, hall⟩
  rw [revise]
  rw [h.sound.references_eq, Checked.ok_bind, hs]
  rfl

/-- Seen from the container, a script of revisions does what it does to the list of entries. -/
theorem Shows.revise_gives (h : c.Shows slots ps) (moves : List Move) (change : K → V → V) :
    (c.revise moves change).Gives fun a c' => Answers c slots ps (.revise moves change) (.readings a) c' := by
  obtain ⟨s, hs, hrev, hall⟩ := h.revise_eq moves change
  rw [hs]
  refine Reply.gives_ok ⟨rfl, slots, ⟨hrev.sound, hall⟩, .silent hrev.kind ?_⟩
  exact List.map_congr_left fun k _ => by rw [hrev.keys]

end Container

end DenseHash
