import DenseHash.Proofs.Container.Removal
import DenseHash.Proofs.Sift

/-!
# Retaining

`Container.retain` goes along the traversal order and removes under its own feet; `Listing.sift` visits a list.
The invariant of the loop is that the slots behind the current position hold what is left to visit: a removal
may rename them, but it tells the name of the one that comes next.
-/

namespace DenseHash

variable [Backing] {K V σ : Type}

namespace Container

variable [BEq K] {c : Container K V} {slots as bs : List Slot} {ps : List (K × V)}

namespace Shows

open Listing

/-- What was done to the entries in the slots `bs` is what a sift does to them. -/
def Sifts (keep : σ → K → V → σ × V × Bool) (state : σ) (c : Container K V) (as bs : List Slot) (state' : σ)
    (c' : Container K V) : Prop :=
  ∃ kept n, sift c.store.isPacked keep state (bs.filterMap c.store.held) = (kept, state') ∧
    n + kept.length = (bs.filterMap c.store.held).length ∧
    c.Becomes n (as ++ bs) (as.filterMap c.store.held ++ kept) c'

section Step

variable {keep : σ → K → V → σ × V × Bool} {state state₁ state' : σ} {slot : Slot} {key : K} {value value₁ : V}
  {c' : Container K V} {s : Store K V}

/-- At the end nothing is left to visit. -/
theorem sifts_nil (h : c.Shows (as ++ []) ps) : Sifts keep state c as [] state c := by
  refine ⟨[], 0, by rw [List.filterMap_nil, sift], rfl, ?_⟩
  rw [List.append_nil] at h ⊢
  rw [List.append_nil, h.pairs]
  exact h.becomes_self

/-- An entry that stays joins those before the position. -/
theorem sifts_keep (h : c.Shows (as ++ slot :: bs) ps) (hp : c.store.held slot = some (key, value))
    (hkeep : keep state key value = (state₁, value₁, true)) (hkind : c.store.SameKind s)
    (hupdate : s.held = Function.update c.store.held slot (some (key, value₁)))
    (hev : c.Evolves 0 (as ++ slot :: bs) { c with store := s } (as ++ slot :: bs))
    (hsifts : Sifts keep state₁ { c with store := s } (as ++ [slot]) bs state' c') :
    Sifts keep state c as (slot :: bs) state' c' := by
  obtain ⟨hself, hfront, hback⟩ := h.held_replaced hupdate
  obtain ⟨kept, n, hsift, hlength, slots', hshows', hev'⟩ := hsifts
  rw [List.filterMap_append, List.filterMap_cons_some hself, List.filterMap_nil, hfront,
    List.append_assoc] at hshows'
  rw [← List.append_cons] at hev'
  rw [hback] at hsift hlength
  rw [hkind.isPacked] at hsift
  refine ⟨(key, value₁) :: kept, n, ?_, ?_, slots', hshows', by simpa using hev.trans hev'⟩
  · rw [List.filterMap_cons_some hp, sift_keep hkeep, hsift]
  · rw [List.filterMap_cons_some hp, List.length_cons, List.length_cons, ← hlength]
    rfl

/-- When one goes, the slots behind the position are renamed, and the next one may be another. -/
theorem sifts_drop {c₂ : Container K V} {rename : Slot → Slot} (h : c.Shows (as ++ slot :: bs) ps)
    (hp : c.store.held slot = some (key, value)) (hkeep : keep state key value = (state₁, value₁, false))
    (hkind : c.store.SameKind s)
    (hupdate : s.held = Function.update c.store.held slot (some (key, value₁)))
    (hev : c.Evolves 0 (as ++ slot :: bs) { c with store := s } (as ++ slot :: bs))
    (hremoved : Removed { c with store := s } as slot bs rename c₂)
    (hsifts : Sifts keep state₁ c₂ (as.map rename) ((closeUp s.isPacked bs).map rename) state' c') :
    Sifts keep state c as (slot :: bs) state' c' := by
  obtain ⟨-, hfront, hback⟩ := h.held_replaced hupdate
  have hback₂ : ((closeUp s.isPacked bs).map rename).filterMap c₂.store.held =
      closeUp s.isPacked (bs.filterMap c.store.held) := hback ▸ hremoved.back
  have hfront₂ : (as.map rename).filterMap c₂.store.held = as.filterMap c.store.held :=
    hremoved.front.trans hfront
  obtain ⟨kept, n, hsift, hlength, slots', hshows', hev'⟩ := hsifts
  rw [hback₂, hremoved.kind.isPacked] at hsift
  rw [hback₂, length_closeUp] at hlength
  rw [hfront₂] at hshows'
  rw [← List.map_append] at hev'
  refine ⟨kept, n + 1, ?_, ?_, slots', hshows', ?_⟩
  · rw [List.filterMap_cons_some hp, sift_drop hkeep, ← hkind.isPacked]
    exact hsift
  · rw [List.filterMap_cons_some hp, List.length_cons, ← hlength]
    omega
  · have hall := (hev.trans hremoved.evolves).trans hev'
    rw [Nat.zero_add, Nat.add_comm 1 n] at hall
    exact hall

end Step

/-- From any position on, the loop does to the entries behind it what a sift does. -/
theorem retainFrom_gives (keep : σ → K → V → σ × V × Bool) {fuel : Nat} {state : σ}
    (h : c.Shows (as ++ bs) ps) (hfuel : bs.length ≤ fuel) :
    (retainFrom keep fuel bs.head? state c).Gives (Sifts keep state c as bs) := by
  induction fuel generalizing c as bs ps state with
  | zero =>
      -- the fuel covers what is to come, so nothing is
      obtain rfl := List.length_eq_zero_iff.mp (Nat.le_zero.mp hfuel)
      exact Reply.gives_ok h.sifts_nil
  | succ fuel ih =>
      cases bs with
      | nil => exact Reply.gives_ok h.sifts_nil
      | cons slot bs =>
          replace hfuel : bs.length ≤ fuel := Nat.le_of_succ_le_succ hfuel
          obtain ⟨⟨key, value⟩, hp, -⟩ := h.split
          obtain ⟨state₁, value₁, stays, hkeep⟩ : ∃ a b c, keep state key value = (a, b, c) :=
            ⟨_, _, _, rfl⟩
          obtain ⟨s, hs, hkind, hupdate, hshows, hev⟩ := h.setValue_eq hp value₁
          unfold retainFrom
          dsimp only [List.head?_cons]
          rw [h.sound.next_eq, Checked.ok_bind, Store.pair_eq hp, Checked.ok_bind]
          dsimp only
          rw [hkeep]
          dsimp only
          rw [hs]
          refine Reply.Gives.andThen (P := fun r c₁ =>
            r = (bs.head?, state₁, stays) ∧ c₁ = { c with store := s }) (Reply.gives_ok ⟨rfl, rfl⟩) ?_
          rintro _ c₁ ⟨rfl, rfl⟩
          cases stays with
          | true =>
              rw [List.append_cons] at hshows
              exact (ih hshows hfuel).imp fun _ _ hsifts => h.sifts_keep hp hkeep hkind hupdate hev hsifts
          | false =>
              have hself : s.held slot = some (key, value₁) := (h.held_replaced hupdate).1
              refine Reply.Gives.andThen (hshows.removeSlot_gives hself (.inr rfl)) ?_
              rintro ⟨pair, resume⟩ c₂ ⟨-, rename, hremoved, hresume⟩
              -- the loop goes on where the removal says, which is what closes up behind the slot
              have hnext : resume = ((closeUp s.isPacked bs).map rename).head? := by
                rw [List.head?_map]
                exact hresume rfl
              have hshows₂ := hremoved.shows
              rw [List.map_append] at hshows₂
              have hfuel₂ : ((closeUp s.isPacked bs).map rename).length ≤ fuel := by
                rw [List.length_map, length_closeUp]
                exact hfuel
              dsimp only
              rw [hnext]
              exact (ih hshows₂ hfuel₂).imp fun _ _ hsifts =>
                h.sifts_drop hp hkeep hkind hupdate hev hremoved hsifts

/-- Retaining with a memory of what was seen sifts the list of entries. -/
theorem retainWith_gives (h : c.Shows slots ps) (keep : List (K × V) → K → V → V × Bool) :
    (c.retainWith keep).Gives fun a c' => Answers c slots ps (.retain keep) (.pairs a) c' := by
  have hsize : slots.length ≤ c.size := Nat.le_of_eq h.sound.size_eq.symm
  refine Reply.Gives.map ?_
  rw [retain]
  rw [h.sound.first_eq]
  have hstart : c.Shows ([] ++ slots) ps := h
  refine (hstart.retainFrom_gives _ hsize).imp fun seen c' hc' => ?_
  obtain ⟨kept, n, hsift, hlength, hbecomes⟩ := hc'
  rw [h.pairs] at hsift hlength
  have happly : (c.listingOf ps).apply (.retain keep) =
      (.pairs seen.reverse, ⟨kept, c.store.isPacked, c.store.byAccess⟩) := by
    simp only [Listing.apply, listingOf, hsift]
  have hchanges : (c.listingOf ps).changes (.retain keep) = n := by
    rw [Listing.changes, happly]
    show ps.length - kept.length = n
    omega
  rw [Answers, happly, hchanges]
  exact ⟨rfl, hbecomes⟩

end Shows

end Container

end DenseHash
