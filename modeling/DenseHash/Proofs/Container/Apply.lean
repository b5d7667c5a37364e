import DenseHash.Proofs.Container.Insert
import DenseHash.Proofs.Container.KeepsForm
import DenseHash.Proofs.Container.Retain
import DenseHash.Proofs.Container.Revise

/-!
# Every operation

An operation on a sound container answers what it answers on the listing of the container, and leaves a sound
container that shows what is left of the listing. It can be refused only because of a limit of size. A container
that was just made is sound and shows nothing, so all of this holds of every container that operations lead to.
-/

namespace DenseHash

namespace Container

variable [Backing] {K V : Type}

/-! ## A new container -/

section Made

variable {settings : Settings} {order : Order} {hashing : Hashing K} {owner : OwnerId} {c : Container K V}

/-- A container is made as its settings say, with nothing in it. -/
theorem eq_of_make (h : make settings order hashing owner = .ok c) :
    settings.check = .ok () ∧
      c = ⟨hashing, .table (.empty order settings.loadFactor settings.expectedSize.toNat),
        settings.maxChain.toNat, 0, owner⟩ := by
  rw [make] at h
  cases hcheck : settings.check with
  | error e =>
      rw [hcheck] at h
      exact nomatch h
  | ok u =>
      rw [hcheck] at h
      exact ⟨rfl, (Except.ok.inj h).symm⟩

/-- A new container shows nothing. -/
theorem shows_of_make [BEq K] (horder : order.Fresh) (h : make settings order hashing owner = .ok c) :
    c.Shows [] [] := by
  obtain ⟨-, rfl⟩ := eq_of_make h
  exact ⟨⟨[], rfl, Table.sound_empty horder.lists _ _, fun hc => nomatch hc⟩, rfl⟩

end Made

variable [BEq K] {c : Container K V} {slots : List Slot} {ps : List (K × V)}

/-- A copy shows the same. -/
theorem Shows.copy (h : c.Shows slots ps) (owner : OwnerId) : (c.copy owner).Shows slots ps := ⟨h.sound, h.pairs⟩

/-! ## One operation -/

/-- An operation that only reads. -/
theorem Shows.answer_gives {α : Type} {op : Operation K V} {outcome : Checked α} {a : α} {g : α → Answer K V}
    (h : c.Shows slots ps) (houtcome : outcome = .ok a)
    (happly : (c.listingOf ps).apply op = (g a, c.listingOf ps))
    (hchanges : (c.listingOf ps).changes op = 0) :
    ((c.answer outcome).map g).Gives fun a c' => Answers c slots ps op a c' := by
  rw [houtcome]
  exact Reply.gives_ok (h.answers_self happly hchanges)

variable [EquivBEq K]

/-- What works at single entries is never refused. -/
theorem Shows.apply_gives (h : c.Shows slots ps) (hr : c.hashing.Respects) {op : Operation K V}
    (hop : ¬MayRebuild op) : (c.apply op).Gives fun a c' => Answers c slots ps op a c' := by
  cases op with
  | insert key value => exact absurd trivial hop
  | extend hint pairs => exact absurd trivial hop
  | reserve more => exact absurd trivial hop
  | shrink => exact absurd trivial hop
  | get key => exact Reply.Gives.map (h.get_gives hr key)
  | modify key change => exact Reply.Gives.map (h.modify_gives hr key change)
  | peek key => exact h.answer_gives (h.peek_eq hr key) rfl rfl
  | entry key => exact h.answer_gives (h.entry?_eq hr key) rfl rfl
  | contains key => exact h.answer_gives (h.contains_eq hr key) rfl rfl
  | remove key => exact Reply.Gives.map (h.remove_gives hr key)
  | first => exact h.answer_gives h.first_eq rfl rfl
  | last => exact h.answer_gives h.last_eq rfl rfl
  | popFirst => exact Reply.Gives.map h.popFirst_gives
  | popLast => exact Reply.Gives.map h.popLast_gives
  | retain keep => exact Reply.Gives.map (h.retainWith_gives keep)
  | drain => exact Reply.Gives.map h.drain_gives
  | clear => exact Reply.gives_ok h.clear_answers
  | iterate moves => exact h.answer_gives (h.iter_run_eq moves) rfl rfl
  | revise moves change => exact Reply.Gives.map (h.revise_gives moves change)

/-- Every operation answers what the list of entries answers and leaves what the list becomes, or meets a limit. -/
theorem Shows.apply_meets (h : c.Shows slots ps) (hr : c.hashing.Respects)
    (op : Operation K V) : (c.apply op).Meets fun a c' => Answers c slots ps op a c' := by
  by_cases hop : MayRebuild op
  · cases op with
    | insert key value =>
        refine Reply.Meets.map ((h.insert_meets hr key value).imp fun a c' hc' => ?_)
        obtain ⟨rfl, hbecomes⟩ := hc'
        exact ⟨rfl, hbecomes⟩
    | extend hint pairs =>
        exact Reply.Meets.map ((h.extend_meets hr hint pairs).imp fun _ _ hc' => ⟨rfl, hc'⟩)
    | reserve more => exact Reply.Meets.map ((h.reserve_meets hr more).imp fun _ _ hc' => ⟨rfl, hc'⟩)
    | shrink => exact Reply.Meets.map ((h.shrink_meets hr).imp fun _ _ hc' => ⟨rfl, hc'⟩)
    | _ => exact hop.elim
  · exact (h.apply_gives hr hop).meets

omit [EquivBEq K]

/-- A cursor that is told to remove, whichever it is, does nothing to the container or takes out one entry. -/
theorem Shows.cursor_remove_cases (h : c.Shows slots ps) (cur : Cursor) :
    ((cur.remove c).state.1 = c ∧ ∀ p, (cur.remove c).result ≠ .ok (.ok p)) ∨
      ∃ p as slot bs rename, (cur.remove c).result = .ok (.ok p) ∧ slots = as ++ slot :: bs ∧
        c.store.held slot = some p ∧ Removed c as slot bs rename (cur.remove c).state.1 := by
  rcases Container.cursor_remove_cases cur c with ⟨-, hstate, hnone⟩ | ⟨slot, upcoming, -, hstate, hresult⟩
  · exact .inl ⟨hstate, hnone⟩
  · rw [hstate, hresult]
    rcases h.removeSlot_cases slot upcoming with ⟨hsame, hnone⟩ | ⟨r, as, bs, rename, hr, hslots, hheld, hremoved⟩
    · refine .inl ⟨hsame, fun p hp => ?_⟩
      cases hr : (c.removeSlot slot upcoming).result with
      | ok r => exact hnone r hr
      | error f =>
          rw [hr] at hp
          cases hp
    · rw [hr]
      exact .inr ⟨r.1, as, slot, bs, rename, rfl, hslots, hheld, hremoved⟩

/-! ## What is read off -/

/-- What a container shows is its listing. -/
theorem Shows.listing_eq (h : c.Shows slots ps) : c.listing = .ok (c.listingOf ps) := by
  rw [listing, h.toList_eq, Checked.ok_bind]
  rfl

end Container

end DenseHash
