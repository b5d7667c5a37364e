import DenseHash.Container.Revise
import DenseHash.Cursor.Basic
import DenseHash.Operation
import DenseHash.Proofs.Table.Change

/-!
# Operations that the flood guard need not watch

Most operations work at single entries. They *keep the form* of storage: nothing is logged, a fallback stays a fallback,
and a table stays a table to whose buckets nothing is added. That holds whether the operation is refused or not, so it
holds of sequences of such operations, and of a visit to all entries.

The others are insertions, requests for room and shrinking: what may rebuild the buckets. In a fallback there are none,
and everything keeps its form.
-/

namespace DenseHash

variable [Backing] {K V α β σ : Type}

/-! ## Storage -/

namespace Store

variable [BEq K]

/-- A table in the storage is intact. -/
def Intact : Store K V → Prop
  | .table t => t.Intact
  | .fallback _ => True

/-- A table is still a table and got no bucket and no hash; a fallback is still a fallback. -/
inductive KeepsForm : Store K V → Store K V → Prop where
  | table {t t' : Table K V} (addsNothing : t.AddsNothing t') : KeepsForm (.table t) (.table t')
  | fallback (f f' : Fallback K V) : KeepsForm (.fallback f) (.fallback f')

variable {s s' s'' : Store K V} {slot : Slot} {value : V}

/-- What keeps its form is intact. -/
theorem KeepsForm.intact (h : s.KeepsForm s') : s'.Intact := by
  cases h with
  | table h => exact h.intact
  | fallback f f' => trivial

theorem KeepsForm.trans (h : s.KeepsForm s') (h' : s'.KeepsForm s'') : s.KeepsForm s'' := by
  cases h with
  | table h =>
      cases h' with
      | table h' => exact .table (h.trans h')
  | fallback f f' =>
      cases h' with
      | fallback f' f'' => exact .fallback f f''

/-- A fallback stays a fallback. -/
theorem KeepsForm.exists_fallback {f : Fallback K V} (h : s.KeepsForm s') (hs : s = .fallback f) :
    ∃ f', s' = .fallback f' := by
  subst hs
  cases h with
  | fallback f f' => exact ⟨f', rfl⟩

theorem KeepsForm.isFallback (h : s.KeepsForm s') : s'.isFallback = s.isFallback := by
  cases h <;> rfl

namespace Intact

/-- Intact storage that is left alone keeps its form. -/
theorem keepsForm_refl (h : s.Intact) : s.KeepsForm s := by
  cases s with
  | table t => exact .table (Table.Intact.addsNothing_refl h)
  | fallback f => exact .fallback f f

theorem keepsForm_cleared (h : s.Intact) : s.KeepsForm s.cleared := by
  cases s with
  | table t => exact .table (Table.Intact.addsNothing_cleared h)
  | fallback f => exact .fallback f f.cleared

theorem keepsForm_renewed (h : s.Intact) : s.KeepsForm s.renewed := by
  cases s with
  | table t => exact .table (Table.Intact.addsNothing_cleared h)
  | fallback f => exact .fallback f f.renewed

/-- Replacing a value touches no link. -/
theorem keepsForm_setValue (h : s.Intact) (hs : s.setValue slot value = .ok s') : s.KeepsForm s' := by
  cases s <;> cases slot
  case table.index t i =>
    obtain ⟨t', ht', hs⟩ := Checked.bind_eq_ok hs
    obtain rfl := Except.ok.inj hs
    exact .table (Table.Intact.addsNothing_setValue h ht')
  case fallback.node f k =>
    obtain ⟨f', -, hs⟩ := Checked.bind_eq_ok hs
    obtain rfl := Except.ok.inj hs
    exact .fallback f f'
  all_goals cases hs

/-- Using an entry moves it in the order only. -/
theorem keepsForm_touch {moved : Bool} (h : s.Intact) (hs : s.touch slot = .ok (moved, s')) : s.KeepsForm s' := by
  cases s <;> cases slot
  case table.index t i =>
    obtain ⟨⟨moved', t'⟩, ht', hs⟩ := Checked.bind_eq_ok hs
    obtain rfl := (Prod.mk.inj (Except.ok.inj hs)).2
    exact .table (Table.Intact.addsNothing_touch h ht')
  case fallback.node f k =>
    obtain ⟨⟨moved', f'⟩, -, hs⟩ := Checked.bind_eq_ok hs
    obtain rfl := (Prod.mk.inj (Except.ok.inj hs)).2
    exact .fallback f f'
  all_goals cases hs

/-- A removal takes out of a chain and adds to none. -/
theorem keepsForm_removeSlot {upcoming : Option Slot} {r : (K × V) × Option Slot} (h : s.Intact)
    (hs : s.removeSlot slot upcoming = .ok (r, s')) : s.KeepsForm s' := by
  cases s <;> cases slot
  case table.index t i =>
    rw [removeSlot] at hs
    split at hs
    · cases hs
    · obtain ⟨up, -, hs⟩ := Checked.bind_eq_ok hs
      obtain ⟨⟨pair, t'⟩, ht', hs⟩ := Checked.bind_eq_ok hs
      obtain rfl := (Prod.mk.inj (Except.ok.inj hs)).2
      exact .table (Table.Intact.addsNothing_removeAt h ht')
  case fallback.node f k =>
    obtain ⟨⟨pair, f'⟩, -, hs⟩ := Checked.bind_eq_ok hs
    obtain rfl := (Prod.mk.inj (Except.ok.inj hs)).2
    exact .fallback f f'
  all_goals cases hs

/-- Revising an entry replaces its value. -/
theorem keepsForm_reviseAt {change : K → V → V} {p : K × V} (h : s.Intact)
    (hs : s.reviseAt change slot = .ok (p, s')) : s.KeepsForm s' := by
  obtain ⟨pair, -, hs⟩ := Checked.bind_eq_ok hs
  obtain ⟨s₁, hs₁, hs⟩ := Checked.bind_eq_ok hs
  obtain rfl := (Prod.mk.inj (Except.ok.inj hs)).2
  exact h.keepsForm_setValue hs₁

theorem keepsForm_reviseAll {change : K → V → V} {slots : List Slot} {ps : List (K × V)} (h : s.Intact)
    (hs : reviseAll change slots s = .ok (ps, s')) : s.KeepsForm s' := by
  induction slots generalizing s ps with
  | nil =>
      obtain rfl := (Prod.mk.inj (Except.ok.inj hs)).2
      exact h.keepsForm_refl
  | cons slot slots ih =>
      obtain ⟨⟨p, s₁⟩, hs₁, hs⟩ := Checked.bind_eq_ok hs
      obtain ⟨⟨qs, s₂⟩, hs₂, hs⟩ := Checked.bind_eq_ok hs
      obtain rfl := (Prod.mk.inj (Except.ok.inj hs)).2
      have hfirst := h.keepsForm_reviseAt hs₁
      exact hfirst.trans (ih hfirst.intact hs₂)

/-- A script changes values, from whichever end it takes them. -/
theorem keepsForm_reviseBy {change : K → V → V} {moves : List Move} {slots : List Slot}
    {readings : List (Reading (K × V))} (h : s.Intact)
    (hs : reviseBy change moves slots s = .ok (readings, s')) : s.KeepsForm s' := by
  induction moves generalizing s slots readings with
  | nil =>
      obtain rfl := (Prod.mk.inj (Except.ok.inj hs)).2
      exact h.keepsForm_refl
  | cons move moves ih =>
      -- whatever is handed out first, the rest of the script starts from what that left
      have hand : ∀ {slot rest}, (reviseAt change s slot >>= fun first =>
          reviseBy change moves rest first.2 >>= fun others =>
            .ok (Reading.item (some first.1) :: others.1, others.2)) = .ok (readings, s') → s.KeepsForm s' := by
        intro slot rest hs
        obtain ⟨⟨p, s₁⟩, hs₁, hs⟩ := Checked.bind_eq_ok hs
        obtain ⟨⟨rs, s₂⟩, hs₂, hs⟩ := Checked.bind_eq_ok hs
        obtain rfl := (Prod.mk.inj (Except.ok.inj hs)).2
        have hfirst := h.keepsForm_reviseAt hs₁
        exact hfirst.trans (ih hfirst.intact hs₂)
      have pass : ∀ {reading rest}, (reviseBy change moves rest s >>= fun others =>
          .ok (reading :: others.1, others.2)) = .ok (readings, s') → s.KeepsForm s' := by
        intro reading rest hs
        obtain ⟨⟨rs, s₂⟩, hs₂, hs⟩ := Checked.bind_eq_ok hs
        obtain rfl := (Prod.mk.inj (Except.ok.inj hs)).2
        exact ih h hs₂
      cases move with
      | front =>
          cases slots with
          | nil => exact pass hs
          | cons slot rest => exact hand hs
      | back =>
          rw [reviseBy] at hs
          cases hlast : slots.getLast? with
          | none =>
              rw [hlast] at hs
              exact pass hs
          | some slot =>
              rw [hlast] at hs
              exact hand hs
      | length => exact pass hs
      | bounds => exact pass hs
      | copy =>
          obtain ⟨ps, -, hs⟩ := Checked.bind_eq_ok hs
          exact pass hs
      | rest =>
          obtain ⟨⟨ps, s₁⟩, hs₁, hs⟩ := Checked.bind_eq_ok hs
          obtain ⟨⟨rs, s₂⟩, hs₂, hs⟩ := Checked.bind_eq_ok hs
          obtain rfl := (Prod.mk.inj (Except.ok.inj hs)).2
          have hfirst := h.keepsForm_reviseAll hs₁
          exact hfirst.trans (ih hfirst.intact hs₂)

end Intact

end Store

/-! ## Operations -/

namespace Container

variable [BEq K] {c c' : Container K V}

/-- Nothing was logged, and what is left has the same chain limit and the same form of storage, with nothing added to a
    table. -/
structure KeepsForm (c : Container K V) (r : Reply (Container K V) α) : Prop where
  events : r.events = []
  maxChain : r.state.maxChain = c.maxChain
  form : c.store.KeepsForm r.state.store

/-- A container that is left alone keeps its form, whatever it answers. -/
theorem keepsForm_self (h : c.store.Intact) (result : Checked α) :
    KeepsForm c ⟨c, [], result⟩ := ⟨rfl, rfl, h.keepsForm_refl⟩

/-- Whether a change is counted makes no difference. -/
theorem keepsForm_count (h : c.store.Intact) (b : Bool) (a : α) : KeepsForm c (.ok (if b then c.bump else c) a) := by
  cases b <;> exact ⟨rfl, rfl, h.keepsForm_refl⟩

/-- One operation after the other. What is asked of the second, the first has prepared. -/
theorem KeepsForm.andThen {r : Reply (Container K V) α} {next : α → Container K V → Reply (Container K V) β}
    (h : KeepsForm c r) (hnext : ∀ a c', c.store.KeepsForm c'.store → KeepsForm c' (next a c')) :
    KeepsForm c (r.andThen next) := by
  cases hr : r.result with
  | ok a =>
      have h' := hnext a r.state h.form
      rw [Reply.andThen_of_ok hr]
      refine ⟨?_, h'.maxChain.trans h.maxChain, h.form.trans h'.form⟩
      show r.events ++ (next a r.state).events = []
      rw [h.events, h'.events, List.append_nil]
  | error f =>
      rw [Reply.andThen_of_error hr]
      exact ⟨h.events, h.maxChain, h.form⟩

/-- What is made of the answer does not matter. -/
theorem KeepsForm.map {r : Reply (Container K V) α} (h : KeepsForm c r) (g : α → β) : KeepsForm c (r.map g) :=
  ⟨h.events, h.maxChain, h.form⟩

/-- The result does not matter. -/
theorem KeepsForm.congr {r : Reply (Container K V) α} {r' : Reply (Container K V) β} (h : KeepsForm c r)
    (hevents : r'.events = r.events) (hstate : r'.state = r.state) : KeepsForm c r' :=
  ⟨hevents.trans h.events, hstate ▸ h.maxChain, hstate ▸ h.form⟩

/-- An operation on the storage alone. -/
theorem keepsForm_ofStore {outcome : Checked (α × Store K V)} (h : c.store.Intact)
    (houtcome : ∀ a s, outcome = .ok (a, s) → c.store.KeepsForm s) : KeepsForm c (c.ofStore outcome) := by
  cases outcome with
  | ok r => exact ⟨rfl, rfl, houtcome r.1 r.2 rfl⟩
  | error f => exact keepsForm_self h _

theorem touch_keepsForm (h : c.store.Intact) (slot : Slot) : KeepsForm c (c.touch slot) :=
  (keepsForm_ofStore h fun _ _ hs => h.keepsForm_touch hs).andThen fun moved _ h' => keepsForm_count h'.intact moved ()

theorem removeSlot_keepsForm (h : c.store.Intact) (slot : Slot) (upcoming : Option Slot) :
    KeepsForm c (c.removeSlot slot upcoming) :=
  (keepsForm_ofStore h fun _ _ hs => h.keepsForm_removeSlot hs).andThen fun removed _ h' =>
    keepsForm_count h'.intact true removed

theorem popFirst_keepsForm (h : c.store.Intact) : KeepsForm c c.popFirst := by
  rw [popFirst]
  split
  · exact (removeSlot_keepsForm h _ none).map _
  · exact keepsForm_self h _

theorem popLast_keepsForm (h : c.store.Intact) : KeepsForm c c.popLast := by
  rw [popLast]
  split
  · exact (removeSlot_keepsForm h _ none).map _
  · exact keepsForm_self h _

theorem get_keepsForm (h : c.store.Intact) (key : K) : KeepsForm c (c.get key) := by
  rw [get]
  split
  · refine (touch_keepsForm h _).andThen fun _ c' h' => ?_
    split <;> exact keepsForm_self h'.intact _
  · exact keepsForm_self h _
  · exact keepsForm_self h _

theorem modify_keepsForm (h : c.store.Intact) (key : K) (g : V → V) : KeepsForm c (c.modify key g) := by
  rw [modify]
  split
  · refine (touch_keepsForm h _).andThen fun _ c' h' => keepsForm_ofStore h'.intact fun a s hs => ?_
    obtain ⟨p, -, hs⟩ := Checked.bind_eq_ok hs
    obtain ⟨s₁, hs₁, hs⟩ := Checked.bind_eq_ok hs
    obtain rfl := (Prod.mk.inj (Except.ok.inj hs)).2
    exact h'.intact.keepsForm_setValue hs₁
  · exact keepsForm_self h _
  · exact keepsForm_self h _

theorem remove_keepsForm (h : c.store.Intact) (key : K) : KeepsForm c (c.remove key) := by
  refine KeepsForm.andThen (keepsForm_ofStore h fun pair s hs => ?_) fun pair _ h' =>
    keepsForm_count h'.intact pair.isSome pair
  cases hc : c.store with
  | table t =>
      rw [hc] at h hs
      obtain ⟨⟨pair', t'⟩, ht', hs⟩ := Checked.bind_eq_ok hs
      obtain rfl := (Prod.mk.inj (Except.ok.inj hs)).2
      exact .table (Table.Intact.addsNothing_remove h ht')
  | fallback f =>
      rw [hc] at hs
      obtain ⟨⟨pair', f'⟩, -, hs⟩ := Checked.bind_eq_ok hs
      obtain rfl := (Prod.mk.inj (Except.ok.inj hs)).2
      exact .fallback f f'

theorem clear_keepsForm (h : c.store.Intact) (a : α) : KeepsForm c (.ok c.clear a) := ⟨rfl, rfl, h.keepsForm_cleared⟩

theorem drain_keepsForm (h : c.store.Intact) : KeepsForm c c.drain := by
  refine (keepsForm_ofStore h fun pairs s hs => ?_).andThen fun pairs _ h' =>
    keepsForm_count h'.intact true pairs
  obtain ⟨ps, -, hs⟩ := Checked.bind_eq_ok hs
  obtain rfl := (Prod.mk.inj (Except.ok.inj hs)).2
  exact h.keepsForm_renewed

/-- Retaining removes and replaces, one entry after the other. -/
theorem retainFrom_keepsForm (keep : σ → K → V → σ × V × Bool) (fuel : Nat) (slot : Option Slot) (state : σ)
    (h : c.store.Intact) : KeepsForm c (retainFrom keep fuel slot state c) := by
  induction fuel generalizing c slot state with
  | zero => cases slot <;> exact keepsForm_self h _
  | succ fuel ih =>
      cases slot with
      | none => exact keepsForm_self h _
      | some slot =>
          rw [retainFrom]
          refine KeepsForm.andThen (keepsForm_ofStore h fun a s hs => ?_) fun ⟨upcoming, state, stays⟩ c' h' => ?_
          · obtain ⟨up, -, hs⟩ := Checked.bind_eq_ok hs
            obtain ⟨p, -, hs⟩ := Checked.bind_eq_ok hs
            obtain ⟨s₁, hs₁, hs⟩ := Checked.bind_eq_ok hs
            obtain rfl := (Prod.mk.inj (Except.ok.inj hs)).2
            exact h.keepsForm_setValue hs₁
          · dsimp only
            split
            · exact ih _ _ h'.intact
            · exact (removeSlot_keepsForm h'.intact slot upcoming).andThen fun removed _ h'' =>
                ih removed.2 state h''.intact

/-- A script of revisions replaces values. -/
theorem revise_keepsForm (h : c.store.Intact) (moves : List Move) (change : K → V → V) :
    KeepsForm c (c.revise moves change) := by
  refine keepsForm_ofStore h fun readings s hs => ?_
  obtain ⟨slots, -, hs⟩ := Checked.bind_eq_ok hs
  exact h.keepsForm_reviseBy hs

omit [BEq K] in
/-- A cursor that is told to remove does nothing to the container, or removes at a slot. -/
theorem cursor_remove_cases (cur : Cursor) (c : Container K V) :
    ((cur.remove c).events = [] ∧ (cur.remove c).state.1 = c ∧ ∀ p, (cur.remove c).result ≠ .ok (.ok p)) ∨
      ∃ slot upcoming, (cur.remove c).events = (c.removeSlot slot upcoming).events ∧
        (cur.remove c).state.1 = (c.removeSlot slot upcoming).state ∧
        (cur.remove c).result = (c.removeSlot slot upcoming).result.map fun r => .ok r.1 := by
  rw [Cursor.remove]
  split
  · exact .inl ⟨rfl, rfl, fun p hp => nomatch hp⟩
  · split
    · exact .inl ⟨rfl, rfl, fun p hp => nomatch hp⟩
    · rename_i cur' _ _ slot _
      refine .inr ⟨slot, cur'.upcoming, ?_⟩
      dsimp only
      generalize c.removeSlot slot cur'.upcoming = r
      obtain ⟨c', events, result⟩ := r
      cases result with
      | ok removed => exact ⟨List.append_nil events, rfl, rfl⟩
      | error f => exact ⟨rfl, rfl, rfl⟩

/-- A removal through a cursor, whatever the cursor is. -/
theorem cursor_remove_keepsForm (h : c.store.Intact) (cur : Cursor) : KeepsForm c ((cur.remove c).within Prod.fst) := by
  rcases cursor_remove_cases cur c with ⟨hevents, hstate, -⟩ | ⟨slot, upcoming, hevents, hstate, -⟩
  · exact (keepsForm_self h (.ok ())).congr hevents hstate
  · exact (removeSlot_keepsForm h slot upcoming).congr hevents hstate

/-! ## A fallback -/

/-- What keeps the form of a fallback does not lead back from it. -/
theorem isFallback_back {r : Reply (Container K V) α} (hform : ∀ f, c.store = .fallback f → KeepsForm c r)
    (h : r.state.isFallback = false) : c.isFallback = false := by
  cases hs : c.store with
  | table t => rw [isFallback, hs]; rfl
  | fallback f => exact (hform f hs).form.isFallback.symm.trans h

section Fallback

variable {f : Fallback K V}

/-- A fallback that stays one. -/
theorem keepsForm_fallback {r : Reply (Container K V) α} {g : Fallback K V} (hs : c.store = .fallback f)
    (hs' : r.state.store = .fallback g) (hmax : r.state.maxChain = c.maxChain) (hevents : r.events = []) : KeepsForm c r :=
  ⟨hevents, hmax, by rw [hs, hs']; exact .fallback f g⟩

/-- In the fallback an insertion calls no guard. -/
theorem insert_fallback_keepsForm (hs : c.store = .fallback f) (key : K) (value : V) :
    KeepsForm c (c.insert key value) := by
  rw [insert]
  rw [hs]
  dsimp only
  split
  · rename_i old moved f' _
    cases moved <;> exact keepsForm_fallback hs (g := f') rfl rfl rfl
  · rename_i f' _
    exact keepsForm_fallback hs (g := f') rfl rfl rfl
  · exact keepsForm_fallback hs hs rfl rfl

theorem reserve_fallback_keepsForm (hs : c.store = .fallback f) (more : UInt64) : KeepsForm c (c.reserve more) := by
  rw [reserve]
  rw [hs]
  exact keepsForm_fallback hs hs rfl rfl

/-- In the fallback there is no chain to inspect. -/
theorem inspect_fallback (hs : c.store = .fallback f) : c.inspect = .ok c () := by
  rw [inspect]
  rw [hs]

theorem forEach_insert_fallback_keepsForm (hs : c.store = .fallback f) (pairs : List (K × V)) :
    KeepsForm c (Reply.forEach (fun (key, value) c => (c.insert key value).map fun _ => ()) pairs c) := by
  induction pairs generalizing c f with
  | nil => exact keepsForm_fallback hs hs rfl rfl
  | cons p pairs ih =>
      refine ((insert_fallback_keepsForm hs p.1 p.2).map _).andThen fun _ c' h' => ?_
      obtain ⟨f', hs'⟩ := h'.exists_fallback hs
      exact ih hs'

/-- Pairs are inserted, and then the chains are measured. -/
theorem insertAll_fallback_keepsForm (hs : c.store = .fallback f) (pairs : List (K × V)) :
    KeepsForm c ((Reply.forEach (fun (key, value) c => (c.insert key value).map fun _ => ()) pairs c).andThen
      fun _ c => c.inspect) := by
  refine (forEach_insert_fallback_keepsForm hs pairs).andThen fun _ c' h' => ?_
  obtain ⟨f', hs'⟩ := h'.exists_fallback hs
  rw [inspect_fallback hs']
  exact keepsForm_fallback hs' hs' rfl rfl

theorem extend_fallback_keepsForm (hs : c.store = .fallback f) (hint : UInt64) (pairs : List (K × V)) :
    KeepsForm c (c.extend hint pairs) := by
  rw [extend]
  cases c.roomFor hint with
  | error e => exact keepsForm_fallback hs hs rfl rfl
  | ok room =>
      refine (reserve_fallback_keepsForm hs room).andThen fun _ c₁ h₁ => ?_
      obtain ⟨f₁, hs₁⟩ := h₁.exists_fallback hs
      exact insertAll_fallback_keepsForm hs₁ pairs

end Fallback

/-! ## Every operation -/

/-- What may rebuild the buckets. -/
def MayRebuild : Operation K V → Prop
  | .insert _ _ => True
  | .extend _ _ => True
  | .reserve _ => True
  | .shrink => True
  | _ => False

/-- Every operation that cannot rebuild the buckets keeps the form, refused or not. -/
theorem apply_keepsForm (h : c.store.Intact) {op : Operation K V} (hop : ¬MayRebuild op) :
    KeepsForm c (c.apply op) := by
  cases op with
  | insert key value => exact absurd trivial hop
  | extend hint pairs => exact absurd trivial hop
  | reserve more => exact absurd trivial hop
  | shrink => exact absurd trivial hop
  | get key => exact (get_keepsForm h key).map _
  | modify key change => exact (modify_keepsForm h key change).map _
  | peek key => exact (keepsForm_self h _).map _
  | entry key => exact (keepsForm_self h _).map _
  | contains key => exact (keepsForm_self h _).map _
  | remove key => exact (remove_keepsForm h key).map _
  | first => exact (keepsForm_self h _).map _
  | last => exact (keepsForm_self h _).map _
  | popFirst => exact (popFirst_keepsForm h).map _
  | popLast => exact (popLast_keepsForm h).map _
  | retain keep => exact ((retainFrom_keepsForm _ _ _ _ h).map _).map _
  | drain => exact (drain_keepsForm h).map _
  | clear => exact clear_keepsForm h _
  | iterate moves => exact (keepsForm_self h _).map _
  | revise moves change => exact (revise_keepsForm h moves change).map _

/-- A fallback has no buckets to rebuild. -/
theorem apply_fallback_keepsForm {f : Fallback K V} (hs : c.store = .fallback f) (op : Operation K V) :
    KeepsForm c (c.apply op) := by
  by_cases hop : MayRebuild op
  · cases op with
    | insert key value => exact (insert_fallback_keepsForm hs key value).map _
    | extend hint pairs => exact (extend_fallback_keepsForm hs hint pairs).map _
    | reserve more => exact (reserve_fallback_keepsForm hs more).map _
    | shrink =>
        refine KeepsForm.map ?_ _
        rw [shrink]
        rw [hs]
        exact keepsForm_fallback hs hs rfl rfl
    | _ => exact hop.elim
  · refine apply_keepsForm ?_ hop
    rw [hs]
    trivial

end Container

end DenseHash
