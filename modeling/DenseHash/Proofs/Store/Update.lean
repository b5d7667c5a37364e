import DenseHash.Proofs.Store.Sound

/-!
# Changing either form of storage

What the operations on a store do to its slots and to what they hold, for both forms at once: replacing a value,
counting a use, removing an entry, emptying.
-/

namespace DenseHash

namespace Store

variable [Backing] {K V : Type} [BEq K]

/-- What a removal leaves. The slots that stay may get other names, and are traversed in the same order, except
    that the last one comes next if removal is packed. -/
structure Removes (hashing : Hashing K) (s : Store K V) (as bs : List Slot) (rename : Slot → Slot)
    (s' : Store K V) : Prop where
  kind : s.SameKind s'
  sound : s'.Sound hashing ((as ++ closeUp s.isPacked bs).map rename)
  held : ∀ slot ∈ as ++ bs, s'.held (rename slot) = s.held slot

omit [BEq K] in
theorem sameKind_cleared (s : Store K V) : s.SameKind s.cleared := by
  cases s with
  | table t => exact sameKind_table (Order.cleared_sameKind _)
  | fallback f => exact sameKind_fallback rfl

omit [BEq K] in
theorem sameKind_renewed (s : Store K V) : s.SameKind s.renewed := by
  cases s with
  | table t => exact sameKind_cleared (.table t)
  | fallback f => exact sameKind_fallback rfl

namespace Sound

variable {hashing : Hashing K} {s : Store K V} {slots as bs : List Slot} {slot : Slot} {key : K} {value old : V}

/-- Cleared storage is sound and has no slots. -/
theorem cleared (h : s.Sound hashing slots) : s.cleared.Sound hashing [] := by
  cases s with
  | table t =>
      obtain ⟨is, rfl, ht, -⟩ := h
      exact ⟨[], rfl, Table.sound_cleared ht, fun hc => nomatch hc⟩
  | fallback f =>
      obtain ⟨ss, rfl, hf, hdraws⟩ := h
      exact ⟨[], rfl, Fallback.sound_cleared f, hdraws⟩

/-- Sound and without slots is also storage that all entries were taken out of, though a new fallback has another hash function. -/
theorem renewed (h : s.Sound hashing slots) : s.renewed.Sound hashing [] := by
  cases s with
  | table t => exact h.cleared
  | fallback f =>
      obtain ⟨ss, rfl, hf, hdraws⟩ := h
      exact ⟨[], rfl, Fallback.sound_renewed f, hdraws.drop 1⟩

/-- Replacing a value changes what one slot holds. -/
theorem setValue_eq (h : s.Sound hashing slots) (hp : s.held slot = some (key, old)) (value : V) :
    ∃ s', s.setValue slot value = .ok s' ∧ s.SameKind s' ∧ s'.Sound hashing slots ∧
      s'.held = Function.update s.held slot (some (key, value)) := by
  cases s with
  | table t =>
      obtain ⟨is, rfl, ht, hhash⟩ := h
      cases slot with
      | node k => exact nomatch hp
      | index i =>
          obtain ⟨⟨hash, key', old'⟩, hc, heq⟩ := Option.map_eq_some_iff.mp hp
          obtain ⟨rfl, rfl⟩ := Prod.mk.inj heq
          obtain ⟨t', ht', hsound, horder, hcontent⟩ := ht.setValue_eq hc value
          refine ⟨.table t', by rw [setValue, ht']; rfl, sameKind_table (horder ▸ .refl _),
            ⟨is, rfl, hsound, hhash.update (hhash hc) hcontent⟩, ?_⟩
          exact held_table_update (Table.pair?_update hcontent)
  | fallback f =>
      obtain ⟨ss, rfl, hf, hdraws⟩ := h
      cases slot with
      | index i => exact nomatch hp
      | node k =>
          obtain ⟨⟨hash, key', old'⟩, hc, heq⟩ := Option.map_eq_some_iff.mp hp
          obtain ⟨rfl, rfl⟩ := Prod.mk.inj heq
          obtain ⟨f', hf', hsound, hdraws', haccess, hcontent⟩ := hf.setValue_eq hc value
          refine ⟨.fallback f', by rw [setValue, hf']; rfl, sameKind_fallback haccess,
            ⟨ss, rfl, hsound, hdraws'.symm ▸ hdraws⟩, ?_⟩
          exact held_fallback_update (Fallback.pair?_update hcontent)

end Sound

omit [BEq K] in
/-- Replacing a value files nothing. -/
theorem setValue_sameFiles {s s' : Store K V} {slot : Slot} {value : V} (h : s.setValue slot value = .ok s') :
    s.SameFiles s' := by
  cases s with
  | table t =>
      cases slot with
      | node k => cases h
      | index i =>
          obtain ⟨t', -, h⟩ := Checked.bind_eq_ok h
          cases h
          trivial
  | fallback f =>
      cases slot with
      | index i => cases h
      | node k =>
          obtain ⟨f', hf', h⟩ := Checked.bind_eq_ok h
          cases h
          exact ⟨Fallback.setValue_index hf', Fallback.setValue_draws hf'⟩

namespace Sound

variable {hashing : Hashing K} {s : Store K V} {as bs : List Slot} {slot : Slot}

/-- A use moves a slot to the end, in the order of use. -/
theorem touch_eq (h : s.Sound hashing (as ++ slot :: bs)) :
    ∃ s', s.touch slot = .ok (s.byAccess && !bs.isEmpty, s') ∧ s.SameKind s' ∧
      s'.Sound hashing (if s.byAccess then as ++ bs ++ [slot] else as ++ slot :: bs) ∧
      s'.held = s.held := by
  cases s with
  | table t =>
      obtain ⟨is, hslots, ht, hhash⟩ := h
      obtain ⟨js, i, ks, rfl, rfl, rfl, rfl⟩ := map_eq_append_cons hslots.symm
      obtain ⟨t', ht', hkind, hsound, hcontent⟩ := ht.touch_eq
      refine ⟨.table t', ?_, sameKind_table hkind, ⟨_, ?_, hsound, ?_⟩, ?_⟩
      · rw [touch, ht', List.isEmpty_map]
        rfl
      · rw [show (table t).byAccess = t.order.byAccess from rfl, apply_ite (List.map Slot.index)]
        simp
      · exact fun hc => hhash (hcontent ▸ hc)
      · funext slot
        cases slot with
        | index k => simp only [held, Table.pair?, hcontent]
        | node k => rfl
  | fallback f =>
      obtain ⟨ss, hslots, hf, hdraws⟩ := h
      obtain ⟨js, k, ks, rfl, rfl, rfl, rfl⟩ := map_eq_append_cons hslots.symm
      obtain ⟨f', hf', halike, hsound⟩ := hf.touch_eq
      refine ⟨.fallback f', ?_, sameKind_fallback halike.byAccess, ⟨_, ?_, hsound, ?_⟩, ?_⟩
      · rw [touch, hf', List.isEmpty_map]
        rfl
      · rw [show (fallback f).byAccess = f.byAccess from rfl, apply_ite (List.map Slot.node)]
        simp
      · exact halike.draws.symm ▸ hdraws
      · funext slot
        cases slot with
        | index i => rfl
        | node m => simp only [held, Fallback.pair?, halike.content]

end Sound

/-! ## Removing -/

/-- The slots of a table after the last index got another name. -/
def renameIndex (i last : Nat) : Slot → Slot
  | .index k => .index (reindex i last k)
  | .node k => .node k

/-- Renaming slots renames their indices. -/
theorem map_renameIndex (i last : Nat) (ks : List Nat) :
    (ks.map Slot.index).map (renameIndex i last) = (ks.map (reindex i last)).map Slot.index := by
  rw [List.map_map, List.map_map]
  rfl

section Removing

variable {hashing : Hashing K}

/-- A removal from the table, seen through slots: the last index gets the name that became free. -/
theorem removes_table {as bs : List Nat} {t t' : Table K V} {i : Nat} (hhash : t.Hashed hashing.stored)
    (h : t.Removes as bs i t') :
    (table t).Removes hashing (as.map .index) (bs.map .index) (renameIndex i (t.size - 1)) (table t') := by
  refine ⟨sameKind_table h.kind, ⟨_, ?_, h.sound, fun {k hash key value} hc => ?_⟩, fun slot hslot => ?_⟩
  · rw [show (table t).isPacked = t.order.isDense from rfl, ← map_closeUp, ← List.map_append,
      map_renameIndex]
  · obtain ⟨m, hm, rfl⟩ := List.mem_map.mp (h.sound.mem_of_content hc)
    have hm' : m ∈ as ++ bs := ((closeUp_perm _ bs).append_left as).mem_iff.mp hm
    exact hhash (h.content m hm' ▸ hc)
  · rw [← List.map_append] at hslot
    obtain ⟨m, hm, rfl⟩ := List.mem_map.mp hslot
    show Option.map _ (t'.content (reindex i (t.size - 1) m)) = Option.map _ (t.content m)
    rw [h.content m hm]

/-- A removal from the fallback renames nothing. -/
theorem removes_fallback {as bs : List Backing.Handle} {f f' : Fallback K V} {s : Backing.Handle}
    (hsound : f'.Sound (as ++ bs))
    (hdraws : hashing.secondary.Left f'.draws) (haccess : f'.byAccess = f.byAccess)
    (hnot : s ∉ as ++ bs) (hcontent : f'.content = Function.update f.content s none) :
    (fallback f).Removes hashing (as.map .node) (bs.map .node) id (fallback f') := by
  refine ⟨sameKind_fallback haccess, ⟨as ++ bs, ?_, hsound, hdraws⟩, fun slot hslot => ?_⟩
  · rw [List.map_id, List.map_append]
    rfl
  · rw [← List.map_append] at hslot
    obtain ⟨m, hm, rfl⟩ := List.mem_map.mp hslot
    have hms : m ≠ s := fun heq => hnot (heq ▸ hm)
    show Option.map _ (f'.content m) = Option.map _ (f.content m)
    rw [hcontent, Function.update_of_ne hms]

end Removing

/-- Removing at a slot tells the entry, and where a traversal goes on that would have gone on behind it. -/
theorem Sound.removeSlot_eq {hashing : Hashing K} {s : Store K V} {as bs : List Slot} {slot : Slot}
    {p : K × V} {upcoming : Option Slot} (h : s.Sound hashing (as ++ slot :: bs))
    (hp : s.held slot = some p) (hup : upcoming = none ∨ upcoming = bs.head?) :
    ∃ resume rename s', s.removeSlot slot upcoming = .ok ((p, resume), s') ∧
      s.Removes hashing as bs rename s' ∧
      (upcoming = bs.head? → resume = (closeUp s.isPacked bs).head?.map rename) := by
  cases s with
  | table t =>
      obtain ⟨is, hslots, ht, hhash⟩ := h
      obtain ⟨js, i, ks, rfl, rfl, rfl, rfl⟩ := map_eq_append_cons hslots.symm
      obtain ⟨⟨hash, key, value⟩, hc, rfl⟩ := Option.map_eq_some_iff.mp hp
      obtain ⟨t', ht', hremoves⟩ := ht.removeAt_eq hc
      have hne : t.size ≠ 0 := by
        have := Table.lt_size_of_content hc
        omega
      -- the slot to go on from is one of the table, or none
      obtain ⟨up, hup', hupcoming⟩ :
          ∃ up, upcoming = up.map Slot.index ∧ (upcoming = (ks.map Slot.index).head? → up = ks.head?) := by
        rcases hup with rfl | rfl
        · refine ⟨none, rfl, fun hnone => ?_⟩
          cases ks with
          | nil => rfl
          | cons k ks => exact nomatch hnone
        · exact ⟨ks.head?, List.head?_map, fun _ => rfl⟩
      have hindex : upcomingIndex upcoming = .ok up := by
        rw [hup']
        cases up <;> rfl
      refine ⟨(t.order.resume up i (t.size - 1)).map .index, _, .table t', ?_, removes_table hhash hremoves,
        fun heq => ?_⟩
      · rw [removeSlot, if_neg hne, hindex, Checked.ok_bind, ht']
        rfl
      · rw [hupcoming heq, ht.order.resume_eq, show (table t).isPacked = t.order.isDense from rfl,
          ← map_closeUp, List.head?_map, Option.map_map, Option.map_map]
        rfl
  | fallback f =>
      obtain ⟨ss, hslots, hf, hdraws⟩ := h
      obtain ⟨js, k, ks, rfl, rfl, rfl, rfl⟩ := map_eq_append_cons hslots.symm
      obtain ⟨⟨hash, key, value⟩, hc, rfl⟩ := Option.map_eq_some_iff.mp hp
      obtain ⟨f', hf', hsound, hdraws', haccess, hcontent⟩ := hf.removeSlot_eq hc
      have hnot : k ∉ js ++ ks := (List.nodup_middle.mp hf.nodup).notMem
      -- a node keeps its slot, so the traversal goes on where it would have
      refine ⟨upcoming, id, .fallback f', ?_,
        removes_fallback hsound (hdraws'.symm ▸ hdraws) haccess hnot hcontent, fun heq => ?_⟩
      · rw [removeSlot, hf']
        rfl
      · rw [heq, Option.map_id]
        rfl

/-- A removal that gave a result was made at a slot that is traversed, wherever the traversal would have gone on. -/
theorem Sound.removeSlot_of_ok {hashing : Hashing K} {s s' : Store K V} {slots : List Slot} {slot : Slot}
    {upcoming : Option Slot} {r : (K × V) × Option Slot} (h : s.Sound hashing slots)
    (hrem : s.removeSlot slot upcoming = .ok (r, s')) :
    ∃ as bs rename, slots = as ++ slot :: bs ∧ s.held slot = some r.1 ∧ s.Removes hashing as bs rename s' := by
  cases s with
  | table t =>
      cases slot with
      | node k => cases hrem
      | index i =>
          obtain ⟨is, rfl, ht, hhash⟩ := h
          rw [removeSlot] at hrem
          split at hrem
          · cases hrem
          · obtain ⟨up, -, hrem⟩ := Checked.bind_eq_ok hrem
            obtain ⟨⟨pair, t'⟩, ht', hrem⟩ := Checked.bind_eq_ok hrem
            -- an entry was read at `i`, so `i` is one of the slots traversed
            obtain ⟨e, he, -⟩ := Checked.bind_eq_ok ht'
            have hc : t.content i = some (e.hash, e.key, e.value) := Table.content_of_entry he
            obtain ⟨js, ks, rfl⟩ := List.append_of_mem (ht.mem_of_content hc)
            obtain ⟨t'', ht'', hremoves⟩ := ht.removeAt_eq hc
            rw [ht''] at ht'
            cases ht'
            cases hrem
            refine ⟨js.map .index, ks.map .index, _, by rw [List.map_append, List.map_cons], ?_,
              removes_table hhash hremoves⟩
            rw [held, Table.pair?, hc]
            rfl
  | fallback f =>
      cases slot with
      | index i => cases hrem
      | node k =>
          obtain ⟨ss, rfl, hf, hdraws⟩ := h
          obtain ⟨⟨pair, f'⟩, hf', hrem⟩ := Checked.bind_eq_ok hrem
          obtain ⟨f₁, hunlink, -⟩ := Checked.bind_eq_ok hf'
          obtain ⟨n, hn, -⟩ := Checked.bind_eq_ok hunlink
          have hc : f.content k = some (n.hash, n.key, n.value) := Fallback.content_of_node hn
          obtain ⟨js, ks, rfl⟩ := List.append_of_mem (hf.mem_of_content hc)
          obtain ⟨f'', hf'', hsound, hdraws', haccess, hcontent⟩ := hf.removeSlot_eq hc
          have hnot : k ∉ js ++ ks := (List.nodup_middle.mp hf.nodup).notMem
          rw [hf''] at hf'
          cases hf'
          cases hrem
          refine ⟨js.map .node, ks.map .node, id, by rw [List.map_append, List.map_cons], ?_,
            removes_fallback hsound (hdraws'.symm ▸ hdraws) haccess hnot hcontent⟩
          rw [held, Fallback.pair?, hc]
          rfl

end Store

end DenseHash
