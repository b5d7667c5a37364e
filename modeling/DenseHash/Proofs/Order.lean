import Mathlib.Data.List.Perm.Basic
import DenseHash.Listing
import DenseHash.Proofs.Thread

/-!
# Traversal orders list indices

`Order.Lists o n is` says that the order `o` of `n` entries traverses the indices `is`, which are all indices
below `n`. Every operation is described at one index, with the indices before it and those behind it:

* a use moves the index to the end, in the order of use;
* a removal takes the index out, and the last index is renamed to it. In dense order that puts the last entry
  where the removed one was, so `lastFirst` of the indices behind comes next.
-/

namespace DenseHash

/-- The last element comes first. -/
theorem lastFirst_concat {α : Type} (as : List α) (a : α) : lastFirst (as ++ [a]) = a :: as := by
  rw [lastFirst, List.getLast?_concat]
  show a :: (as ++ [a]).dropLast = _
  rw [List.dropLast_concat]

/-- Putting the last element first loses nothing. -/
theorem lastFirst_perm {α : Type} (as : List α) : (lastFirst as).Perm as := by
  rcases List.eq_nil_or_concat' as with rfl | ⟨init, a, rfl⟩
  · exact .refl _
  · rw [lastFirst_concat]
    exact (List.perm_append_singleton a init).symm

theorem map_lastFirst {α β : Type} (g : α → β) (as : List α) :
    (lastFirst as).map g = lastFirst (as.map g) := by
  rcases List.eq_nil_or_concat' as with rfl | ⟨init, a, rfl⟩
  · rfl
  · rw [List.map_append, List.map_cons, List.map_nil, lastFirst_concat, lastFirst_concat, List.map_cons]

/-- What comes next after a removal: if it is packed, the last element comes first. -/
def closeUp {α : Type} (packed : Bool) (as : List α) : List α := if packed then lastFirst as else as

/-- Closing up loses nothing. -/
theorem closeUp_perm {α : Type} (packed : Bool) (as : List α) : (closeUp packed as).Perm as := by
  cases packed
  · exact .refl _
  · exact lastFirst_perm as

/-- Closing up commutes with any renaming. -/
theorem map_closeUp {α β : Type} (g : α → β) (packed : Bool) (as : List α) :
    (closeUp packed as).map g = closeUp packed (as.map g) := by
  cases packed
  · rfl
  · exact map_lastFirst g as

/-- Closing up the slots closes up what they hold, if they hold something. -/
theorem filterMap_closeUp {α β : Type} {g : α → Option β} {as : List α} {packed : Bool}
    (h : ∀ a ∈ as, ∃ b, g a = some b) : (closeUp packed as).filterMap g = closeUp packed (as.filterMap g) := by
  cases packed with
  | false => rfl
  | true =>
      show (lastFirst as).filterMap g = lastFirst (as.filterMap g)
      rcases List.eq_nil_or_concat' as with rfl | ⟨init, a, rfl⟩
      · rfl
      · obtain ⟨b, hb⟩ := h a (List.mem_append_right init (List.mem_singleton_self a))
        rw [lastFirst_concat, List.filterMap_append, List.filterMap_cons_some hb,
          List.filterMap_cons_some hb, List.filterMap_nil, lastFirst_concat]

/-- Where an index stands in a list of all indices below a number. -/
theorem range_split {n i : Nat} {is js : List Nat} (h : List.range n = is ++ i :: js) :
    is = List.range i ∧ i < n ∧ js = List.range' (i + 1) (n - (i + 1)) := by
  have hlen : n = is.length + (js.length + 1) := by
    have := congrArg List.length h
    simpa using this
  have hi : is.length = i := by
    have hget := congrArg (fun l => l[is.length]?) h
    simp only [List.getElem?_append_right (Nat.le_refl _), Nat.sub_self, List.getElem?_cons_zero,
      List.getElem?_range (show is.length < n by omega)] at hget
    exact Option.some.inj hget
  have hn : n = i + (1 + (n - (i + 1))) := by omega
  rw [hn, List.range_eq_range', ← List.range'_append_1, Nat.zero_add, ← List.range'_append_1] at h
  obtain ⟨h1, h2⟩ := List.append_inj h.symm (by simpa using hi)
  refine ⟨by rw [h1, List.range_eq_range'], by omega, ?_⟩
  exact (List.cons.inj h2).2

/-- In the list of all indices, a removal that closes up packed leaves the list of all indices. -/
theorem map_reindex_range {n i : Nat} {is js : List Nat} (h : List.range n = is ++ i :: js) :
    (is ++ lastFirst js).map (reindex i (n - 1)) = List.range (n - 1) := by
  obtain ⟨rfl, hi, rfl⟩ := range_split h
  have hfront : (List.range i).map (reindex i (n - 1)) = List.range i :=
    map_reindex_of_not_mem fun hm => by
      have := List.mem_range.mp hm
      omega
  rw [List.map_append, hfront]
  by_cases hlast : i = n - 1
  · rw [show n - (i + 1) = 0 by omega, ← hlast]
    simp [lastFirst]
  · obtain ⟨m, hm⟩ : ∃ m, n - (i + 1) = m + 1 := ⟨n - (i + 1) - 1, by omega⟩
    have hback : (List.range' (i + 1) m).map (reindex i (n - 1)) = List.range' (i + 1) m :=
      map_reindex_of_not_mem fun hm' => by
        have := List.mem_range'_1.mp hm'
        omega
    rw [hm, List.range'_concat, Nat.one_mul, lastFirst_concat, List.map_cons,
      show i + 1 + m = n - 1 by omega, reindex_last, hback]
    rw [List.range_eq_range', List.range_eq_range', show n - 1 = i + (1 + m) by omega,
      ← List.range'_append_1, ← List.range'_append_1, Nat.zero_add]
    rfl

/-- After the last index was renamed to one that is gone, all smaller indices are there. -/
theorem mem_map_reindex {n i : Nat} {is js : List Nat} (hall : ∀ k < n, k ∈ is ++ i :: js) :
    ∀ k < n - 1, k ∈ (is ++ js).map (reindex i (n - 1)) := by
  intro k hk
  have hrest : ∀ m < n, m ≠ i → m ∈ is ++ js := fun m hm hmi =>
    (List.mem_cons.mp (List.perm_middle.mem_iff.mp (hall m hm))).resolve_left hmi
  by_cases hki : k = i
  · -- the index that became free is the last one's new name
    have hlast := hrest (n - 1) (by omega) (by omega)
    exact List.mem_map.mpr ⟨n - 1, hlast, (reindex_last i (n - 1)).trans hki.symm⟩
  · exact List.mem_map.mpr ⟨k, hrest k (by omega) hki, reindex_of_ne (by omega)⟩

namespace Order

/-- The order of `n` entries traverses these indices, which are all there are. -/
def Lists : Order → Nat → List Nat → Prop
  | .dense, n, is => is = List.range n
  | .linked _ t, n, is => t.nodes.size = n ∧ t.Lists is ∧ ∀ i < n, i ∈ is

/-- Two orders traverse in the same way. -/
def SameKind (o o' : Order) : Prop := o'.byAccess = o.byAccess ∧ o'.isDense = o.isDense

theorem SameKind.refl (o : Order) : o.SameKind o := ⟨rfl, rfl⟩

/-- Clearing keeps the kind of order. -/
theorem cleared_sameKind (o : Order) : o.SameKind o.cleared := by
  cases o <;> exact ⟨rfl, rfl⟩

/-- A cleared order has nothing to traverse. -/
theorem lists_cleared (o : Order) : o.cleared.Lists 0 [] := by
  cases o with
  | dense => rfl
  | linked b t => exact ⟨rfl, Thread.lists_empty, fun i hi => nomatch hi⟩

/-- The order of a container that is made: dense, or linked by insertion or by use. -/
inductive Fresh : Order → Prop where
  | dense : Fresh .dense
  | linked (byAccess : Bool) : Fresh (.ofMode byAccess)

/-- A new order has nothing to traverse. -/
theorem Fresh.lists {order : Order} (h : order.Fresh) : order.Lists 0 [] := by
  cases h with
  | dense => exact lists_cleared .dense
  | linked byAccess => exact lists_cleared (.ofMode byAccess)

namespace Lists

variable {o : Order} {n i : Nat} {is js : List Nat}

/-- The traversal visits every index below the number of entries once. -/
theorem perm (h : o.Lists n is) : is.Perm (List.range n) := by
  cases o with
  | dense => exact .of_eq h
  | linked b t =>
      obtain ⟨hsize, hl, hall⟩ := h
      refine (List.perm_ext_iff_of_nodup hl.ring.nodup List.nodup_range).mpr fun i => ?_
      rw [List.mem_range]
      exact ⟨fun hi => hsize ▸ hl.bound i hi, hall i⟩

/-- A dense order traverses the indices as they are. -/
theorem eq_range (h : o.Lists n is) (hdense : o.isDense = true) : is = List.range n := by
  cases o with
  | dense => exact h
  | linked byAccess t => cases hdense

theorem nodup (h : o.Lists n is) : is.Nodup := h.perm.nodup_iff.mpr List.nodup_range

theorem mem_iff (h : o.Lists n is) : i ∈ is ↔ i < n := by rw [h.perm.mem_iff, List.mem_range]

theorem length_eq (h : o.Lists n is) : is.length = n := by rw [h.perm.length_eq, List.length_range]

/-! ## Traversing -/

theorem first_eq (h : o.Lists n is) : o.first n = is.head? := by
  cases o with
  | dense =>
      rw [show is = List.range n from h, first]
      cases n with
      | zero => rfl
      | succ n => rw [List.range_succ_eq_map]; rfl
  | linked b t => exact h.2.1.first_eq

theorem last_eq (h : o.Lists n is) : o.last n = is.getLast? := by
  cases o with
  | dense =>
      rw [show is = List.range n from h, last]
      cases n with
      | zero => rfl
      | succ n => rw [List.range_succ, List.getLast?_concat]; rfl
  | linked b t => exact h.2.1.last_eq

/-- After an index comes the one that is behind it in the traversal. -/
theorem next_eq (h : o.Lists n (is ++ i :: js)) : o.next i n = .ok js.head? := by
  cases o with
  | dense =>
      obtain ⟨-, hi, rfl⟩ := range_split (show _ = List.range n from h).symm
      rw [next]
      by_cases hlt : i + 1 < n
      · obtain ⟨m, hm⟩ : ∃ m, n - (i + 1) = m + 1 := ⟨n - (i + 1) - 1, by omega⟩
        rw [if_pos hlt, hm, List.range'_succ]
        rfl
      · rw [if_neg hlt, show n - (i + 1) = 0 by omega]
        rfl
  | linked b t =>
      obtain ⟨hsize, hl, -⟩ := h
      obtain ⟨m, hm, hsucc, -⟩ := Thread.node_eq (hl.bound i (by simp))
      rw [next, hm, Checked.ok_bind, hsucc, hl.ring.succ_eq]
      rfl

/-- Before an index comes the one that is in front of it. -/
theorem prev_eq (h : o.Lists n (is ++ i :: js)) : o.prev i = .ok is.getLast? := by
  cases o with
  | dense =>
      obtain ⟨rfl, -, -⟩ := range_split (show _ = List.range n from h).symm
      rw [prev]
      cases i with
      | zero => rfl
      | succ i => rw [List.range_succ, List.getLast?_concat]; rfl
  | linked b t =>
      obtain ⟨hsize, hl, -⟩ := h
      obtain ⟨m, hm, -, hpred⟩ := Thread.node_eq (hl.bound i (by simp))
      rw [prev, hm, Checked.ok_bind, hpred, hl.ring.pred_eq]
      rfl

/-- Walking forward gives the traversal. -/
theorem forward_eq (h : o.Lists n is) : o.forward n = .ok is := by
  rw [forward, h.first_eq]
  refine walk_eq (fun bs a cs heq => ?_) (Nat.le_of_eq h.length_eq)
  exact (heq ▸ h).next_eq

/-- Walking backward gives it in reverse. -/
theorem backward_eq (h : o.Lists n is) : o.backward n = .ok is.reverse := by
  rw [backward, h.last_eq, ← List.head?_reverse]
  refine walk_eq (fun bs a cs heq => ?_) (by rw [List.length_reverse]; exact Nat.le_of_eq h.length_eq)
  have hsplit : is = cs.reverse ++ a :: bs.reverse := by
    rw [← List.reverse_reverse is, heq]
    simp
  have hprev : o.prev a = .ok cs.reverse.getLast? := (hsplit ▸ h : o.Lists n _).prev_eq
  rw [hprev, List.getLast?_reverse]

/-! ## Changing the order -/

/-- An entry was appended. -/
theorem push (h : o.Lists n is) (hn : n < maxLinked) :
    ∃ o', o.push = .ok o' ∧ o.SameKind o' ∧ o'.Lists (n + 1) (is ++ [n]) := by
  cases o with
  | dense =>
      refine ⟨.dense, rfl, .refl _, ?_⟩
      rw [show is = List.range n from h]
      exact List.range_succ.symm
  | linked b t =>
      obtain ⟨hsize, hl, hall⟩ := h
      obtain ⟨t', ht', hsize', hl'⟩ := hl.push (hsize ▸ hn)
      refine ⟨.linked b t', by rw [Order.push, ht']; rfl, ⟨rfl, rfl⟩, hsize ▸ hsize', hsize ▸ hl', ?_⟩
      intro i hi
      rcases Nat.lt_succ_iff_lt_or_eq.mp hi with hlt | rfl
      · exact List.mem_append_left _ (hall i hlt)
      · exact List.mem_append_right _ (List.mem_singleton_self i)

/-- A use moves an entry to the end, in the order of use. -/
theorem access (h : o.Lists n (is ++ i :: js)) :
    ∃ o', o.access i = .ok (o.byAccess && !js.isEmpty, o') ∧ o.SameKind o' ∧
      o'.Lists n (if o.byAccess then is ++ js ++ [i] else is ++ i :: js) := by
  cases o with
  | dense => exact ⟨.dense, rfl, .refl _, h⟩
  | linked b t =>
      obtain ⟨hsize, hl, hall⟩ := h
      rw [Order.access]
      cases b with
      | false => exact ⟨.linked false t, rfl, .refl _, hsize, hl, hall⟩
      | true =>
          cases js with
          | nil =>
              rw [if_neg (by rw [hl.last_eq_iff.mpr rfl]; simp)]
              exact ⟨.linked true t, rfl, .refl _, hsize, by simpa [byAccess] using hl,
                by simpa [byAccess] using hall⟩
          | cons k js =>
              rw [if_pos ⟨rfl, fun heq => List.cons_ne_nil k js (hl.last_eq_iff.mp heq)⟩]
              obtain ⟨t', ht', hsize', hl'⟩ := hl.relinkLast
              obtain ⟨t₁, h₁, ht'⟩ := Checked.bind_eq_ok ht'
              have hperm : (is ++ (k :: js) ++ [i]).Perm (is ++ i :: k :: js) :=
                (List.perm_append_singleton i _).trans List.perm_middle.symm
              refine ⟨.linked true t', ?_, ⟨rfl, rfl⟩, hsize'.trans hsize, hl', fun m hm => ?_⟩
              · rw [h₁, Checked.ok_bind, ht']
                rfl
              · exact hperm.mem_iff.mpr (hall m hm)

/-- A removal takes an entry out and renames the last index; what was behind it closes up. -/
theorem erase (h : o.Lists n (is ++ i :: js)) :
    ∃ o', o.erase i (n - 1) = .ok o' ∧ o.SameKind o' ∧
      o'.Lists (n - 1) ((is ++ closeUp o.isDense js).map (reindex i (n - 1))) := by
  cases o with
  | dense => exact ⟨.dense, rfl, .refl _, map_reindex_range (show _ = List.range n from h).symm⟩
  | linked b t =>
      obtain ⟨rfl, hl, hall⟩ := h
      have hi : i < t.nodes.size := hl.bound i (by simp)
      obtain ⟨t', ht', hsize', hl'⟩ := hl.erase (hall _ (by omega))
      exact ⟨.linked b t', by rw [Order.erase, ht']; rfl, ⟨rfl, rfl⟩, hsize', hl', mem_map_reindex hall⟩

/-- Where a traversal goes on after a removal. -/
theorem resume_eq (h : o.Lists n (is ++ i :: js)) :
    o.resume js.head? i (n - 1) = (closeUp o.isDense js).head?.map (reindex i (n - 1)) := by
  cases o with
  | dense =>
      obtain ⟨-, hi, rfl⟩ := range_split (show _ = List.range n from h).symm
      rw [resume]
      show _ = (lastFirst _).head?.map _
      by_cases hlast : i = n - 1
      · rw [if_pos hlast, show n - (i + 1) = 0 by omega]
        rfl
      · obtain ⟨m, hm⟩ : ∃ m, n - (i + 1) = m + 1 := ⟨n - (i + 1) - 1, by omega⟩
        rw [if_neg hlast, hm, List.range'_concat, Nat.one_mul, lastFirst_concat,
          show i + 1 + m = n - 1 by omega]
        show _ = some (reindex i (n - 1) (n - 1))
        rw [reindex_last]
  | linked b t =>
      rw [resume]
      show _ = js.head?.map _
      cases js with
      | nil => rfl
      | cons k js =>
          show (if some k = some (n - 1) then some i else some k) = some (reindex i (n - 1) k)
          by_cases hk : k = n - 1
          · rw [if_pos (congrArg some hk), hk, reindex_last]
          · rw [if_neg fun heq => hk (Option.some.inj heq), reindex_of_ne hk]

end Lists

end Order

end DenseHash
