import DenseHash.Limits
import DenseHash.Order.Thread
import DenseHash.Proofs.Outcome
import DenseHash.Proofs.Ring

/-!
# Threads list entries

The links of a thread make a ring. `Thread.Lists t is` says that the thread `t` visits the indices `is`; it does
not say that these are all indices there are, because in the middle of an operation one of them may be off the
thread.

Each operation has one lemma that says what it does to the list of indices: `unlink` takes one out, `linkLast`
and `push` put one at the end, and `erase` takes one out and renames the last index to it.
-/

namespace DenseHash

/-- The index of an entry after the last one has taken the place of the one at `i`. -/
def reindex (i last k : Nat) : Nat := if k = last then i else k

/-- The last index gets the name that became free. -/
theorem reindex_last (i last : Nat) : reindex i last last = i := if_pos rfl

/-- The others keep their names. -/
theorem reindex_of_ne {i last k : Nat} (h : k ≠ last) : reindex i last k = k := if_neg h

theorem map_reindex_of_not_mem {i last : Nat} {ks : List Nat} (h : last ∉ ks) :
    ks.map (reindex i last) = ks := by
  have hid : ∀ k ∈ ks, reindex i last k = id k := fun k hk =>
    reindex_of_ne fun heq => h (heq ▸ hk)
  rw [List.map_congr_left hid, List.map_id]

/-- Modifying what is known to be at an index. -/
theorem modify_eq_set {α : Type} {as : Array α} {i : Nat} {a : α} (h : as[i]? = some a) (g : α → α) :
    as.modify i g = as.setIfInBounds i (g a) := by
  have hi : i < as.size := (Array.getElem?_eq_some_iff.mp h).1
  refine Array.ext_getElem? fun k => ?_
  rw [Array.getElem?_modify, Array.getElem?_setIfInBounds]
  by_cases hik : i = k
  · rw [if_pos hik, if_pos hik, if_pos hi, ← hik, h]
    rfl
  · rw [if_neg hik, if_neg hik]

namespace Thread

/-- The index after a place, where `none` is the place of the thread itself. -/
def succ (t : Thread) : Option Nat → Option Nat
  | none => t.first.index?
  | some i => t.nodes[i]?.bind fun n => n.succ.index?

/-- The index before a place. -/
def pred (t : Thread) : Option Nat → Option Nat
  | none => t.last.index?
  | some i => t.nodes[i]?.bind fun n => n.pred.index?

/-- The thread visits these indices, forward and backward. -/
structure Lists (t : Thread) (is : List Nat) : Prop where
  small : t.nodes.size ≤ maxLinked
  bound : ∀ i ∈ is, i < t.nodes.size
  ring : Ring t.succ t.pred is

theorem lists_empty : empty.Lists [] where
  small := Nat.zero_le _
  bound := fun _ hi => nomatch hi
  ring := .empty rfl rfl

/-! ## Reading and writing links -/

variable {t : Thread}

/-- The neighbours of an entry, as links and as indices. -/
theorem node_eq {i : Nat} (hi : i < t.nodes.size) :
    ∃ n, t.node i = .ok n ∧ n.succ.index? = t.succ (some i) ∧ n.pred.index? = t.pred (some i) := by
  have hn : t.nodes[i]? = some t.nodes[i] := Array.getElem?_eq_getElem hi
  refine ⟨t.nodes[i], ?_, ?_, ?_⟩
  · rw [node, hn]
  · rw [succ, hn]
    rfl
  · rw [pred, hn]
    rfl

/-- The thread with other neighbours at an index. -/
def setNode (t : Thread) (i : Nat) (n : Neighbours) : Thread := { t with nodes := t.nodes.setIfInBounds i n }

theorem setNode_size (i : Nat) (n : Neighbours) : (t.setNode i n).nodes.size = t.nodes.size :=
  Array.size_setIfInBounds

/-- Writing links changes what comes after their index. -/
theorem setNode_succ {i : Nat} (hi : i < t.nodes.size) (n : Neighbours) :
    (t.setNode i n).succ = Function.update t.succ (some i) n.succ.index? := by
  funext a
  cases a with
  | none => rw [Function.update_of_ne (Option.some_ne_none i).symm]; rfl
  | some k =>
      rw [succ, setNode, Array.getElem?_setIfInBounds]
      by_cases hik : i = k
      · rw [if_pos hik, if_pos hi, ← hik, Function.update_self]
        rfl
      · rw [if_neg hik, Function.update_of_ne fun heq => hik (Option.some.inj heq).symm]
        rfl

/-- Writing links changes what comes before their index. -/
theorem setNode_pred {i : Nat} (hi : i < t.nodes.size) (n : Neighbours) :
    (t.setNode i n).pred = Function.update t.pred (some i) n.pred.index? := by
  funext a
  cases a with
  | none => rw [Function.update_of_ne (Option.some_ne_none i).symm]; rfl
  | some k =>
      rw [pred, setNode, Array.getElem?_setIfInBounds]
      by_cases hik : i = k
      · rw [if_pos hik, if_pos hi, ← hik, Function.update_self]
        rfl
      · rw [if_neg hik, Function.update_of_ne fun heq => hik (Option.some.inj heq).symm]
        rfl

/-- Writing what comes after a place that is there succeeds, and writes nothing else. -/
theorem setSucc_eq (p s : OrderLink) (hp : ∀ i, p.index? = some i → i < t.nodes.size) :
    ∃ t', t.setSucc p s = .ok t' ∧ t'.nodes.size = t.nodes.size ∧
      t'.succ = Function.update t.succ p.index? s.index? ∧ t'.pred = t.pred := by
  cases hpi : p.index? with
  | none =>
      refine ⟨{ t with first := s }, by rw [setSucc, hpi], rfl, ?_, rfl⟩
      funext a
      cases a with
      | none => rw [Function.update_self]; rfl
      | some j => rw [Function.update_of_ne (Option.some_ne_none j)]; rfl
  | some i =>
      have hi : i < t.nodes.size := hp i hpi
      have hget : t.nodes[i]? = some t.nodes[i] := Array.getElem?_eq_getElem hi
      refine ⟨t.setNode i { t.nodes[i] with succ := s }, ?_, setNode_size i _, setNode_succ hi _, ?_⟩
      · simp only [setSucc, hpi, if_pos hi, modify_eq_set hget]
        rfl
      · rw [setNode_pred hi]
        show Function.update t.pred (some i) t.nodes[i].pred.index? = _
        rw [show t.nodes[i].pred.index? = t.pred (some i) by rw [pred, hget]; rfl, Function.update_eq_self]

/-- Writing what comes before a place that is there succeeds, and writes nothing else. -/
theorem setPred_eq (s p : OrderLink) (hs : ∀ i, s.index? = some i → i < t.nodes.size) :
    ∃ t', t.setPred s p = .ok t' ∧ t'.nodes.size = t.nodes.size ∧
      t'.succ = t.succ ∧ t'.pred = Function.update t.pred s.index? p.index? := by
  cases hsi : s.index? with
  | none =>
      refine ⟨{ t with last := p }, by rw [setPred, hsi], rfl, rfl, ?_⟩
      funext a
      cases a with
      | none => rw [Function.update_self]; rfl
      | some j => rw [Function.update_of_ne (Option.some_ne_none j)]; rfl
  | some i =>
      have hi : i < t.nodes.size := hs i hsi
      have hget : t.nodes[i]? = some t.nodes[i] := Array.getElem?_eq_getElem hi
      refine ⟨t.setNode i { t.nodes[i] with pred := p }, ?_, setNode_size i _, ?_, setNode_pred hi _⟩
      · simp only [setPred, hsi, if_pos hi, modify_eq_set hget]
        rfl
      · rw [setNode_succ hi]
        show Function.update t.succ (some i) t.nodes[i].succ.index? = _
        rw [show t.nodes[i].succ.index? = t.succ (some i) by rw [succ, hget]; rfl, Function.update_eq_self]

/-- Both neighbours of an entry get new links, which lead where `unlink` and `relink` say. -/
theorem setBoth_eq {n : Neighbours} (s p : OrderLink)
    (hp : ∀ k, n.pred.index? = some k → k < t.nodes.size)
    (hs : ∀ k, n.succ.index? = some k → k < t.nodes.size) :
    ∃ t', (t.setSucc n.pred s >>= fun t => t.setPred n.succ p) = .ok t' ∧
      t'.nodes.size = t.nodes.size ∧
      t'.succ = Function.update t.succ n.pred.index? s.index? ∧
      t'.pred = Function.update t.pred n.succ.index? p.index? := by
  obtain ⟨t1, h1, hsize1, hsucc1, hpred1⟩ := setSucc_eq (t := t) n.pred s hp
  obtain ⟨t2, h2, hsize2, hsucc2, hpred2⟩ := setPred_eq (t := t1) n.succ p (hsize1 ▸ hs)
  refine ⟨t2, ?_, hsize2.trans hsize1, hsucc2.trans hsucc1, hpred1 ▸ hpred2⟩
  rw [h1, Checked.ok_bind, h2]

/-- Linking an index at the end succeeds, and makes it the last one. -/
theorem linkLast_eq {i : Nat} (hi : i < t.nodes.size) (hsmall : t.nodes.size ≤ maxLinked)
    (hlast : ∀ k, t.last.index? = some k → k < t.nodes.size) :
    ∃ t', t.linkLast i = .ok t' ∧ t'.nodes.size = t.nodes.size ∧
      t'.succ = Function.update (Function.update t.succ (some i) none) (t.pred none) (some i) ∧
      t'.pred = Function.update (Function.update t.pred (some i) (t.pred none)) none (some i) := by
  have hlink : (Link.ofIndex i : OrderLink).index? = some i :=
    Link.index?_ofIndex (show i < maxLinked by omega)
  -- the entry gets the links of a last one, then the old last one and the thread lead to it
  obtain ⟨t1, h1, hsize1, hsucc1, hpred1⟩ :=
    setSucc_eq (t := t.setNode i ⟨t.last, .none⟩) t.last (.ofIndex i) ((setNode_size i _).symm ▸ hlast)
  rw [hlink, setNode_succ hi] at hsucc1
  rw [setNode_pred hi] at hpred1
  obtain ⟨n, hn, -⟩ := node_eq hi
  refine ⟨{ t1 with last := .ofIndex i }, ?_, hsize1.trans (setNode_size i _), ?_, ?_⟩
  · rw [linkLast, hn, Checked.ok_bind]
    show ((t.setNode i ⟨t.last, .none⟩).setSucc t.last (.ofIndex i) >>= _) = _
    rw [h1]
    rfl
  · funext a
    have hsame : ({ t1 with last := .ofIndex i } : Thread).succ a = t1.succ a := by cases a <;> rfl
    rw [hsame, hsucc1]
    rfl
  · funext a
    cases a with
    | none => rw [Function.update_self]; exact hlink
    | some k => rw [Function.update_of_ne (Option.some_ne_none k)]; exact congrFun hpred1 (some k)

/-- The thread after the last entry has taken the index `i`, with its old links. -/
def pack (t : Thread) (i : Nat) : Thread := { t with nodes := removePacked t.nodes i }

theorem pack_size {i : Nat} (hi : i < t.nodes.size) : (t.pack i).nodes.size = t.nodes.size - 1 :=
  size_removePacked _ _ hi

/-- After packing, the last index has the name that became free. -/
theorem pack_getElem? {i k : Nat} (hi : i < t.nodes.size) (hk : k < t.nodes.size - 1) :
    (t.pack i).nodes[k]? = if k = i then t.nodes[t.nodes.size - 1]? else t.nodes[k]? := by
  show (removePacked t.nodes i)[k]? = _
  rw [getElem?_removePacked _ _ _ hi, if_pos hk]

namespace Lists

variable {is js : List Nat} {i : Nat}

theorem first_eq (h : t.Lists is) : t.first.index? = is.head? := h.ring.first_eq

theorem last_eq (h : t.Lists is) : t.last.index? = is.getLast? := h.ring.last_eq

/-- A link that leads to an index of the thread. -/
theorem lt_of_getLast? (h : t.Lists (is ++ js)) {k : Nat} (hk : is.getLast? = some k) :
    k < t.nodes.size := h.bound k (List.mem_append_left _ (List.mem_of_getLast? hk))

theorem lt_of_head? (h : t.Lists (is ++ i :: js)) {k : Nat} (hk : js.head? = some k) :
    k < t.nodes.size :=
  h.bound k (List.mem_append_right _ (List.mem_cons_of_mem i (List.mem_of_head? hk)))

/-- An index of a thread fits into a link. -/
theorem index?_ofIndex (h : t.Lists is) (hi : i < t.nodes.size) :
    (Link.ofIndex i : OrderLink).index? = some i :=
  Link.index?_ofIndex (show i < maxLinked from Nat.lt_of_lt_of_le hi h.small)

/-- An entry is taken off the thread. -/
theorem unlink (h : t.Lists (is ++ i :: js)) :
    ∃ t', t.unlink i = .ok t' ∧ t'.nodes.size = t.nodes.size ∧ t'.Lists (is ++ js) := by
  obtain ⟨n, hn, hsucc, hpred⟩ := node_eq (h.bound i (by simp))
  obtain ⟨t', ht', hsize, hsucc', hpred'⟩ := setBoth_eq (t := t) n.succ n.pred
    (fun k hk => h.lt_of_getLast? (h.ring.pred_eq ▸ hpred ▸ hk))
    (fun k hk => h.lt_of_head? (h.ring.succ_eq ▸ hsucc ▸ hk))
  refine ⟨t', ?_, hsize, ?_, fun k hk => ?_, ?_⟩
  · rw [Thread.unlink, hn, Checked.ok_bind, ht']
  · exact hsize ▸ h.small
  · have hsub : (is ++ js).Sublist (is ++ i :: js) := by simp
    exact hsize ▸ h.bound k (hsub.subset hk)
  · rw [hsucc', hpred', hsucc, hpred]
    exact h.ring.unlink

/-- An entry that is off the thread is put at its end. -/
theorem linkLast (h : t.Lists is) (hi : i < t.nodes.size) (hmem : i ∉ is) :
    ∃ t', t.linkLast i = .ok t' ∧ t'.nodes.size = t.nodes.size ∧ t'.Lists (is ++ [i]) := by
  obtain ⟨t', ht', hsize, hsucc', hpred'⟩ := linkLast_eq hi h.small fun k hk =>
    h.bound k (List.mem_of_getLast? (h.last_eq ▸ hk))
  refine ⟨t', ht', hsize, hsize ▸ h.small, fun k hk => ?_, ?_⟩
  · rcases List.mem_append.mp hk with hk | hk
    · exact hsize ▸ h.bound k hk
    · exact hsize ▸ List.mem_singleton.mp hk ▸ hi
  · rw [hsucc', hpred']
    exact h.ring.linkLast hmem

/-- The thread ends at an index if none is behind it. -/
theorem last_eq_iff (h : t.Lists (is ++ i :: js)) : t.last = .ofIndex i ↔ js = [] := by
  have hi : i < t.nodes.size := h.bound i (by simp)
  have hlt : i < maxLinked := Nat.lt_of_lt_of_le hi h.small
  rw [← Link.index?_eq_some_iff hlt, h.last_eq]
  rcases List.eq_nil_or_concat' js with rfl | ⟨init, k, rfl⟩
  · simp
  · have hki : k ≠ i := fun heq => by
      have := (List.nodup_middle.mp h.ring.nodup).notMem
      exact this (by simp [heq])
    rw [← List.cons_append, ← List.append_assoc, List.getLast?_concat]
    simp [hki]

/-- An index is moved to the end. -/
theorem relinkLast (h : t.Lists (is ++ i :: js)) :
    ∃ t', (t.unlink i >>= fun t => t.linkLast i) = .ok t' ∧ t'.nodes.size = t.nodes.size ∧
      t'.Lists (is ++ js ++ [i]) := by
  obtain ⟨t₁, h₁, hsize₁, hlists₁⟩ := h.unlink
  have hnot : i ∉ is ++ js := (List.nodup_middle.mp h.ring.nodup).notMem
  obtain ⟨t', h', hsize', hlists'⟩ := hlists₁.linkLast (hsize₁ ▸ h.bound i (by simp)) hnot
  exact ⟨t', by rw [h₁, Checked.ok_bind, h'], hsize'.trans hsize₁, hlists'⟩

/-- The next index is put at the end. -/
theorem push (h : t.Lists is) (hsize : t.nodes.size < maxLinked) :
    ∃ t', t.push = .ok t' ∧ t'.nodes.size = t.nodes.size + 1 ∧
      t'.Lists (is ++ [t.nodes.size]) := by
  let t0 : Thread := { t with nodes := t.nodes.push ⟨.none, .none⟩ }
  have hsize0 : t0.nodes.size = t.nodes.size + 1 := Array.size_push _
  have hget : ∀ i ∈ is, t0.nodes[i]? = t.nodes[i]? := fun i hi => by
    rw [Array.getElem?_push, if_neg (Nat.ne_of_lt (h.bound i hi))]
  have h0 : t0.Lists is := by
    refine ⟨by omega, fun i hi => by have := h.bound i hi; omega, h.ring.congr ?_ ?_⟩
    all_goals
      intro a ha
      rcases List.mem_cons.mp ha with rfl | ha
      · rfl
      · obtain ⟨i, hi, rfl⟩ := List.mem_map.mp ha
        simp only [succ, pred, hget i hi]
  obtain ⟨t', ht', hsize', hl⟩ := h0.linkLast (i := t.nodes.size) (by omega)
    fun hm => Nat.lt_irrefl _ (h.bound _ hm)
  exact ⟨t', ht', hsize'.trans hsize0, hl⟩

/-! ## Erasing -/

/-- Places behind which nothing moves keep their neighbours when the last index takes the place of `i`. -/
theorem pack_place (hi : i < t.nodes.size) (his : i ∉ is) (hlt : ∀ k ∈ is, k < t.nodes.size - 1) {a : Option Nat}
    (ha : a ∈ none :: is.map some) : (t.pack i).succ a = t.succ a ∧ (t.pack i).pred a = t.pred a := by
  rcases List.mem_cons.mp ha with rfl | ha
  · exact ⟨rfl, rfl⟩
  · obtain ⟨k, hk, rfl⟩ := List.mem_map.mp ha
    have hki : k ≠ i := fun heq => his (heq ▸ hk)
    simp only [succ, pred, pack_getElem? hi (hlt k hk), if_neg hki, and_self]

/-- The last index goes, and it is not on the thread. -/
theorem pack (h : t.Lists is) (hi : i < t.nodes.size) (his : i ∉ is) (hlt : ∀ k ∈ is, k < t.nodes.size - 1) :
    (t.pack i).Lists is where
  small := by
    have := h.small
    rw [pack_size hi]
    omega
  bound := fun k hk => by
    rw [pack_size hi]
    exact hlt k hk
  ring := h.ring.congr (fun _ ha => (pack_place hi his hlt ha).1) fun _ ha => (pack_place hi his hlt ha).2

/-- The last index takes the place of one that is off the thread, and its neighbours are told. -/
theorem relink {as bs : List Nat} {last : Nat} (h : t.Lists (as ++ last :: bs)) (hlast : t.nodes.size - 1 = last)
    (hi : i < last) (hnot : i ∉ as ++ last :: bs) :
    ∃ t', (t.pack i).relink i = .ok t' ∧ t'.nodes.size = last ∧ t'.Lists (as ++ i :: bs) := by
  have hit : i < t.nodes.size := by omega
  have hsize : (t.pack i).nodes.size = last := (pack_size hit).trans hlast
  have hnl : last ∉ as ++ bs := (List.nodup_middle.mp h.ring.nodup).notMem
  have hsub : ∀ k ∈ as ++ bs, k ∈ as ++ last :: bs := fun k hk =>
    List.perm_middle.mem_iff.mpr (List.mem_cons_of_mem last hk)
  have hni : i ∉ as ++ bs := fun hm => hnot (hsub i hm)
  have hlt : ∀ k ∈ as ++ bs, k < last := fun k hk => by
    have hkl : k ≠ last := fun heq => hnl (heq ▸ hk)
    have := h.bound k (hsub k hk)
    omega
  have hkeep {a : Option Nat} (ha : a ∈ none :: (as ++ bs).map some) :=
    pack_place hit hni (fun k hk => hlast.symm ▸ hlt k hk) ha
  -- packing brings the links of `last` to `i` unchanged
  have hmoved : (t.pack i).succ (some i) = t.succ (some last) ∧ (t.pack i).pred (some i) = t.pred (some last) := by
    simp only [succ, pred, pack_getElem? hit (hlast.symm ▸ hi), hlast, if_true, and_self]
  obtain ⟨n, hn, hsucc, hpred⟩ := node_eq (t := t.pack i) (hsize ▸ hi)
  rw [hmoved.1, h.ring.succ_eq] at hsucc
  rw [hmoved.2, h.ring.pred_eq] at hpred
  -- the two neighbours still name `last`, and each gets one write
  obtain ⟨t', ht', hsize', hsucc', hpred'⟩ := setBoth_eq (t := t.pack i) (n := n) (.ofIndex i) (.ofIndex i)
    (fun k hk => hsize ▸ hlt k (List.mem_append_left _ (List.mem_of_getLast? (hpred ▸ hk))))
    (fun k hk => hsize ▸ hlt k (List.mem_append_right _ (List.mem_of_head? (hsucc ▸ hk))))
  rw [hpred, h.index?_ofIndex hit] at hsucc'
  rw [hsucc, h.index?_ofIndex hit] at hpred'
  refine ⟨t', ?_, hsize'.trans hsize, ?_, fun k hk => ?_, ?_⟩
  · rw [Thread.relink, hn, Checked.ok_bind, ht']
  · have := h.small
    omega
  · rw [hsize', hsize]
    rcases List.mem_cons.mp (List.perm_middle.mem_iff.mp hk) with rfl | hk
    · exact hi
    · exact hlt k hk
  · have hap : (some i : Option Nat) ≠ as.getLast? := fun heq =>
      hni (List.mem_append_left _ (List.mem_of_getLast? heq.symm))
    have hbh : (some i : Option Nat) ≠ bs.head? := fun heq =>
      hni (List.mem_append_right _ (List.mem_of_head? heq.symm))
    refine h.ring.rename (fun hm => hni hm) ?_ ?_ ?_ ?_ ?_ ?_
    · rw [h.ring.pred_eq, hsucc', Function.update_self]
    · rw [hsucc', Function.update_of_ne hap, hmoved.1]
    · intro a ha hat
      rw [h.ring.pred_eq] at hat
      rw [hsucc', Function.update_of_ne hat, (hkeep ha).1]
    · rw [h.ring.succ_eq, hpred', Function.update_self]
    · rw [hpred', Function.update_of_ne hbh, hmoved.2]
    · intro a ha hat
      rw [h.ring.succ_eq] at hat
      rw [hpred', Function.update_of_ne hat, (hkeep ha).2]

/-- An entry is taken out, and the last index is renamed to the one that became free. -/
theorem erase (h : t.Lists (is ++ i :: js)) (hall : t.nodes.size - 1 ∈ is ++ i :: js) :
    ∃ t', t.erase i (t.nodes.size - 1) = .ok t' ∧ t'.nodes.size = t.nodes.size - 1 ∧
      t'.Lists ((is ++ js).map (reindex i (t.nodes.size - 1))) := by
  have hi : i < t.nodes.size := h.bound i (by simp)
  obtain ⟨t', ht', hsize, h'⟩ := h.unlink
  have hnot : i ∉ is ++ js := (List.nodup_middle.mp h.ring.nodup).notMem
  rw [Thread.erase, ht', Checked.ok_bind]
  generalize hlast : t.nodes.size - 1 = last at *
  by_cases hil : i = last
  · -- the last index itself goes, and no other one moves
    have hlt : ∀ k ∈ is ++ js, k < t'.nodes.size - 1 := fun k hk => by
      have hki : k ≠ i := fun heq => hnot (heq ▸ hk)
      have := h'.bound k hk
      omega
    rw [if_pos hil, map_reindex_of_not_mem (hil ▸ hnot)]
    exact ⟨t'.pack i, rfl, by rw [pack_size (hsize ▸ hi), hsize, hlast], h'.pack (hsize ▸ hi) hnot hlt⟩
  · -- the last index is on the thread and is renamed to `i`
    have hmem : last ∈ is ++ js :=
      (List.mem_cons.mp (List.perm_middle.mem_iff.mp hall)).resolve_left (Ne.symm hil)
    obtain ⟨as, bs, hab⟩ := List.append_of_mem hmem
    rw [hab] at h' hnot ⊢
    have hnl := (List.nodup_middle.mp h'.ring.nodup).notMem
    rw [if_neg hil, List.map_append, List.map_cons, reindex_last,
      map_reindex_of_not_mem fun hm => hnl (List.mem_append_left _ hm),
      map_reindex_of_not_mem fun hm => hnl (List.mem_append_right _ hm)]
    exact h'.relink (hsize ▸ hlast) (by omega) hnot

end Lists

end Thread

end DenseHash
