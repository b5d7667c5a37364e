import DenseHash.Fallback.Basic
import DenseHash.Proofs.Outcome
import DenseHash.Proofs.Ring

/-!
# The order of a fallback

The links of the nodes make a ring, as those of a thread do. Here nothing is renamed: an entry keeps its slot
for good, so unlinking and linking at the end are all that happens.

What a node holds besides its links is its *content*. `Fallback.Alike f f'` says that two fallbacks have the
same contents, filed in the same way.
-/

namespace DenseHash

namespace Fallback

variable [Backing] {K V : Type} {f : Fallback K V} {s : Backing.Handle}

/-! ## Contents and links -/

/-- What the node in a slot holds besides its links. -/
def content (f : Fallback K V) (slot : Backing.Handle) : Option (UInt64 × K × V) :=
  (f.node? slot).map fun n => (n.hash, n.key, n.value)

/-- The slot after a place, where `none` is the place of the order itself. -/
def succ (f : Fallback K V) : Option Backing.Handle → Option Backing.Handle
  | none => f.first
  | some s => (f.node? s).bind fun n => n.next

/-- The slot before a place. -/
def pred (f : Fallback K V) : Option Backing.Handle → Option Backing.Handle
  | none => f.last
  | some s => (f.node? s).bind fun n => n.prev

/-- The content of a node that is there. -/
theorem content_of_node {n : Node K V} (h : f.node s = .ok n) : f.content s = some (n.hash, n.key, n.value) := by
  rw [node] at h
  cases hn : f.node? s with
  | none =>
      rw [hn] at h
      exact nomatch h
  | some n' =>
      rw [hn] at h
      obtain rfl : n' = n := Except.ok.inj h
      rw [content, hn]
      rfl

/-- The node behind a content. -/
theorem node_eq {hash : UInt64} {key : K} {value : V} (h : f.content s = some (hash, key, value)) :
    ∃ n, f.node s = .ok n ∧ f.node? s = some n ∧ n.hash = hash ∧ n.key = key ∧ n.value = value ∧
      n.next = f.succ (some s) ∧ n.prev = f.pred (some s) := by
  obtain ⟨n, hn, hc⟩ := Option.map_eq_some_iff.mp h
  injection hc with h1 h2
  injection h2 with h2 h3
  refine ⟨n, ?_, hn, h1, h2, h3, ?_, ?_⟩
  · rw [node, hn]
  · rw [succ, hn]
    rfl
  · rw [pred, hn]
    rfl

/-- A node that is written is read in its slot only. -/
theorem setNode_node? (n : Node K V) (k : Backing.Handle) :
    (f.setNode s n).node? k = if s = k then some n else f.node? k := Backing.node?_fill f.nodes s k n

/-- Writing a node changes the content of its slot. -/
theorem setNode_content (n : Node K V) :
    (f.setNode s n).content = Function.update f.content s (some (n.hash, n.key, n.value)) := by
  funext k
  rw [content, setNode_node?]
  by_cases hsk : s = k
  · rw [if_pos hsk, ← hsk, Function.update_self]
    rfl
  · rw [if_neg hsk, Function.update_of_ne (Ne.symm hsk)]
    rfl

/-- Writing a node changes what comes after its slot. -/
theorem setNode_succ (n : Node K V) : (f.setNode s n).succ = Function.update f.succ (some s) n.next := by
  funext a
  cases a with
  | none => rw [Function.update_of_ne (Option.some_ne_none s).symm]; rfl
  | some k =>
      rw [succ, setNode_node?]
      by_cases hsk : s = k
      · rw [if_pos hsk, ← hsk, Function.update_self]
        rfl
      · rw [if_neg hsk, Function.update_of_ne fun heq => hsk (Option.some.inj heq).symm]
        rfl

/-- Writing a node changes what comes before its slot. -/
theorem setNode_pred (n : Node K V) : (f.setNode s n).pred = Function.update f.pred (some s) n.prev := by
  funext a
  cases a with
  | none => rw [Function.update_of_ne (Option.some_ne_none s).symm]; rfl
  | some k =>
      rw [pred, setNode_node?]
      by_cases hsk : s = k
      · rw [if_pos hsk, ← hsk, Function.update_self]
        rfl
      · rw [if_neg hsk, Function.update_of_ne fun heq => hsk (Option.some.inj heq).symm]
        rfl

/-- Overwriting a node changes nothing about the size. -/
theorem setNode_size (n : Node K V) (h : (f.content s).isSome) : (f.setNode s n).size = f.size := by
  have hsome : (f.node? s).isSome := by simpa [content] using h
  exact (Backing.occupied_fill f.nodes s n).trans (if_pos hsome)

/-- The same contents, filed in the same way. -/
structure Alike (f f' : Fallback K V) : Prop where
  content : f'.content = f.content
  size : f'.size = f.size
  index : f'.index = f.index
  supply : f'.supply = f.supply
  draws : f'.draws = f.draws
  byAccess : f'.byAccess = f.byAccess

theorem Alike.refl (f : Fallback K V) : f.Alike f := ⟨rfl, rfl, rfl, rfl, rfl, rfl⟩

theorem Alike.trans {f' f'' : Fallback K V} (h : f.Alike f') (h' : f'.Alike f'') : f.Alike f'' :=
  ⟨h'.content.trans h.content, h'.size.trans h.size, h'.index.trans h.index, h'.supply.trans h.supply,
    h'.draws.trans h.draws, h'.byAccess.trans h.byAccess⟩

/-- A node with other links is as good. -/
theorem alike_setNode {n n' : Node K V} (hn : f.node? s = some n) (hhash : n'.hash = n.hash)
    (hkey : n'.key = n.key) (hvalue : n'.value = n.value) : f.Alike (f.setNode s n') := by
  have hc : f.content s = some (n.hash, n.key, n.value) := by rw [content, hn]; rfl
  refine ⟨?_, setNode_size n' (by rw [hc]; rfl), rfl, rfl, rfl, rfl⟩
  rw [setNode_content, hhash, hkey, hvalue, ← hc, Function.update_eq_self]

/-! ## Writing links -/

/-- Writing what comes after a place that is there succeeds, and writes nothing else. -/
theorem setNext_eq {p : Option Backing.Handle} (s : Option Backing.Handle)
    (hp : ∀ k, p = some k → (f.content k).isSome) :
    ∃ f', f.setNext p s = .ok f' ∧ f.Alike f' ∧ f'.succ = Function.update f.succ p s ∧
      f'.pred = f.pred := by
  cases p with
  | none =>
      refine ⟨{ f with first := s }, rfl, ⟨rfl, rfl, rfl, rfl, rfl, rfl⟩, ?_, rfl⟩
      funext a
      cases a with
      | none => rw [Function.update_self]; rfl
      | some k => rw [Function.update_of_ne (Option.some_ne_none k)]; rfl
  | some k =>
      obtain ⟨⟨hash, key, value⟩, hc⟩ := Option.isSome_iff_exists.mp (hp k rfl)
      obtain ⟨n, hn, hget, -, -, -, -, hprev⟩ := node_eq hc
      refine ⟨f.setNode k { n with next := s }, ?_, alike_setNode hget rfl rfl rfl, setNode_succ _, ?_⟩
      · rw [setNext, hn]
        rfl
      · rw [setNode_pred]
        show Function.update f.pred (some k) n.prev = _
        rw [hprev, Function.update_eq_self]

/-- Writing what comes before a place that is there succeeds, and writes nothing else. -/
theorem setPrev_eq {s : Option Backing.Handle} (p : Option Backing.Handle)
    (hs : ∀ k, s = some k → (f.content k).isSome) :
    ∃ f', f.setPrev s p = .ok f' ∧ f.Alike f' ∧ f'.succ = f.succ ∧
      f'.pred = Function.update f.pred s p := by
  cases s with
  | none =>
      refine ⟨{ f with last := p }, rfl, ⟨rfl, rfl, rfl, rfl, rfl, rfl⟩, rfl, ?_⟩
      funext a
      cases a with
      | none => rw [Function.update_self]; rfl
      | some k => rw [Function.update_of_ne (Option.some_ne_none k)]; rfl
  | some k =>
      obtain ⟨⟨hash, key, value⟩, hc⟩ := Option.isSome_iff_exists.mp (hs k rfl)
      obtain ⟨n, hn, hget, -, -, -, hnext, -⟩ := node_eq hc
      refine ⟨f.setNode k { n with prev := p }, ?_, alike_setNode hget rfl rfl rfl, ?_, setNode_pred _⟩
      · rw [setPrev, hn]
        rfl
      · rw [setNode_succ]
        show Function.update f.succ (some k) n.next = _
        rw [hnext, Function.update_eq_self]

/-! ## The order as a ring -/

/-- The order visits these slots, which all hold something. -/
structure Lists (f : Fallback K V) (ss : List Backing.Handle) : Prop where
  held : ∀ k ∈ ss, (f.content k).isSome
  ring : Ring f.succ f.pred ss

namespace Lists

variable {as bs ss : List Backing.Handle}

theorem node_eq (h : f.Lists (as ++ s :: bs)) :
    ∃ n, f.node s = .ok n ∧ f.node? s = some n ∧ f.content s = some (n.hash, n.key, n.value) ∧
      n.next = bs.head? ∧ n.prev = as.getLast? := by
  obtain ⟨⟨hash, key, value⟩, hc⟩ := Option.isSome_iff_exists.mp (h.held s (by simp))
  obtain ⟨n, hn, hget, rfl, rfl, rfl, hnext, hprev⟩ := Fallback.node_eq hc
  exact ⟨n, hn, hget, hc, hnext.trans h.ring.succ_eq, hprev.trans h.ring.pred_eq⟩

theorem next_eq (h : f.Lists (as ++ s :: bs)) : f.next s = .ok bs.head? := by
  obtain ⟨n, hn, -, -, hnext, -⟩ := h.node_eq
  rw [next, hn, Checked.ok_bind, hnext]
  rfl

theorem prev_eq (h : f.Lists (as ++ s :: bs)) : f.prev s = .ok as.getLast? := by
  obtain ⟨n, hn, -, -, -, hprev⟩ := h.node_eq
  rw [prev, hn, Checked.ok_bind, hprev]
  rfl

theorem first_eq (h : f.Lists ss) : f.first = ss.head? := h.ring.first_eq

theorem last_eq (h : f.Lists ss) : f.last = ss.getLast? := h.ring.last_eq

/-- Walking the order visits its slots, if it takes enough steps. -/
theorem slots_eq (h : f.Lists ss) (hsize : ss.length ≤ f.size) : f.slots = .ok ss := by
  rw [slots, h.first_eq]
  exact walk_eq (fun cs k ds heq => (heq ▸ h).next_eq) hsize

/-- Nodes that are not visited do not count. -/
theorem of_nodes {f' : Fallback K V} (h : f.Lists ss) (hfirst : f'.first = f.first) (hlast : f'.last = f.last)
    (hnodes : ∀ k ∈ ss, f'.node? k = f.node? k) : f'.Lists ss := by
  refine ⟨fun k hk => ?_, h.ring.congr (fun a ha => ?_) fun a ha => ?_⟩
  · rw [content, hnodes k hk]
    exact h.held k hk
  · rcases List.mem_cons.mp ha with rfl | ha
    · exact hfirst
    · obtain ⟨k, hk, rfl⟩ := List.mem_map.mp ha
      rw [succ, succ, hnodes k hk]
  · rcases List.mem_cons.mp ha with rfl | ha
    · exact hlast
    · obtain ⟨k, hk, rfl⟩ := List.mem_map.mp ha
      rw [pred, pred, hnodes k hk]

/-- A slot is taken out of the order. -/
theorem unlink (h : f.Lists (as ++ s :: bs)) :
    ∃ f', f.unlink s = .ok f' ∧ f.Alike f' ∧ f'.Lists (as ++ bs) := by
  obtain ⟨n, hn, -, -, hnext, hprev⟩ := h.node_eq
  obtain ⟨f₁, h₁, halike₁, hsucc₁, hpred₁⟩ := setNext_eq (f := f) (p := n.prev) n.next fun k hk =>
    h.held k (List.mem_append_left _ (List.mem_of_getLast? (hprev ▸ hk)))
  obtain ⟨f₂, h₂, halike₂, hsucc₂, hpred₂⟩ := setPrev_eq (f := f₁) (s := n.next) n.prev fun k hk => by
    rw [halike₁.content]
    exact h.held k (List.mem_append_right _ (List.mem_cons_of_mem s (List.mem_of_head? (hnext ▸ hk))))
  have halike := halike₁.trans halike₂
  refine ⟨f₂, ?_, halike, fun k hk => ?_, ?_⟩
  · rw [Fallback.unlink, hn, Checked.ok_bind, h₁, Checked.ok_bind, h₂]
  · have hsub : (as ++ bs).Sublist (as ++ s :: bs) := by simp
    exact halike.content ▸ h.held k (hsub.subset hk)
  · rw [hsucc₂, hpred₂, hsucc₁, hpred₁, hnext, hprev, ← h.ring.succ_eq, ← h.ring.pred_eq]
    exact h.ring.unlink

/-- A slot that is not in the order is put at its end. -/
theorem linkLast (h : f.Lists ss) (hs : (f.content s).isSome) (hmem : s ∉ ss) :
    ∃ f', f.linkLast s = .ok f' ∧ f.Alike f' ∧ f'.Lists (ss ++ [s]) := by
  obtain ⟨⟨hash, key, value⟩, hc⟩ := Option.isSome_iff_exists.mp hs
  obtain ⟨n, hn, hget, -⟩ := Fallback.node_eq hc
  -- the node gets the links of a last one, then the old last one and the order lead to it
  let f₀ := f.setNode s { n with prev := f.last, next := none }
  have halike₀ : f.Alike f₀ := alike_setNode hget rfl rfl rfl
  have hsucc₀ : f₀.succ = Function.update f.succ (some s) none := setNode_succ _
  have hpred₀ : f₀.pred = Function.update f.pred (some s) f.last := setNode_pred _
  obtain ⟨f₁, h₁, halike₁, hsucc₁, hpred₁⟩ := setNext_eq (f := f₀) (p := f.last) (some s) fun k hk => by
    rw [halike₀.content]
    exact h.held k (List.mem_of_getLast? (h.last_eq ▸ hk))
  have halike₂ : f₁.Alike { f₁ with last := some s } := ⟨rfl, rfl, rfl, rfl, rfl, rfl⟩
  have halike := (halike₀.trans halike₁).trans halike₂
  refine ⟨{ f₁ with last := some s }, ?_, halike, fun k hk => ?_, ?_⟩
  · rw [Fallback.linkLast, hn, Checked.ok_bind]
    show (f₀.setNext f.last (some s) >>= _) = _
    rw [h₁]
    rfl
  · rw [halike.content]
    rcases List.mem_append.mp hk with hk | hk
    · exact h.held k hk
    · exact List.mem_singleton.mp hk ▸ hs
  · have hsucc : ({ f₁ with last := some s } : Fallback K V).succ =
        Function.update (Function.update f.succ (some s) none) (f.pred none) (some s) := by
      rw [show f.pred none = f.last from rfl, ← hsucc₀, ← hsucc₁]
      funext a
      cases a <;> rfl
    have hpred : ({ f₁ with last := some s } : Fallback K V).pred =
        Function.update (Function.update f.pred (some s) (f.pred none)) none (some s) := by
      funext a
      cases a with
      | none => rw [Function.update_self]; rfl
      | some k =>
          rw [Function.update_of_ne (Option.some_ne_none k), show f.pred none = f.last from rfl,
            ← hpred₀, ← hpred₁]
          rfl
    rw [hsucc, hpred]
    exact h.ring.linkLast hmem

/-- A use moves a slot to the end, in the order of use. -/
theorem touch (h : f.Lists (as ++ s :: bs)) :
    ∃ f', f.touch s = .ok (f.byAccess && !bs.isEmpty, f') ∧ f.Alike f' ∧
      f'.Lists (if f.byAccess then as ++ bs ++ [s] else as ++ s :: bs) := by
  have hlast : f.last = some s ↔ bs = [] := by
    rw [h.last_eq]
    rcases List.eq_nil_or_concat' bs with rfl | ⟨init, k, rfl⟩
    · simp
    · have hks : k ≠ s := fun heq => by
        have := (List.nodup_middle.mp h.ring.nodup).notMem
        exact this (by simp [heq])
      rw [← List.cons_append, ← List.append_assoc, List.getLast?_concat]
      simp [hks]
  rw [Fallback.touch]
  cases hb : f.byAccess with
  | false => exact ⟨f, rfl, .refl f, h⟩
  | true =>
      by_cases hbs : bs = []
      · subst hbs
        rw [if_neg fun hc => hc.2 (hlast.mpr rfl)]
        exact ⟨f, rfl, .refl f, by simpa using h⟩
      · rw [if_pos ⟨rfl, fun heq => hbs (hlast.mp heq)⟩]
        obtain ⟨f₁, h₁, halike₁, hl₁⟩ := h.unlink
        have hnot : s ∉ as ++ bs := (List.nodup_middle.mp h.ring.nodup).notMem
        obtain ⟨f₂, h₂, halike₂, hl₂⟩ := hl₁.linkLast (halike₁.content ▸ h.held s (by simp)) hnot
        refine ⟨f₂, ?_, halike₁.trans halike₂, hl₂⟩
        rw [h₁, Checked.ok_bind, h₂, Checked.ok_bind]
        cases bs with
        | nil => exact absurd rfl hbs
        | cons k bs => rfl

end Lists

end Fallback

end DenseHash
