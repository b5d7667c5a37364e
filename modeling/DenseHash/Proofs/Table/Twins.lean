import DenseHash.Proofs.Store.Sound
import DenseHash.Proofs.Table.Buckets

/-!
# Tables under two hash functions

Two tables are *twins* if they have the same keys and values at the same indices, the same order and the same number of
buckets, but each stores its keys under hashes of its own. Then the chains of the two have nothing in common, and
neither have their links.

Whatever is done to both, if nothing fails, they stay twins: the answers are the same, and so is the log. The one answer
that tells them apart is the length of a chain.
-/

namespace DenseHash

variable {K V : Type} [BEq K]

/-- Equal keys have equal hashes. -/
def RespectsKeys (hash : K → UInt32) : Prop := ∀ {k k' : K}, (k == k') = true → hash k = hash k'

/-- Two insertions did the same, but for the lengths of the chains. -/
inductive Inserted.Alike : Inserted V → Inserted V → Prop where
  | updated (old : V) (moved : Bool) : Alike (.updated old moved) (.updated old moved)
  | added (chain chain' : Nat) (resized : Bool) : Alike (.added chain resized) (.added chain' resized)

namespace Table

variable {f g : K → UInt32} {t t' u u' : Table K V} {i : Nat} {key : K} {value old : V}

/-! ## What a change leaves -/

omit [BEq K] in
/-- An entry is under the hash of its key. -/
theorem content_of_pair? (h : t.Hashed f) (hp : t.pair? i = some (key, value)) :
    t.content i = some (f key, key, value) := by
  obtain ⟨⟨hash, pair⟩, hc, rfl⟩ := Option.map_eq_some_iff.mp hp
  rw [hc, h hc]

omit [BEq K] in
/-- An update replaces the value and counts a use. -/
theorem update_of_ok {moved : Bool} (hok : t.update i value = .ok (old, moved, t')) :
    ∃ hash key, t.content i = some (hash, key, old) ∧ t.order.access i = .ok (moved, t'.order) ∧
      t'.content = Function.update t.content i (some (hash, key, value)) := by
  obtain ⟨e, he, hok⟩ := Checked.bind_eq_ok hok
  obtain ⟨⟨moved', o⟩, ho, hok⟩ := Checked.bind_eq_ok hok
  obtain ⟨rfl, hrest⟩ := Prod.mk.inj (Except.ok.inj hok)
  obtain ⟨rfl, rfl⟩ := Prod.mk.inj hrest
  have hc := content_of_entry he
  exact ⟨e.hash, e.key, hc, ho, setEntry_content (lt_size_of_content hc) { e with value }⟩

omit [BEq K] in
/-- Appending an entry pushes it to the order, whatever chain it is on. -/
theorem append_order {b : Nat} {hash : UInt32} (hok : t.append b hash key value = .ok t') :
    t.order.push = .ok t'.order := by
  obtain ⟨l, -, hok⟩ := Checked.bind_eq_ok hok
  obtain ⟨o, ho, hok⟩ := Checked.bind_eq_ok hok
  rw [ho, ← Except.ok.inj hok, redirect_order]

omit [BEq K] in
/-- Removing an entry erases it from the order, whatever chain it was on. -/
theorem removeAt_order {pair : K × V} (hok : t.removeAt i = .ok (pair, t')) :
    t.order.erase i (t.size - 1) = .ok t'.order := by
  obtain ⟨e, -, hok⟩ := Checked.bind_eq_ok hok
  obtain ⟨a, -, hok⟩ := Checked.bind_eq_ok hok
  obtain ⟨t₁, h₁, hok⟩ := Checked.bind_eq_ok hok
  obtain rfl := (Prod.mk.inj (Except.ok.inj hok)).2
  rw [vacate, redirect_size, redirect_order] at h₁
  split at h₁
  · cases h₁
  · obtain ⟨o, ho, h₁⟩ := Checked.bind_eq_ok h₁
    dsimp only at h₁
    rw [ho]
    split at h₁
    · rw [← Except.ok.inj h₁]
    · obtain ⟨a', -, h₁⟩ := Checked.bind_eq_ok h₁
      rw [← Except.ok.inj h₁]
      show Except.ok o = .ok (Table.order (Table.redirect _ a' (.ofIndex i)))
      rw [redirect_order]

/-- What is at each index after a removal: the last entry at the one that became free. -/
theorem Removes.content_eq {as bs : List Nat} (h : t.Removes as bs i t') (hs : t.Sound (as ++ i :: bs)) (k : Nat) :
    t'.content k = if k < t.size - 1 then t.content (if k = i then t.size - 1 else k) else none := by
  by_cases hk : k < t.size - 1
  · have hmem : ∀ j < t.size, j ≠ i → j ∈ as ++ bs := by
      intro j hj hne
      have hj := hs.mem_iff.mpr hj
      simp only [List.mem_append, List.mem_cons] at hj ⊢
      tauto
    rw [if_pos hk]
    by_cases hki : k = i
    · rw [if_pos hki, ← h.content (t.size - 1) (hmem _ (by omega) (by omega)), reindex_last, hki]
    · rw [if_neg hki, ← h.content k (hmem k (by omega) hki), reindex_of_ne (by omega)]
  · rw [if_neg hk, content_eq_none (by rw [h.size]; omega)]

/-! ## Twins -/

/-- Two tables that can be told apart only by the hashes of their keys. -/
structure Twins (f g : K → UInt32) (t u : Table K V) : Prop where
  intact : t.Intact
  intact' : u.Intact
  hashed : t.Hashed f
  hashed' : u.Hashed g
  pairs : u.pair? = t.pair?
  order : u.order = t.order
  buckets : u.buckets = t.buckets
  loadFactor : u.loadFactor = t.loadFactor
  expected : u.expected = t.expected

/-- Two tables without buckets. -/
theorem twins_empty {order : Order} (h : order.Fresh) (loadFactor : Binary64) (expected : Nat) :
    Twins f g (.empty order loadFactor expected : Table K V) (.empty order loadFactor expected) where
  intact := ⟨[], sound_empty h.lists _ _⟩
  intact' := ⟨[], sound_empty h.lists _ _⟩
  hashed := fun hc => nomatch hc
  hashed' := fun hc => nomatch hc
  pairs := rfl
  order := rfl
  buckets := rfl
  loadFactor := rfl
  expected := rfl

namespace Twins

theorem symm (h : Twins f g t u) : Twins g f u t :=
  ⟨h.intact', h.intact, h.hashed', h.hashed, h.pairs.symm, h.order.symm, h.buckets.symm, h.loadFactor.symm,
    h.expected.symm⟩

theorem size (h : Twins f g t u) : u.size = t.size := by
  refine eq_of_forall_lt_iff fun i => ?_
  rw [← pair?_isSome_iff, h.pairs, pair?_isSome_iff]

theorem capacity (h : Twins f g t u) : u.capacity = t.capacity := by
  rw [Table.capacity, Table.capacity, h.buckets, h.loadFactor]

/-- An entry of the one is in the other, under the other hash. -/
theorem content (h : Twins f g t u) {hash : UInt32} (hc : t.content i = some (hash, key, value)) :
    hash = f key ∧ u.content i = some (g key, key, value) := by
  refine ⟨h.hashed hc, content_of_pair? h.hashed' ?_⟩
  rw [h.pairs, pair?, hc]
  rfl

/-- Both traverse the same indices. -/
theorem exists_sound (h : Twins f g t u) : ∃ is, t.Sound is ∧ u.Sound is := by
  obtain ⟨is, hs⟩ := h.intact
  obtain ⟨js, hs'⟩ := h.intact'
  have hlists := hs'.order.forward_eq
  rw [h.order, h.size, hs.order.forward_eq] at hlists
  exact ⟨is, hs, Except.ok.inj hlists ▸ hs'⟩

/-- Other links and other buckets, but as many of them. -/
theorem alike (h : Twins f g t u) (hintact : t'.Intact) (hintact' : u'.Intact) (ht : t.Alike t') (hu : u.Alike u')
    (hbuckets : u'.buckets = t'.buckets) (hlf : u'.loadFactor = t'.loadFactor) (hexp : u'.expected = t'.expected) :
    Twins f g t' u' where
  intact := hintact
  intact' := hintact'
  hashed := fun hc => h.hashed (ht.content ▸ hc)
  hashed' := fun hc => h.hashed' (hu.content ▸ hc)
  pairs := by
    funext i
    rw [pair?, hu.content, ← pair?, h.pairs, pair?, ← ht.content]
    rfl
  order := by rw [hu.order, h.order, ht.order]
  buckets := hbuckets
  loadFactor := hlf
  expected := hexp

/-- The same entry was written at the same index. -/
theorem written (h : Twins f g t u) (ht : t'.content = Function.update t.content i (some (f key, key, value)))
    (hu : u'.content = Function.update u.content i (some (g key, key, value))) (hintact : t'.Intact)
    (hintact' : u'.Intact) (horder : u'.order = t'.order) (hbuckets : u'.buckets = t'.buckets)
    (hkeeps : t.Keeps t') (hkeeps' : u.Keeps u') : Twins f g t' u' where
  intact := hintact
  intact' := hintact'
  hashed := Hashed.update h.hashed rfl ht
  hashed' := Hashed.update h.hashed' rfl hu
  pairs := by rw [pair?_update hu, pair?_update ht, h.pairs]
  order := horder
  buckets := hbuckets
  loadFactor := by rw [hkeeps'.loadFactor, h.loadFactor, hkeeps.loadFactor]
  expected := by rw [hkeeps'.expected, h.expected, hkeeps.expected]

/-! ## Single entries -/

theorem setValue (h : Twins f g t u) (ht : t.setValue i value = .ok t') (hu : u.setValue i value = .ok u') :
    Twins f g t' u' := by
  have hadds := h.intact.addsNothing_setValue ht
  have hadds' := h.intact'.addsNothing_setValue hu
  obtain ⟨is, hs, hs'⟩ := h.exists_sound
  have hi : i < t.size := by
    by_contra hi
    rw [Table.setValue, if_neg hi] at ht
    cases ht
  obtain ⟨hash, key, old, hc⟩ := hs.content_of_mem (hs.mem_iff.mpr hi)
  obtain ⟨rfl, hc'⟩ := h.content hc
  obtain ⟨t₁, ht₁, -, horder, hcontent⟩ := hs.setValue_eq hc value
  obtain rfl : t₁ = t' := Except.ok.inj (ht₁.symm.trans ht)
  obtain ⟨u₁, hu₁, -, horder', hcontent'⟩ := hs'.setValue_eq hc' value
  obtain rfl : u₁ = u' := Except.ok.inj (hu₁.symm.trans hu)
  exact h.written hcontent hcontent' hadds.intact hadds'.intact (by rw [horder', h.order, horder])
    (by rw [hadds'.buckets, h.buckets, hadds.buckets]) hadds.keeps hadds'.keeps

theorem touch (h : Twins f g t u) (i : Nat) : Checked.Agree (Twins f g) (t.touch i) (u.touch i) := by
  rintro moved moved' t' u' ht hu
  have hintact := h.intact.touch ht
  have hintact' := h.intact'.touch hu
  obtain ⟨⟨m, o⟩, ho, ht⟩ := Checked.bind_eq_ok ht
  obtain ⟨⟨m', o'⟩, ho', hu⟩ := Checked.bind_eq_ok hu
  rw [h.order, ho] at ho'
  obtain ⟨rfl, rfl⟩ := Prod.mk.inj (Except.ok.inj ho')
  obtain ⟨rfl, rfl⟩ := Prod.mk.inj (Except.ok.inj ht)
  obtain ⟨rfl, rfl⟩ := Prod.mk.inj (Except.ok.inj hu)
  exact ⟨rfl, hintact, hintact', h.hashed, h.hashed', h.pairs, rfl, h.buckets, h.loadFactor, h.expected⟩

theorem update (h : Twins f g t u) {old' : V} {moved moved' : Bool} (ht : t.update i value = .ok (old, moved, t'))
    (hu : u.update i value = .ok (old', moved', u')) : old' = old ∧ moved' = moved ∧ Twins f g t' u' := by
  have hadds := h.intact.addsNothing_update ht
  have hadds' := h.intact'.addsNothing_update hu
  obtain ⟨hash, key, hc, ho, hcontent⟩ := update_of_ok ht
  obtain ⟨hash', key', hc', ho', hcontent'⟩ := update_of_ok hu
  obtain ⟨rfl, hsame⟩ := h.content hc
  rw [hsame] at hc'
  obtain ⟨rfl, hrest⟩ := Prod.mk.inj (Option.some.inj hc')
  obtain ⟨rfl, rfl⟩ := Prod.mk.inj hrest
  rw [h.order, ho] at ho'
  obtain ⟨rfl, horder⟩ := Prod.mk.inj (Except.ok.inj ho')
  exact ⟨rfl, rfl, h.written hcontent hcontent' hadds.intact hadds'.intact horder.symm
    (by rw [hadds'.buckets, h.buckets, hadds.buckets]) hadds.keeps hadds'.keeps⟩

/-- Removing an entry from both: whether that succeeds depends on the order and the size. -/
theorem removeAt (h : Twins f g t u) (i : Nat) : Checked.Agree (Twins f g) (t.removeAt i) (u.removeAt i) := by
  rintro pair pair' t' u' ht hu
  have hadds := h.intact.addsNothing_removeAt ht
  have hadds' := h.intact'.addsNothing_removeAt hu
  have horder := removeAt_order hu
  rw [h.order, h.size, removeAt_order ht] at horder
  obtain ⟨is, hs, hs'⟩ := h.exists_sound
  obtain ⟨e, he, -⟩ := Checked.bind_eq_ok ht
  have hc := content_of_entry he
  obtain ⟨-, hc'⟩ := h.content hc
  obtain ⟨as, bs, rfl⟩ := List.append_of_mem (hs.mem_of_content hc)
  obtain ⟨t₁, ht₁, hremoves⟩ := hs.removeAt_eq hc
  obtain ⟨rfl, rfl⟩ := Prod.mk.inj (Except.ok.inj (ht₁.symm.trans ht))
  obtain ⟨u₁, hu₁, hremoves'⟩ := hs'.removeAt_eq hc'
  obtain ⟨rfl, rfl⟩ := Prod.mk.inj (Except.ok.inj (hu₁.symm.trans hu))
  refine ⟨rfl, hadds.intact, hadds'.intact, fun {k hash key value} hk => ?_, fun {k hash key value} hk => ?_,
    funext fun k => ?_, (Except.ok.inj horder).symm, by rw [hadds'.buckets, h.buckets, hadds.buckets],
    by rw [hadds'.keeps.loadFactor, h.loadFactor, hadds.keeps.loadFactor],
    by rw [hadds'.keeps.expected, h.expected, hadds.keeps.expected]⟩
  · rw [hremoves.content_eq hs] at hk
    split at hk
    · exact h.hashed hk
    · cases hk
  · rw [hremoves'.content_eq hs'] at hk
    split at hk
    · exact h.hashed' hk
    · cases hk
  · rw [pair?, pair?, hremoves'.content_eq hs', hremoves.content_eq hs, h.size]
    split
    · exact congrFun h.pairs _
    · rfl

theorem cleared (h : Twins f g t u) : Twins f g t.cleared u.cleared where
  intact := h.intact.cleared
  intact' := h.intact'.cleared
  hashed := fun hc => nomatch hc
  hashed' := fun hc => nomatch hc
  pairs := rfl
  order := congrArg Order.cleared h.order
  buckets := by rw [h.intact'.addsNothing_cleared.buckets, h.buckets, h.intact.addsNothing_cleared.buckets]
  loadFactor := h.loadFactor
  expected := h.expected

/-- Their entries are the same, in order. -/
theorem pairs_eq (h : Twins f g t u) : u.pairs = t.pairs := by
  obtain ⟨is, hs, hs'⟩ := h.exists_sound
  rw [hs.pairs_eq, hs'.pairs_eq, h.pairs]

theorem references_eq (h : Twins f g t u) : u.references = t.references := by
  obtain ⟨is, hs, hs'⟩ := h.exists_sound
  rw [hs.references_eq, hs'.references_eq]

/-! ## Buckets -/

/-- Two tables are rebuilt with the same number of buckets. -/
theorem resize (h : Twins f g t u) (k : Nat) : Reply.Agree Eq (Twins f g) (t.resize (2 ^ k)) (u.resize (2 ^ k)) := by
  intro a a' ha ha'
  obtain ⟨is, hs, hs'⟩ := h.exists_sound
  obtain ⟨halike, hsound⟩ := hs.resize_leaves k
  obtain ⟨halike', hsound'⟩ := hs'.resize_leaves k
  obtain ⟨-, hmax, hbuckets, -⟩ := resize_of_ok ha
  obtain ⟨-, -, hbuckets', -⟩ := resize_of_ok ha'
  have hkeeps := t.resize_keeps (2 ^ k)
  have hkeeps' := u.resize_keeps (2 ^ k)
  refine ⟨rfl, ?_, h.alike ⟨is, hsound⟩ ⟨is, hsound'⟩ halike halike' (hbuckets'.trans hbuckets.symm)
    (by rw [hkeeps'.loadFactor, h.loadFactor, hkeeps.loadFactor])
    (by rw [hkeeps'.expected, h.expected, hkeeps.expected])⟩
  have hne : ¬2 ^ k = 0 := (Nat.two_pow_pos k).ne'
  rw [Table.resize, Table.resize, if_neg (Nat.not_lt.mpr hmax), if_neg (Nat.not_lt.mpr hmax), if_neg hne, if_neg hne,
    h.buckets, h.size]

theorem ensure (h : Twins f g t u) (more : Nat) : Reply.Agree Eq (Twins f g) (t.ensure more) (u.ensure more) := by
  rw [Table.ensure, Table.ensure, h.size]
  split
  · exact Reply.agree_fail
  · exact Reply.agree_ok rfl h

/-- Both get the same number of buckets. -/
theorem allocate (h : Twins f g t u) : Reply.Agree Eq (Twins f g) t.allocate u.allocate := by
  intro a a' ha ha'
  obtain ⟨is, hs, hs'⟩ := h.exists_sound
  obtain ⟨halike, hsound⟩ := hs.allocate_leaves
  obtain ⟨halike', hsound'⟩ := hs'.allocate_leaves
  have hkeeps := t.allocate_keeps
  have hkeeps' := u.allocate_keeps
  refine ⟨rfl, by rw [allocate_events, allocate_events], h.alike ⟨is, hsound⟩ ⟨is, hsound'⟩ halike halike' ?_
    (by rw [hkeeps'.loadFactor, h.loadFactor, hkeeps.loadFactor])
    (by rw [hkeeps'.expected, h.expected, hkeeps.expected])⟩
  by_cases hb : t.buckets = 0
  · have hforce := bucketsFor_of_allocate (h.buckets.trans hb) ha'
    rw [h.expected, h.loadFactor, bucketsFor_of_allocate hb ha] at hforce
    exact (Except.ok.inj hforce).symm
  · rw [allocate_of_ne hb, allocate_of_ne (h.buckets ▸ hb)]
    exact h.buckets

theorem grow (h : Twins f g t u) (hb : t.buckets ≠ 0) : Reply.Agree Eq (Twins f g) t.grow u.grow := by
  obtain ⟨is, hs, -⟩ := h.exists_sound
  obtain ⟨k, hk⟩ := hs.width hb
  rw [Table.grow, Table.grow, h.size, h.capacity, h.loadFactor, h.buckets]
  split
  · exact Reply.agree_ok rfl h
  · have hdouble : 2 * t.buckets = 2 ^ (k + 1) := by rw [hk, Nat.pow_succ, Nat.mul_comm]
    rcases enlarge_cases t.loadFactor t.size 64 hdouble with ⟨m, hm⟩ | ⟨e, he, -⟩
    · rw [hm]
      exact (h.resize m).map fun _ _ _ => rfl
    · rw [he]
      exact Reply.agree_fail

/-- Buckets for so many entries are made in both or in neither. -/
theorem resizeFor (h : Twins f g t u) (count : Nat) : Reply.Agree Eq (Twins f g)
    (match bucketsFor count t.loadFactor with
      | .ok buckets => t.resize buckets
      | .error e => .fail t e)
    (match bucketsFor count t.loadFactor with
      | .ok buckets => u.resize buckets
      | .error e => .fail u e) := by
  rcases bucketsFor_cases count t.loadFactor with ⟨k, hk, -⟩ | ⟨e, he, -⟩
  · rw [hk]
    exact h.resize k
  · rw [he]
    exact Reply.agree_fail

theorem expect (h : Twins f g t u) (expected : Nat) : Twins f g { t with expected } { u with expected } := by
  obtain ⟨is, hs, hs'⟩ := h.exists_sound
  exact ⟨⟨is, hs.expect expected⟩, ⟨is, hs'.expect expected⟩, h.hashed, h.hashed', h.pairs, h.order, h.buckets,
    h.loadFactor, rfl⟩

theorem reserve (h : Twins f g t u) (more : Nat) : Reply.Agree Eq (Twins f g) (t.reserve more) (u.reserve more) := by
  by_cases hb : t.buckets = 0
  · rw [reserve_unallocated hb, reserve_unallocated (h.buckets.trans hb), h.expected, h.size]
    exact Reply.agree_ok rfl (h.expect _)
  · have hb' : u.buckets ≠ 0 := h.buckets.trans_ne hb
    rw [Table.reserve, Table.reserve]
    dsimp only
    rw [if_neg hb, if_neg hb', h.size, h.capacity, h.loadFactor]
    refine Reply.Agree.andThen (Q := Eq) (R := Twins f g) ?_ fun _ _ _ _ _ hs => hs.ensure more
    split
    · exact h.resizeFor _
    · exact Reply.agree_ok rfl h

/-- A table without entries has no chains. -/
theorem unallocated (h : Twins f g t u) (hsize : t.size = 0) :
    Twins f g { t with heads := #[], expected := 0 } { u with heads := #[], expected := 0 } := by
  obtain ⟨is, hs, hs'⟩ := h.exists_sound
  have hintact := hs.shrink_leaves.2
  have hintact' := hs'.shrink_leaves.2
  rw [shrink_empty hsize] at hintact
  rw [shrink_empty (h.size.trans hsize)] at hintact'
  exact ⟨⟨is, hintact⟩, ⟨is, hintact'⟩, h.hashed, h.hashed', h.pairs, h.order, rfl, h.loadFactor, rfl⟩

theorem shrink (h : Twins f g t u) : Reply.Agree Eq (Twins f g) t.shrink u.shrink := by
  rw [Table.shrink, Table.shrink]
  refine Reply.Agree.andThen (Q := Eq) (R := Twins f g) ?_ fun _ _ s s' _ hs => ?_
  · by_cases hsize : t.size = 0
    · rw [if_pos hsize, if_pos (h.size.trans hsize)]
      exact Reply.agree_ok rfl (h.unallocated hsize)
    · rw [if_neg hsize, if_neg (h.size ▸ hsize), h.size, h.loadFactor, h.buckets]
      rcases bucketsFor_cases t.size t.loadFactor with ⟨k, hk, -⟩ | ⟨e, he, -⟩
      · rw [hk]
        dsimp only
        split
        · exact h.resize k
        · exact Reply.agree_ok rfl h
      · rw [he]
        exact Reply.agree_fail
  · intro _ _ _ _
    exact ⟨rfl, by rw [hs.buckets, hs.size], hs⟩

/-! ## Keys -/

section Keys

variable (hf : RespectsKeys f) (hg : RespectsKeys g)

include hg in
/-- An index that holds a key in the one holds it in the other. -/
theorem holds_of_holds (h : Twins f g t u) (hi : t.holds (f key) key i = true) : u.holds (g key) key i = true := by
  obtain ⟨stored, value, hc, hkey⟩ := holds_iff.mp hi
  obtain ⟨-, hc'⟩ := h.content hc
  exact holds_iff.mpr ⟨stored, value, by rw [hc', hg hkey], hkey⟩

include hf hg

theorem holds_eq (h : Twins f g t u) (key : K) (i : Nat) : u.holds (g key) key i = t.holds (f key) key i :=
  Bool.eq_iff_iff.mpr ⟨h.symm.holds_of_holds hf, h.holds_of_holds hg⟩

variable [EquivBEq K]

/-- A lookup leads to the same index. -/
theorem find_eq (h : Twins f g t u) (key : K) : u.find (g key) key = t.find (f key) key := by
  obtain ⟨is, hs, hs'⟩ := h.exists_sound
  exact hs.find_congr hs' (h.holds_eq hf hg key)

theorem remove (h : Twins f g t u) (key : K) :
    Checked.Agree (Twins f g) (t.remove (f key) key) (u.remove (g key) key) := by
  obtain ⟨is, hs, hs'⟩ := h.exists_sound
  rw [hs.remove_eq, hs'.remove_eq, h.find_eq hf hg]
  refine Checked.agree_read fun found => ?_
  cases found with
  | none => exact Checked.agree_ok h
  | some i => exact (h.removeAt i).bind fun pair t u h => Checked.agree_ok h

/-- Appending the same entry, for which the buckets are different ones. -/
theorem append (h : Twins f g t u) (hb : t.buckets ≠ 0) (hsmall : t.size < maxBuckets)
    (hnew : ∀ i, t.holds (f key) key i = false)
    (ht : t.append (bucketIndex t.buckets (f key)) (f key) key value = .ok t')
    (hu : u.append (bucketIndex u.buckets (g key)) (g key) key value = .ok u') : t'.buckets ≠ 0 ∧ Twins f g t' u' := by
  obtain ⟨is, hs, hs'⟩ := h.exists_sound
  have hnew' : ∀ i, u.holds (g key) key i = false := fun i => (h.holds_eq hf hg key i).trans (hnew i)
  obtain ⟨t₁, ht₁, -, hb₁, hsound, hcontent⟩ := hs.append_eq hb hsmall hnew value
  obtain ⟨u₁, hu₁, -, -, hsound', hcontent'⟩ := hs'.append_eq (h.buckets ▸ hb) (h.size ▸ hsmall) hnew' value
  obtain rfl : t₁ = t' := Except.ok.inj (ht₁.symm.trans ht)
  obtain rfl : u₁ = u' := Except.ok.inj (hu₁.symm.trans hu)
  obtain ⟨hkeeps, hbuckets, -⟩ := append_keeps ht
  obtain ⟨hkeeps', hbuckets', -⟩ := append_keeps hu
  have horder := append_order hu
  rw [h.order, append_order ht] at horder
  rw [h.size] at hcontent'
  exact ⟨hb₁, h.written hcontent hcontent' ⟨_, hsound⟩ ⟨_, hsound'⟩ (Except.ok.inj horder).symm
    (by rw [hbuckets', h.buckets, hbuckets]) hkeeps hkeeps'⟩

/-- Inserting into both: the key is at the same index, or new to both. All that may differ is the chain that is
    reported. -/
theorem insertAllocated (h : Twins f g t u) (hb : t.buckets ≠ 0) (key : K) (value : V) :
    Reply.Agree Inserted.Alike (Twins f g) (t.insertAllocated (f key) key value)
      (u.insertAllocated (g key) key value) := by
  obtain ⟨is, hs, hs'⟩ := h.exists_sound
  obtain ⟨chains, hch⟩ := hs.chained
  obtain ⟨chains', hch'⟩ := hs'.chained
  rcases hch.insertAllocated_cases hb (f key) key value with ⟨i, hi, heq⟩ | ⟨hnew, heq⟩
  · rcases hch'.insertAllocated_cases (h.buckets ▸ hb) (g key) key value with ⟨j, hj, heq'⟩ | ⟨hnew', -⟩
    · rw [h.holds_eq hf hg] at hj
      obtain rfl : i = j := hs.holds_unique hi hj
      rw [heq, heq']
      cases ht : t.update i value with
      | error e => exact Reply.agree_fail
      | ok r =>
          obtain ⟨old, moved, t'⟩ := r
          cases hu : u.update i value with
          | error e => exact fun _ _ _ hb => nomatch hb
          | ok r' =>
              obtain ⟨old', moved', u'⟩ := r'
              obtain ⟨rfl, rfl, htwins⟩ := h.update ht hu
              exact Reply.agree_ok (.updated old' moved') htwins
    · exact absurd (h.holds_of_holds hg hi) (Bool.eq_false_iff.mp (hnew' i))
  · rcases hch'.insertAllocated_cases (h.buckets ▸ hb) (g key) key value with ⟨j, hj, -⟩ | ⟨-, heq'⟩
    · rw [h.holds_eq hf hg] at hj
      exact absurd hj (Bool.eq_false_iff.mp (hnew j))
    · rw [heq, heq']
      by_cases hfull : maxBuckets ≤ t.size
      · rw [if_pos hfull]
        exact Reply.agree_fail
      · rw [if_neg hfull, if_neg (h.size ▸ hfull)]
        cases ht : t.append (bucketIndex t.buckets (f key)) (f key) key value with
        | error e => exact Reply.agree_fail
        | ok t' =>
            cases hu : u.append (bucketIndex u.buckets (g key)) (g key) key value with
            | error e => exact fun _ _ _ hb => nomatch hb
            | ok u' =>
                obtain ⟨hb', htwins⟩ := h.append hf hg hb (Nat.not_le.mp hfull) hnew ht hu
                refine (htwins.grow hb').map ?_
                rintro resized _ rfl
                exact .added _ _ resized

/-- An insertion into either, under the hash that the key has there. -/
theorem insert (h : Twins f g t u) (key : K) (value : V) :
    Reply.Agree Inserted.Alike (Twins f g) (t.insert (f key) key value) (u.insert (g key) key value) := by
  obtain ⟨is, hs, -⟩ := h.exists_sound
  rw [Table.insert, Table.insert]
  refine Reply.Agree.andThen (Q := Eq) (R := fun s s' => Twins f g s s' ∧ s.buckets ≠ 0) (fun a a' ha ha' => ?_)
    fun _ _ s s' _ hs => hs.1.insertAllocated hf hg hs.2 key value
  obtain ⟨hsame, hevents, htwins⟩ := h.allocate a a' ha ha'
  exact ⟨hsame, hevents, htwins, (hs.allocate_meets.of_ok ha).2.2⟩

end Keys

end Twins

end Table

end DenseHash
