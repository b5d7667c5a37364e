import DenseHash.Proofs.Fallback.Order

/-!
# Sound fallbacks

`Fallback.Sound f ss` is what holds of a fallback between two operations: the order visits the slots `ss`, which
are all that hold something; each of them is filed once, under the hash of its node, and that is the hash of
its key; no two nodes have the same hash and equal keys; and each of the slots was given out by the supply.

Each operation is described by what it does to `content` and to the slots in order.
-/

namespace DenseHash

/-! ## Hash functions -/

namespace Draws

variable {K : Type} [BEq K] {d : Draws K} {k k' : K}

/-- Every hash function gives equal keys equal hashes. -/
def Respects (d : Draws K) : Prop := ∀ n {k k' : K}, (k == k') = true → d.draw n k = d.draw n k'

/-- In particular, the hash function in use does. -/
theorem Respects.digest (h : d.Respects) (hk : (k == k') = true) : d.digest k = d.digest k' := h 0 hk

theorem Respects.drop (h : d.Respects) (n : Nat) : (d.drop n).Respects := fun i _ _ hk => h (n + i) hk

/-- What is left of the draws after some number of fallbacks. -/
def Left (d d' : Draws K) : Prop := ∃ n, d' = d.drop n

omit [BEq K] in
theorem Left.refl (d : Draws K) : d.Left d := ⟨0, by simp only [Draws.drop, Nat.zero_add]⟩

omit [BEq K] in
theorem Left.drop {d' : Draws K} (h : d.Left d') (n : Nat) : d.Left (d'.drop n) := by
  obtain ⟨m, rfl⟩ := h
  exact ⟨m + n, by simp only [Draws.drop, Nat.add_assoc]⟩

/-- Hash functions that are yet to be drawn respect equality too. -/
theorem Respects.left {d' : Draws K} (h : d.Respects) (hleft : d.Left d') : d'.Respects := by
  obtain ⟨n, rfl⟩ := hleft
  exact h.drop n

end Draws

namespace Fallback

variable [Backing] {K V : Type}

/-- The hash and the key in a slot. -/
def label? (f : Fallback K V) (s : Backing.Handle) : Option (UInt64 × K) := (f.content s).map fun c => (c.1, c.2.1)

/-- The key and the value in a slot. -/
def pair? (f : Fallback K V) (s : Backing.Handle) : Option (K × V) := (f.content s).map Prod.snd

theorem pair?_update {f f' : Fallback K V} {s : Backing.Handle} {hash : UInt64} {key : K} {value : V}
    (h : f'.content = Function.update f.content s (some (hash, key, value))) :
    f'.pair? = Function.update f.pair? s (some (key, value)) := by
  funext k
  rw [pair?, h]
  by_cases hks : k = s
  · rw [hks, Function.update_self, Function.update_self]
    rfl
  · rw [Function.update_of_ne hks, Function.update_of_ne hks]
    rfl

/-- A label is a content without its value. -/
theorem label?_eq_some {f : Fallback K V} {s : Backing.Handle} {hash : UInt64} {key : K} :
    f.label? s = some (hash, key) ↔ ∃ value, f.content s = some (hash, key, value) := by
  rw [label?]
  cases f.content s with
  | none => simp
  | some c =>
      obtain ⟨hash', key', value⟩ := c
      simp

/-- The slots that are filed under a hash. -/
def filed (f : Fallback K V) (hash : UInt64) : List Backing.Handle := Backing.filed f.index hash

/-- Replacing a value gives out no slot. -/
theorem setValue_supply {f f' : Fallback K V} {s : Backing.Handle} {value : V} (h : f.setValue s value = .ok f') :
    f'.supply = f.supply := by
  obtain ⟨n, -, h⟩ := Checked.bind_eq_ok h
  rw [← Except.ok.inj h]
  rfl

theorem setValue_draws {f f' : Fallback K V} {s : Backing.Handle} {value : V} (h : f.setValue s value = .ok f') :
    f'.draws = f.draws := by
  obtain ⟨n, -, h⟩ := Checked.bind_eq_ok h
  rw [← Except.ok.inj h]
  rfl

/-- Nor does it file any. -/
theorem setValue_index {f f' : Fallback K V} {s : Backing.Handle} {value : V} (h : f.setValue s value = .ok f') :
    f'.index = f.index := by
  obtain ⟨n, -, h⟩ := Checked.bind_eq_ok h
  rw [← Except.ok.inj h]
  rfl

variable [BEq K]

/-- What holds of a fallback whose order is `ss`. -/
structure Sound (f : Fallback K V) (ss : List Backing.Handle) : Prop where
  lists : f.Lists ss
  listed : ∀ {s label}, f.label? s = some label → s ∈ ss
  count : f.size = ss.length
  spent : ∀ s ∈ ss, Backing.Spent f.supply s
  filed_nodup : ∀ hash, (f.filed hash).Nodup
  filed_iff : ∀ hash s, s ∈ f.filed hash ↔ ∃ key, f.label? s = some (hash, key)
  hashed : ∀ {s hash key}, f.label? s = some (hash, key) → hash = f.digest key
  distinct : ∀ {s s' hash key key'}, f.label? s = some (hash, key) → f.label? s' = some (hash, key') →
    (key == key') = true → s = s'

/-- A fallback without entries. -/
theorem sound_nil {f : Fallback K V} (hnodes : f.nodes = Backing.vacant) (hindex : f.index = Backing.bare)
    (hfirst : f.first = none) (hlast : f.last = none) : f.Sound [] := by
  have hlabel : ∀ s, f.label? s = none := by
    intro s
    rw [label?, content, node?, hnodes, Backing.node?_vacant]
    rfl
  have hfiled : ∀ hash, f.filed hash = [] := by
    intro hash
    rw [filed, hindex, Backing.filed_bare]
  have hnot : ∀ {s label}, f.label? s ≠ some label := by
    intro s label hs
    rw [hlabel] at hs
    exact absurd hs.symm (Option.some_ne_none label)
  refine ⟨⟨fun k hk => absurd hk List.not_mem_nil, .empty hfirst hlast⟩, fun hs => absurd hs hnot, ?_,
    fun s hs => absurd hs List.not_mem_nil, fun hash => hfiled hash ▸ List.nodup_nil,
    fun hash s => ?_, fun hs => absurd hs hnot, fun hs => absurd hs hnot⟩
  · rw [size, hnodes]
    exact Backing.occupied_vacant
  · rw [hfiled, hlabel]
    simp

/-- A new fallback is sound, and has nothing in order. -/
theorem sound_empty (draws : Draws K) (byAccess : Bool) : (empty draws byAccess : Fallback K V).Sound [] :=
  sound_nil rfl rfl rfl rfl

theorem sound_cleared (f : Fallback K V) : f.cleared.Sound [] := sound_nil rfl rfl rfl rfl

theorem sound_renewed (f : Fallback K V) : f.renewed.Sound [] := sound_empty _ _

namespace Sound

variable {f : Fallback K V} {ss as bs : List Backing.Handle} {s : Backing.Handle} {key : K} {value : V} {hash : UInt64}

/-- No slot is visited twice. -/
theorem nodup (h : f.Sound ss) : ss.Nodup := h.lists.ring.nodup

/-- The order visits the slots that hold something. -/
theorem mem_iff (h : f.Sound ss) : s ∈ ss ↔ (f.content s).isSome := by
  refine ⟨h.lists.held s, fun hs => ?_⟩
  obtain ⟨c, hc⟩ := Option.isSome_iff_exists.mp hs
  have hlabel : f.label? s = some (c.1, c.2.1) := by
    rw [label?, hc]
    rfl
  exact h.listed hlabel

/-- A slot with a content is visited. -/
theorem mem_of_content (h : f.Sound ss) {c : UInt64 × K × V} (hc : f.content s = some c) : s ∈ ss :=
  h.mem_iff.mpr (by rw [hc]; rfl)

/-- Only values change, and the order. -/
theorem revalue {f' : Fallback K V} {ss' : List Backing.Handle} (h : f.Sound ss) (hlists : f'.Lists ss')
    (hperm : ss'.Perm ss) (hsize : f'.size = f.size) (hindex : f'.index = f.index)
    (hsupply : f'.supply = f.supply) (hdraws : f'.draws = f.draws) (hlabel : f'.label? = f.label?) :
    f'.Sound ss' where
  lists := hlists
  listed := fun hs => hperm.mem_iff.mpr (h.listed (hlabel ▸ hs))
  count := by rw [hsize, h.count, hperm.length_eq]
  spent := fun s hs => hsupply ▸ h.spent s (hperm.mem_iff.mp hs)
  filed_nodup := fun hash => by
    rw [filed, hindex]
    exact h.filed_nodup hash
  filed_iff := fun hash s => by
    rw [filed, hindex, hlabel]
    exact h.filed_iff hash s
  hashed := fun hs => by
    rw [digest, hdraws]
    exact h.hashed (hlabel ▸ hs)
  distinct := by
    rw [hlabel]
    exact h.distinct

/-! ## Using and replacing -/

/-- Using an entry succeeds. It moves the entry to the end if the order is by use, and tells whether it moved it. -/
theorem touch_eq (h : f.Sound (as ++ s :: bs)) :
    ∃ f', f.touch s = .ok (f.byAccess && !bs.isEmpty, f') ∧ f.Alike f' ∧
      f'.Sound (if f.byAccess then as ++ bs ++ [s] else as ++ s :: bs) := by
  obtain ⟨f', hf', halike, hlists⟩ := h.lists.touch
  refine ⟨f', hf', halike, h.revalue hlists ?_ halike.size halike.index halike.supply halike.draws ?_⟩
  · cases f.byAccess
    · exact .refl _
    · refine (List.perm_append_singleton s (as ++ bs)).trans ?_
      exact List.perm_middle.symm
  · funext k
    rw [label?, halike.content]
    rfl

/-- Replacing a value succeeds, and leaves everything else. -/
theorem setValue_eq {old : V} (h : f.Sound ss) (hc : f.content s = some (hash, key, old)) (value : V) :
    ∃ f', f.setValue s value = .ok f' ∧ f'.Sound ss ∧ f'.draws = f.draws ∧ f'.byAccess = f.byAccess ∧
      f'.content = Function.update f.content s (some (hash, key, value)) := by
  obtain ⟨n, hn, hget, rfl, rfl, -, hnext, hprev⟩ := node_eq hc
  let n' : Node K V := { n with value }
  have hcontent : (f.setNode s n').content = Function.update f.content s (some (n.hash, n.key, value)) :=
    setNode_content n'
  have hsucc : (f.setNode s n').succ = f.succ := by
    rw [setNode_succ, show n'.next = f.succ (some s) from hnext, Function.update_eq_self]
  have hpred : (f.setNode s n').pred = f.pred := by
    rw [setNode_pred, show n'.prev = f.pred (some s) from hprev, Function.update_eq_self]
  refine ⟨f.setNode s n', ?_, h.revalue ⟨fun k hk => ?_, hsucc.symm ▸ hpred.symm ▸ h.lists.ring⟩ (.refl _)
    (setNode_size n' (by rw [hc]; rfl)) rfl rfl rfl ?_, rfl, rfl, hcontent⟩
  · rw [setValue, hn]
    rfl
  · rw [hcontent]
    by_cases hks : k = s
    · rw [hks, Function.update_self]
      rfl
    · rw [Function.update_of_ne hks]
      exact h.lists.held k hk
  · funext k
    rw [label?, hcontent]
    by_cases hks : k = s
    · rw [hks, Function.update_self, label?, hc]
      rfl
    · rw [Function.update_of_ne hks]
      rfl

end Sound

end Fallback

end DenseHash
