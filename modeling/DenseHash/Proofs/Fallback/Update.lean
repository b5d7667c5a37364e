import DenseHash.Proofs.Fallback.Sound

/-!
# Finding and inserting in a fallback

Looking a key up goes through the slots that a search under its hash meets. All slots under the hash are among them, and
maybe others, so a search leads to a slot with an equal key if there is one under the hash of the key (`Finds`). Where
equal keys have equal hashes it leads to the only slot that has the key (`Sound.find_eq`).

An insertion is given the next slot of the supply and files it; the slot comes last in the order.
-/

namespace DenseHash

namespace Fallback

variable [Backing] {K V : Type}

/-! ## The next slot -/

/-- The slot that the supply gives out next. -/
def fresh (f : Fallback K V) : Backing.Handle := (Backing.draw f.supply).1

/-- Enlisting an entry fills the fresh slot, and no other. -/
theorem enlist_content (f : Fallback K V) (key : K) (value : V) :
    (f.enlist key value).2.content = Function.update f.content f.fresh (some (f.digest key, key, value)) :=
  setNode_content _

/-- The slot is filed under the hash of the key. -/
theorem enlist_filed (f : Fallback K V) (key : K) (value : V) (hash : UInt64) :
    ((f.enlist key value).2.filed hash).Perm
      (if f.digest key = hash then f.fresh :: f.filed hash else f.filed hash) :=
  Backing.filed_file f.index (f.digest key) hash f.fresh

variable [BEq K]

/-! ## Finding -/

/-- Whether the key in a slot equals this one. -/
def keyed (f : Fallback K V) (key : K) (s : Backing.Handle) : Bool :=
  match f.node? s with
  | some n => n.key == key
  | none => false

/-- A slot has a key if its label has. -/
theorem keyed_iff {f : Fallback K V} {key : K} {s : Backing.Handle} :
    f.keyed key s = true ↔ ∃ hash stored, f.label? s = some (hash, stored) ∧ (stored == key) = true := by
  rw [keyed, label?, content]
  cases f.node? s <;> simp

/-- Going through slots tells the first one whose key equals. -/
theorem search_eq {f : Fallback K V} (key : K) {ss : List Backing.Handle} (h : ∀ s ∈ ss, (f.content s).isSome) :
    f.search key ss = .ok (ss.find? (f.keyed key)) := by
  induction ss with
  | nil => rfl
  | cons s ss ih =>
      obtain ⟨⟨hash, stored, value⟩, hc⟩ := Option.isSome_iff_exists.mp (h s List.mem_cons_self)
      obtain ⟨n, hn, hget, -⟩ := node_eq hc
      have hkeyed : f.keyed key s = (n.key == key) := by rw [keyed, hget]
      rw [search, hn, Checked.ok_bind]
      by_cases hkey : (n.key == key) = true
      · rw [if_pos hkey, List.find?_cons_of_pos (hkeyed.trans hkey)]
        rfl
      · rw [if_neg hkey, List.find?_cons_of_neg (by rw [hkeyed]; exact hkey)]
        exact ih fun k hk => h k (List.mem_cons_of_mem s hk)

/-- A slot holds a key: the hash is that of the key, and the stored key equals it. -/
def Holds (f : Fallback K V) (key : K) (s : Backing.Handle) : Prop :=
  ∃ stored, f.label? s = some (f.digest key, stored) ∧ (stored == key) = true

/-- Whether a slot has a key can be seen from its entry. -/
theorem keyed_eq (f : Fallback K V) (key : K) (s : Backing.Handle) :
    f.keyed key s = ((f.pair? s).map Prod.fst).elim false (· == key) := by
  rw [keyed, pair?, content]
  cases f.node? s <;> rfl

/-- What looking a key up can tell. The slot that it leads to may be filed under another hash, but no slot is missed that
    is filed under the hash of the key. -/
inductive Finds (f : Fallback K V) (key : K) : Option Backing.Handle → Prop where
  | found {s : Backing.Handle} {hash : UInt64} {stored : K} {value : V}
      (content : f.content s = some (hash, stored, value)) (same : (stored == key) = true) : Finds f key (some s)
  | missed (absent : ∀ s, ¬f.Holds key s) : Finds f key none

namespace Sound

variable {f : Fallback K V} {ss as bs : List Backing.Handle} {s : Backing.Handle} {key : K} {value : V} {hash : UInt64}

/-- A search meets slots that hold something. -/
theorem candidates_held (h : f.Sound ss) (hs : s ∈ Backing.candidates f.index hash) : (f.content s).isSome := by
  obtain ⟨hash', hfiled⟩ := Backing.filed_of_mem_candidates hs
  obtain ⟨stored, hlabel⟩ := (h.filed_iff hash' s).mp hfiled
  exact h.lists.held s (h.listed hlabel)

/-- Looking a key up succeeds; it follows the index to a node with that key, or shows that there is none under its
    hash. -/
theorem find_finds (h : f.Sound ss) (key : K) : ∃ r, f.find key = .ok r ∧ f.Finds key r := by
  refine ⟨_, search_eq key fun s hs => h.candidates_held hs, ?_⟩
  cases hfind : (Backing.candidates f.index (f.digest key)).find? (f.keyed key) with
  | some s =>
      obtain ⟨hash, stored, hlabel, hkey⟩ := keyed_iff.mp (List.find?_some hfind)
      obtain ⟨value, hc⟩ := label?_eq_some.mp hlabel
      exact .found hc hkey
  | none =>
      refine .missed fun s ⟨stored, hlabel, hkey⟩ => ?_
      have hmem := Backing.mem_candidates ((h.filed_iff _ s).mpr ⟨stored, hlabel⟩)
      exact List.find?_eq_none.mp hfind s hmem (keyed_iff.mpr ⟨_, stored, hlabel, hkey⟩)

/-- With the same index and the same keys in the slots, looking a key up leads to the same slot. -/
theorem find_congr {f' : Fallback K V} {ss' : List Backing.Handle} (h : f.Sound ss) (h' : f'.Sound ss')
    (hindex : f'.index = f.index) (hdraws : f'.draws = f.draws)
    (hkeys : ∀ s, (f'.pair? s).map Prod.fst = (f.pair? s).map Prod.fst) (key : K) : f'.find key = f.find key := by
  have hkeyed : f'.keyed key = f.keyed key := by
    funext s
    rw [keyed_eq, keyed_eq, hkeys]
  rw [find, find, search_eq key fun s hs => h'.candidates_held hs, search_eq key fun s hs => h.candidates_held hs,
    hkeyed, hindex, digest, digest, hdraws]

/-- Where equal keys have equal hashes, looking a key up tells the one slot that holds it. -/
theorem find_eq [EquivBEq K] (h : f.Sound ss) (hr : ∀ {k k' : K}, (k == k') = true → f.digest k = f.digest k')
    (key : K) : ∃ r, f.find key = .ok r ∧ ∀ s, r = some s ↔ f.Holds key s := by
  obtain ⟨r, hfind, hfinds⟩ := h.find_finds key
  refine ⟨r, hfind, fun s => ?_⟩
  cases hfinds with
  | missed absent => exact Iff.intro (fun hs => nomatch hs) fun hs => absurd hs (absent s)
  | @found s' hash stored value hc hkey =>
      have hlabel : f.label? s' = some (hash, stored) := label?_eq_some.mpr ⟨value, hc⟩
      obtain rfl : hash = f.digest key := (h.hashed hlabel).trans (hr hkey)
      constructor
      · rintro ⟨⟩
        exact ⟨stored, hlabel, hkey⟩
      · rintro ⟨stored', hlabel', hkey'⟩
        rw [h.distinct hlabel hlabel' (BEq.trans hkey (BEq.symm hkey'))]

end Sound

/-! ## Inserting -/

/-- What an insertion does. A key that is there keeps its entry, which gets the new value and has been used; a
    new key gets the next slot. -/
inductive Inserts (f : Fallback K V) (ss : List Backing.Handle) (key : K) (value : V) :
    Option (V × Bool) → Fallback K V → Prop where
  | updated {as bs : List Backing.Handle} {s : Backing.Handle} {hash : UInt64} {stored : K} {old : V}
      {f' : Fallback K V} (split : ss = as ++ s :: bs) (found : f.content s = some (hash, stored, old))
      (same : (stored == key) = true)
      (sound : f'.Sound (if f.byAccess then as ++ bs ++ [s] else as ++ s :: bs))
      (content : f'.content = Function.update f.content s (some (hash, stored, value)))
      (supply : f'.supply = f.supply) : Inserts f ss key value (some (old, f.byAccess && !bs.isEmpty)) f'
  | added {f' : Fallback K V} (absent : ∀ s, ¬f.Holds key s) (sound : f'.Sound (ss ++ [f.fresh]))
      (content : f'.content = Function.update f.content f.fresh (some (f.digest key, key, value)))
      (supply : f'.supply = (Backing.draw f.supply).2) : Inserts f ss key value none f'

/-- Whatever an insertion did, the fallback is sound. -/
theorem Inserts.exists_sound {f f' : Fallback K V} {ss : List Backing.Handle} {key : K} {value : V}
    {r : Option (V × Bool)}
    (h : f.Inserts ss key value r f') : ∃ ss', f'.Sound ss' := by
  cases h with
  | updated split found same sound content supply => exact ⟨_, sound⟩
  | added absent sound content supply => exact ⟨_, sound⟩

namespace Sound

variable {f : Fallback K V} {ss as bs : List Backing.Handle} {s : Backing.Handle} {key : K} {value : V} {hash : UInt64}

/-- The next slot to give out is vacant. -/
theorem vacant (h : f.Sound ss) : f.fresh ∉ ss := fun hm => Backing.not_spent_draw f.supply (h.spent _ hm)

/-- A slot has a label if it had it before, or if it is the one that was filled. -/
theorem label?_filled {f' : Fallback K V} (h : f.Sound ss)
    (hcontent : f'.content = Function.update f.content f.fresh (some (f.digest key, key, value))) {k : K} :
    f'.label? s = some (hash, k) ↔
      f.label? s = some (hash, k) ∨ s = f.fresh ∧ hash = f.digest key ∧ k = key := by
  rw [label?, hcontent]
  by_cases hs : s = f.fresh
  · have hnone : f.label? s ≠ some (hash, k) := fun hc => h.vacant (hs ▸ h.listed hc)
    rw [hs, Function.update_self, Option.map_some, Option.some.injEq, Prod.mk.injEq]
    constructor
    · rintro ⟨rfl, rfl⟩
      exact .inr ⟨rfl, rfl, rfl⟩
    · rintro (hk | ⟨-, rfl, rfl⟩)
      · exact absurd (hs ▸ hk) hnone
      · exact ⟨rfl, rfl⟩
  · rw [Function.update_of_ne hs]
    exact ⟨.inl, fun hk => hk.resolve_right fun hk => hs hk.1⟩

/-- A key that no slot holds gets the next slot, which is filed under its hash. -/
theorem enlisted [EquivBEq K] {f' : Fallback K V} (h : f.Sound ss) (hnew : ∀ s, ¬f.Holds key s)
    (hlists : f'.Lists (ss ++ [f.fresh]))
    (hcontent : f'.content = Function.update f.content f.fresh (some (f.digest key, key, value)))
    (hsize : f'.size = f.size + 1) (hsupply : f'.supply = (Backing.draw f.supply).2) (hdraws : f'.draws = f.draws)
    (hfiled : ∀ hash, (f'.filed hash).Perm (if f.digest key = hash then f.fresh :: f.filed hash else f.filed hash)) :
    f'.Sound (ss ++ [f.fresh]) where
  lists := hlists
  listed := fun {s label} hs => by
    rcases (h.label?_filled hcontent).mp hs with hs | ⟨rfl, -⟩
    · exact List.mem_append_left _ (h.listed hs)
    · exact List.mem_append_right _ (List.mem_singleton_self _)
  count := by rw [hsize, h.count, List.length_append, List.length_singleton]
  spent := fun s hs => by
    rw [hsupply]
    rcases List.mem_append.mp hs with hs | hs
    · exact Backing.spent_draw (h.spent s hs)
    · exact List.mem_singleton.mp hs ▸ Backing.spent_draw_self f.supply
  filed_nodup := fun hash => by
    rw [(hfiled hash).nodup_iff]
    split
    · -- the new slot was never spent, so nothing is filed under it
      refine List.nodup_cons.mpr ⟨fun hmem => ?_, h.filed_nodup hash⟩
      obtain ⟨k, hk⟩ := (h.filed_iff _ _).mp hmem
      exact h.vacant (h.listed hk)
    · exact h.filed_nodup hash
  filed_iff := fun hash s => by
    rw [(hfiled hash).mem_iff]
    split
    · next hhash =>
      subst hhash
      rw [List.mem_cons, h.filed_iff]
      constructor
      · rintro (rfl | ⟨k, hk⟩)
        · exact ⟨key, (h.label?_filled hcontent).mpr (.inr ⟨rfl, rfl, rfl⟩)⟩
        · exact ⟨k, (h.label?_filled hcontent).mpr (.inl hk)⟩
      · rintro ⟨k, hk⟩
        exact ((h.label?_filled hcontent).mp hk).symm.imp And.left fun hk => ⟨k, hk⟩
    · next hhash =>
      rw [h.filed_iff]
      refine exists_congr fun k => ?_
      rw [h.label?_filled hcontent]
      exact ⟨.inl, fun hk => hk.resolve_right fun hk => hhash hk.2.1.symm⟩
  hashed := fun {s hash k} hs => by
    rw [digest, hdraws]
    rcases (h.label?_filled hcontent).mp hs with hs | ⟨-, rfl, rfl⟩
    · exact h.hashed hs
    · rfl
  distinct := fun {s s' hash k k'} hs hs' hkey => by
    -- of two slots with one key at most one is new, and no old slot holds the key
    rcases (h.label?_filled hcontent).mp hs with hs | ⟨rfl, rfl, rfl⟩
    · rcases (h.label?_filled hcontent).mp hs' with hs' | ⟨rfl, rfl, rfl⟩
      · exact h.distinct hs hs' hkey
      · exact absurd ⟨k, hs, hkey⟩ (hnew s)
    · rcases (h.label?_filled hcontent).mp hs' with hs' | ⟨rfl, -, -⟩
      · exact absurd ⟨k', hs', BEq.symm hkey⟩ (hnew s')
      · rfl

/-- A slot that is there gets a value and has been used. -/
theorem update_eq {stored : K} {old : V} (h : f.Sound (as ++ s :: bs))
    (hc : f.content s = some (hash, stored, old)) (hkey : (stored == key) = true) (value : V) :
    ∃ moved f', (f.setValue s value >>= fun f => f.touch s) = .ok (moved, f') ∧
      f.Inserts (as ++ s :: bs) key value (some (old, moved)) f' ∧ f'.draws = f.draws ∧
        f'.byAccess = f.byAccess := by
  obtain ⟨f₁, h₁, hsound₁, hdraws₁, haccess₁, hcontent₁⟩ := h.setValue_eq hc value
  obtain ⟨f', h', halike, hsound'⟩ := hsound₁.touch_eq
  rw [haccess₁] at h' hsound'
  refine ⟨_, f', ?_, .updated rfl hc hkey hsound' (halike.content.trans hcontent₁)
    (halike.supply.trans (setValue_supply h₁)), halike.draws.trans hdraws₁, halike.byAccess.trans haccess₁⟩
  rw [h₁, Checked.ok_bind, h']

/-- There is one node more. -/
theorem enlist_size (h : f.Sound ss) : (f.enlist key value).2.size = f.size + 1 := by
  have hnone : ¬(f.node? f.fresh).isSome := fun hs => h.vacant (h.mem_iff.mpr (by simpa [content] using hs))
  exact (Backing.occupied_fill f.nodes f.fresh _).trans (if_neg hnone)

/-- The order does not see the slot that was filled. -/
theorem enlist_lists (h : f.Sound ss) : (f.enlist key value).2.Lists ss :=
  h.lists.of_nodes rfl rfl fun k hk => by
    have hne : f.fresh ≠ k := fun heq => h.vacant (heq ▸ hk)
    exact (setNode_node? _ k).trans (if_neg hne)

/-- A new key is put at the end of the order. -/
theorem add_eq [EquivBEq K] (h : f.Sound ss) (hnew : ∀ s, ¬f.Holds key s) (value : V) :
    ∃ f', (f.enlist key value).2.linkLast f.fresh = .ok f' ∧ f.Inserts ss key value none f' ∧
      f'.draws = f.draws ∧ f'.byAccess = f.byAccess := by
  have hheld : ((f.enlist key value).2.content f.fresh).isSome := by
    rw [enlist_content, Function.update_self]
    rfl
  obtain ⟨f', h', halike, hlists⟩ := h.enlist_lists.linkLast hheld h.vacant
  have hcontent := halike.content.trans (f.enlist_content key value)
  have hfiled (hash : UInt64) : f'.filed hash = (f.enlist key value).2.filed hash := by
    rw [filed, halike.index]
    rfl
  refine ⟨f', h', .added hnew ?_ hcontent halike.supply, halike.draws, halike.byAccess⟩
  exact h.enlisted hnew hlists hcontent (halike.size.trans h.enlist_size) halike.supply halike.draws
    fun hash => hfiled hash ▸ f.enlist_filed key value hash

/-- Inserting succeeds: an entry is added at the end, or the one under the key gets the value. -/
theorem insert_eq [EquivBEq K] (h : f.Sound ss) (key : K) (value : V) :
    ∃ r f', f.insert key value = .ok (r, f') ∧ f.Inserts ss key value r f' ∧ f'.draws = f.draws ∧
      f'.byAccess = f.byAccess := by
  obtain ⟨r, hr, hfinds⟩ := h.find_finds key
  rw [insert, hr, Checked.ok_bind]
  cases hfinds with
  | @found s hash stored old hc hkey =>
      obtain ⟨as, bs, rfl⟩ := List.append_of_mem (h.mem_of_content hc)
      obtain ⟨n, hn, -, -, -, rfl, -⟩ := node_eq hc
      obtain ⟨moved, f', h', hinserts, hdraws, haccess⟩ := h.update_eq hc hkey value
      refine ⟨_, f', ?_, hinserts, hdraws, haccess⟩
      obtain ⟨f₁, h₁, h'⟩ := Checked.bind_eq_ok h'
      dsimp only
      rw [hn, Checked.ok_bind, h₁, Checked.ok_bind, h']
      rfl
  | missed hnew =>
      obtain ⟨f', h', hinserts, hdraws, haccess⟩ := h.add_eq hnew value
      refine ⟨none, f', ?_, hinserts, hdraws, haccess⟩
      show ((f.enlist key value).2.linkLast f.fresh >>= _) = _
      rw [h']
      rfl

end Sound

end Fallback

end DenseHash
