import DenseHash.Proofs.Entries
import DenseHash.Proofs.Fallback.Update

/-!
# Removing from a fallback, and filling one

A removal vacates a slot and nothing else moves. Filling a fallback with entries whose keys differ gives every
one a slot of its own, so the entries come out in the order in which they went in.
-/

namespace DenseHash

namespace Fallback

variable [Backing] {K V : Type}

/-! ## Removing -/

/-- A slot is given up: it has no node, it may be given out under another name, and the index is another one. -/
def vacated (f : Fallback K V) (s : Backing.Handle) (index : Backing.Index) : Fallback K V :=
  { f with nodes := Backing.vacate f.nodes s, supply := Backing.release f.supply s, index }

section Vacated

variable {f : Fallback K V} {s : Backing.Handle} {index : Backing.Index}

/-- A slot that was vacated has no node, and the other slots have theirs. -/
theorem vacated_node? (k : Backing.Handle) : (f.vacated s index).node? k = if s = k then none else f.node? k :=
  Backing.node?_vacate f.nodes s k

/-- Only that slot's content is gone. -/
theorem vacated_content : (f.vacated s index).content = Function.update f.content s none := by
  funext k
  rw [content, vacated_node?]
  by_cases hsk : s = k
  · rw [if_pos hsk, ← hsk, Function.update_self]
    rfl
  · rw [if_neg hsk, Function.update_of_ne (Ne.symm hsk)]
    rfl

/-- There is one node less. -/
theorem vacated_size {c : UInt64 × K × V} (hc : f.content s = some c) : (f.vacated s index).size = f.size - 1 := by
  have hsome : (f.node? s).isSome := by
    rw [content] at hc
    rw [← Option.isSome_map, hc]
    rfl
  exact (Backing.occupied_vacate f.nodes s).trans (if_pos hsome)

/-- The order does not see a slot that it does not visit. -/
theorem vacated_lists {ss : List Backing.Handle} (h : f.Lists ss) (hs : s ∉ ss) : (f.vacated s index).Lists ss :=
  h.of_nodes rfl rfl fun k hk => by
    have hsk : s ≠ k := fun heq => hs (heq ▸ hk)
    rw [vacated_node?, if_neg hsk]

end Vacated

/-- All labels stay but the one of the slot that was given up. -/
theorem label?_vacated {f f' : Fallback K V} {s : Backing.Handle}
    (hcontent : f'.content = Function.update f.content s none)
    {k : Backing.Handle} {label : UInt64 × K} : f'.label? k = some label ↔ k ≠ s ∧ f.label? k = some label := by
  rw [label?, hcontent]
  by_cases hks : k = s
  · rw [hks, Function.update_self]
    simp
  · rw [Function.update_of_ne hks]
    exact ⟨fun hk => ⟨hks, hk⟩, And.right⟩

variable [BEq K]

namespace Sound

variable {f : Fallback K V} {ss as bs : List Backing.Handle} {s : Backing.Handle} {key : K} {value : V} {hash : UInt64}

/-- A slot is vacated: it is in order, nodes and index no more. -/
theorem unlist {f' : Fallback K V} (h : f.Sound (as ++ s :: bs)) (hlists : f'.Lists (as ++ bs))
    (hc : f.content s = some (hash, key, value)) (hcontent : f'.content = Function.update f.content s none)
    (hsize : f'.size = f.size - 1) (hsupply : f'.supply = Backing.release f.supply s) (hdraws : f'.draws = f.draws)
    (hfiled : ∀ hash', (f'.filed hash').Perm
      (if hash = hash' then (f.filed hash').erase s else f.filed hash')) :
    f'.Sound (as ++ bs) where
  lists := hlists
  listed := fun {k label} hk => by
    obtain ⟨hks, hk⟩ := (label?_vacated hcontent).mp hk
    exact (List.mem_cons.mp (List.perm_middle.mem_iff.mp (h.listed hk))).resolve_left hks
  count := by
    rw [hsize, h.count]
    simp
  spent := fun k hk => by
    rw [hsupply]
    exact Backing.spent_release s (h.spent k (List.perm_middle.mem_iff.mpr (List.mem_cons_of_mem s hk)))
  filed_nodup := fun hash' => by
    rw [(hfiled hash').nodup_iff]
    split
    · exact (h.filed_nodup hash').erase s
    · exact h.filed_nodup hash'
  filed_iff := fun hash' k => by
    rw [(hfiled hash').mem_iff]
    split
    · rw [(h.filed_nodup hash').mem_erase_iff, h.filed_iff]
      simp [label?_vacated hcontent]
    · next hne =>
      rw [h.filed_iff]
      refine exists_congr fun key' => ?_
      rw [label?_vacated hcontent]
      -- the slot was filed under its own hash only
      refine ⟨fun hk => ⟨fun hks => hne ?_, hk⟩, And.right⟩
      have hlabel : f.label? s = some (hash, key) := label?_eq_some.mpr ⟨value, hc⟩
      exact (Prod.mk.inj (Option.some.inj (hlabel.symm.trans (hks ▸ hk)))).1
  hashed := fun hk => by
    rw [digest, hdraws]
    exact h.hashed ((label?_vacated hcontent).mp hk).2
  distinct := fun hk hk' hkey =>
    h.distinct ((label?_vacated hcontent).mp hk).2 ((label?_vacated hcontent).mp hk').2 hkey

/-- The index finds a slot under the hash of its node, and gives it up. -/
theorem unfile_eq (h : f.Sound ss) (hc : f.content s = some (hash, key, value)) :
    ∃ index, Backing.unfile f.index hash s = some index ∧ ∀ hash', (Backing.filed index hash').Perm
      (if hash = hash' then (f.filed hash').erase s else f.filed hash') := by
  have hlabel : f.label? s = some (hash, key) := label?_eq_some.mpr ⟨value, hc⟩
  refine Backing.exists_unfile ((h.filed_iff hash s).mpr ⟨key, hlabel⟩) fun hash' hmem => ?_
  obtain ⟨key', hlabel'⟩ := (h.filed_iff hash' s).mp hmem
  exact (Prod.mk.inj (Option.some.inj (hlabel'.symm.trans hlabel))).1

/-- Removing at a slot in the order gives its entry, takes it out of the order, and leaves everything else. -/
theorem removeSlot_eq (h : f.Sound (as ++ s :: bs)) (hc : f.content s = some (hash, key, value)) :
    ∃ f', f.removeSlot s = .ok ((key, value), f') ∧ f'.Sound (as ++ bs) ∧ f'.draws = f.draws ∧
      f'.byAccess = f.byAccess ∧ f'.content = Function.update f.content s none := by
  obtain ⟨f₁, h₁, halike, hlists⟩ := h.lists.unlink
  have hc₁ : f₁.content s = some (hash, key, value) := halike.content ▸ hc
  obtain ⟨n, hn, -, rfl, rfl, rfl, -⟩ := node_eq hc₁
  have hnot : s ∉ as ++ bs := (List.nodup_middle.mp h.nodup).notMem
  -- unlinking touches the order only, so the files are those of `f`
  obtain ⟨index, hunfile, hfiled⟩ := h.unfile_eq hc
  have hcontent : (f₁.vacated s index).content = Function.update f.content s none := by
    rw [vacated_content, halike.content]
  refine ⟨f₁.vacated s index, ?_, h.unlist (vacated_lists hlists hnot) hc hcontent ?_ ?_ halike.draws hfiled,
    halike.draws, halike.byAccess, hcontent⟩
  · rw [← halike.index] at hunfile
    rw [removeSlot, h₁, Checked.ok_bind, hn, Checked.ok_bind]
    dsimp only
    rw [hunfile]
    rfl
  · rw [vacated_size hc₁, halike.size]
  · rw [← halike.supply]
    rfl

/-- A removal gives the slot back. -/
theorem removeSlot_supply {pair : K × V} {f' : Fallback K V} (h : f.Sound (as ++ s :: bs))
    (hok : f.removeSlot s = .ok (pair, f')) : f'.supply = Backing.release f.supply s := by
  obtain ⟨f₁, h₁, halike, -⟩ := h.lists.unlink
  rw [removeSlot, h₁, Checked.ok_bind] at hok
  obtain ⟨n, -, hok⟩ := Checked.bind_eq_ok hok
  dsimp only at hok
  split at hok
  · rw [← (Prod.mk.inj (Except.ok.inj hok)).2, ← halike.supply]
  · cases hok

end Sound

/-! ## Filling -/

/-- No insertion is refused, whatever the keys are, and the fallback stays sound. -/
theorem Sound.exists_insertAll [EquivBEq K] {f : Fallback K V} {ss : List Backing.Handle} (h : f.Sound ss)
    (ps : List (K × V)) : ∃ f' ss', insertAll ps f = .ok f' ∧ f'.Sound ss' ∧ f'.draws = f.draws := by
  induction ps generalizing f ss with
  | nil => exact ⟨f, ss, rfl, h, rfl⟩
  | cons p ps ih =>
      obtain ⟨key, value⟩ := p
      obtain ⟨r, f₁, hinsert, hinserts, hdraws, -⟩ := h.insert_eq key value
      obtain ⟨ss₁, hsound⟩ := hinserts.exists_sound
      obtain ⟨f', ss', hall, hsound', hdraws'⟩ := ih hsound
      refine ⟨f', ss', ?_, hsound', hdraws'.trans hdraws⟩
      rw [insertAll, hinsert]
      exact hall

/-- Entries whose keys differ from each other and from those that are there come last, in their order. -/
theorem Sound.insertAll_eq [EquivBEq K] {f : Fallback K V} {ss : List Backing.Handle} (h : f.Sound ss)
    (ps : List (K × V)) (hd : DistinctKeys (ss.filterMap f.pair? ++ ps)) :
    ∃ f' ss', insertAll ps f = .ok f' ∧ f'.Sound ss' ∧
      ss'.filterMap f'.pair? = ss.filterMap f.pair? ++ ps ∧ f'.draws = f.draws ∧
      f'.byAccess = f.byAccess := by
  induction ps generalizing f ss with
  | nil => exact ⟨f, ss, rfl, h, (List.append_nil _).symm, rfl, rfl⟩
  | cons p ps ih =>
      obtain ⟨key, value⟩ := p
      obtain ⟨r, f₁, hinsert, hinserts, hdraws, haccess⟩ := h.insert_eq key value
      cases hinserts with
      | updated split found same sound content supply =>
          -- the key is not there, so nothing is updated
          have hmem : (_, _) ∈ ss.filterMap f.pair? := List.mem_filterMap.mpr
            ⟨_, h.mem_of_content found, by rw [pair?, found]; rfl⟩
          have hne := (List.pairwise_append.mp hd).2.2 _ hmem _ List.mem_cons_self
          exact absurd (hne.symm.trans same) Bool.false_ne_true
      | added absent sound content supply =>
          have hpairs : (ss ++ [f.fresh]).filterMap f₁.pair? = ss.filterMap f.pair? ++ [(key, value)] := by
            rw [pair?_update content]
            exact filterMap_update_append_singleton h.vacant _
          have hd₁ : DistinctKeys ((ss ++ [f.fresh]).filterMap f₁.pair? ++ ps) := by
            rw [hpairs, List.append_assoc]
            exact hd
          obtain ⟨f', ss', hall, hsound', hpairs', hdraws', haccess'⟩ := ih sound hd₁
          refine ⟨f', ss', ?_, hsound', ?_, hdraws'.trans hdraws, haccess'.trans haccess⟩
          · rw [insertAll, hinsert]
            exact hall
          · rw [hpairs', hpairs, List.append_assoc]
            rfl

end Fallback

end DenseHash
