import DenseHash.Proofs.Fallback.Sound
import DenseHash.Proofs.Gather

/-!
# Reading a fallback off

A sound fallback tells its entries in order, whether they are removed one after the other or referred to.
-/

namespace DenseHash

namespace Fallback

variable [Backing] {K V : Type} {f : Fallback K V} {ss : List Backing.Handle}

/-- Removing the nodes that were met leaves the others. -/
theorem Lists.unthread_eq {as bs : List Backing.Handle} (h : f.Lists (as ++ bs)) {nodes : Backing.Nodes (Node K V)}
    (hnodes : ∀ s ∈ bs, Backing.node? nodes s = f.node? s) {fuel : Nat} (hfuel : bs.length ≤ fuel) :
    unthread fuel bs.head? nodes = .ok (bs.filterMap f.pair?) := by
  induction bs generalizing as nodes fuel with
  | nil => cases fuel <;> rfl
  | cons s bs ih =>
      obtain ⟨fuel, rfl⟩ : ∃ n, fuel = n + 1 := ⟨fuel - 1, by rw [List.length_cons] at hfuel; omega⟩
      obtain ⟨n, -, hget, hc, hnext, -⟩ := h.node_eq
      have hnot : s ∉ bs := by
        have hnodup := (List.nodup_append.mp h.ring.nodup).2.1
        exact (List.nodup_cons.mp hnodup).1
      have hp : f.pair? s = some (n.key, n.value) := by
        rw [pair?, hc]
        rfl
      have hlists : f.Lists ((as ++ [s]) ++ bs) := by simpa using h
      have hrest : unthread fuel bs.head? (Backing.vacate nodes s) = .ok (bs.filterMap f.pair?) := by
        refine ih hlists (fun s' hs' => ?_) (Nat.le_of_succ_le_succ hfuel)
        have hne : s ≠ s' := fun heq => hnot (heq ▸ hs')
        rw [Backing.node?_vacate, if_neg hne]
        exact hnodes s' (List.mem_cons_of_mem s hs')
      rw [List.head?_cons, unthread, hnodes s List.mem_cons_self, hget]
      dsimp only
      rw [hnext, hrest, List.filterMap_cons_some hp]
      rfl

/-- Taking a reference affects no other slot. -/
theorem takeReference_eq {slot a : Backing.Handle} {nodes : Backing.Nodes (Node K V)}
    (h : ((Backing.node? nodes slot).map fun _ => slot) = some a) :
    ∃ nodes', takeReference slot nodes = .ok (a, nodes') ∧
      ∀ j ≠ slot, ((Backing.node? nodes' j).map fun _ => j) = (Backing.node? nodes j).map fun _ => j := by
  obtain ⟨n, hn, rfl⟩ := Option.map_eq_some_iff.mp h
  refine ⟨Backing.vacate nodes slot, ?_, fun j hj => ?_⟩
  · rw [takeReference, hn]
  · rw [Backing.node?_vacate, if_neg (Ne.symm hj)]

variable [BEq K]

/-- The references are those of the order. -/
theorem Sound.references_eq (h : f.Sound ss) : f.references = .ok ss := by
  have hall : ∀ s ∈ ss, ((Backing.node? f.nodes s).map fun _ => s) = some s := by
    intro s hs
    obtain ⟨c, hc⟩ := Option.isSome_iff_exists.mp (h.mem_iff.mp hs)
    obtain ⟨n, hn, -⟩ := Option.map_eq_some_iff.mp hc
    rw [show Backing.node? f.nodes s = some n from hn]
    rfl
  have hgather := gather_eq (g := fun (nodes : Backing.Nodes (Node K V)) s => (Backing.node? nodes s).map fun _ => s)
    (fun h => takeReference_eq h) h.nodup fun s hs => Option.isSome_iff_exists.mpr ⟨s, hall s hs⟩
  rw [references, h.lists.slots_eq (Nat.le_of_eq h.count.symm), Checked.ok_bind, hgather, List.filterMap_congr hall,
    List.filterMap_some]

/-- The entries in order: each node that is removed tells the next one. -/
theorem Sound.pairs_eq (h : f.Sound ss) : f.pairs = .ok (ss.filterMap f.pair?) := by
  have hlists : f.Lists ([] ++ ss) := h.lists
  rw [pairs, h.lists.first_eq]
  exact hlists.unthread_eq (fun s _ => rfl) (Nat.le_of_eq h.count.symm)

end Fallback

end DenseHash
