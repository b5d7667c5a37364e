import DenseHash.Proofs.Store.Sound

/-!
# The same places

Two stores have the same *places* if a slot means the same in both: the same is read there, and the same slots come
before and after it. A table's places depend on its order and on the keys and values at its indices, and on nothing
else. Its buckets, its links and its hashes do not matter.
-/

namespace DenseHash

namespace Store

variable [Backing] {K V : Type}

/-- Every slot means the same in both. -/
structure SamePlaces (s s' : Store K V) : Prop where
  size : s'.size = s.size
  first : s'.first = s.first
  last : s'.last = s.last
  next : ∀ slot, s'.next slot = s.next slot
  prev : ∀ slot, s'.prev slot = s.prev slot
  pair : ∀ slot, s'.pair slot = s.pair slot

namespace SamePlaces

theorem refl (s : Store K V) : s.SamePlaces s := ⟨rfl, rfl, rfl, fun _ => rfl, fun _ => rfl, fun _ => rfl⟩

/-- Tables with the same entries in the same order have the same places. -/
theorem of_tables {t u : Table K V} (hpairs : u.pair? = t.pair?) (horder : u.order = t.order) :
    (Store.table t).SamePlaces (.table u) := by
  have hsize : u.size = t.size := by
    refine eq_of_forall_lt_iff fun i => ?_
    rw [← Table.pair?_isSome_iff, hpairs, Table.pair?_isSome_iff]
  refine ⟨hsize, ?_, ?_, fun slot => ?_, fun slot => ?_, fun slot => ?_⟩
  · rw [Store.first, Store.first, Table.first, Table.first, horder, hsize]
  · rw [Store.last, Store.last, Table.last, Table.last, horder, hsize]
  · cases slot with
    | index i => rw [Store.next, Store.next, Table.next, Table.next, horder, hsize]
    | node k => rfl
  · cases slot with
    | index i => rw [Store.prev, Store.prev, Table.prev, Table.prev, horder]
    | node k => rfl
  · cases slot with
    | node k => rfl
    | index i =>
        cases hp : t.pair? i with
        | some p =>
            have hread : (Store.table t).held (.index i) = some p := hp
            have hread' : (Store.table u).held (.index i) = some p := (congrFun hpairs i).trans hp
            rw [pair_eq hread, pair_eq hread']
        | none =>
            -- neither has an entry there, and both say so
            have hi : t.entries.size ≤ i :=
              Nat.not_lt.mp fun hi => Option.isSome_iff_ne_none.mp (Table.pair?_isSome_iff.mpr hi) hp
            rw [Store.pair, Store.pair, Table.entry, Table.entry, hsize, Array.getElem?_eq_none hi,
              Array.getElem?_eq_none (hsize.trans_le hi)]

end SamePlaces

end Store

/-- Rebuilding buckets leaves every place as it is. -/
theorem Table.Alike.samePlaces [Backing] {K V : Type} {t t' : Table K V} (h : t.Alike t') :
    (Store.table t).SamePlaces (.table t') :=
  .of_tables (funext fun i => by rw [Table.pair?, Table.pair?, h.content]) h.order

end DenseHash
