import DenseHash.Fault

/-!
# Walking along links

Chains of buckets and traversal orders are followed link by link. A walk over `n` entries that meets no entry
twice ends within `n` steps, so a walk is given `n` as its fuel, and one that has not ended by then shows
damage.
-/

namespace DenseHash

/-- The places met from one on, going step by step; `damage` if there are more than `fuel` of them. -/
def walk {α : Type} (damage : Corruption) (step : α → Checked (Option α)) :
    Nat → Option α → Checked (List α)
  | _, none => .ok []
  | 0, some _ => damage.raise
  | fuel + 1, some a => do
    let upcoming ← step a
    let rest ← walk damage step fuel upcoming
    pure (a :: rest)

/-- A walk whose steps lead from each element of a list to the next one lists it. -/
theorem walk_eq {α : Type} {damage : Corruption} {step : α → Checked (Option α)} {as : List α}
    (h : ∀ bs a cs, as = bs ++ a :: cs → step a = .ok cs.head?) {fuel : Nat}
    (hfuel : as.length ≤ fuel) : walk damage step fuel as.head? = .ok as := by
  induction as generalizing fuel with
  | nil => cases fuel <;> rfl
  | cons a as ih =>
      obtain ⟨fuel, rfl⟩ : ∃ n, fuel = n + 1 := by
        refine ⟨fuel - 1, ?_⟩
        simp only [List.length_cons] at hfuel
        omega
      have hrest : walk damage step fuel as.head? = .ok as :=
        ih (fun bs b cs heq => h (a :: bs) b cs (by rw [heq, List.cons_append]))
          (by simpa using hfuel)
      show (step a >>= fun up => walk damage step fuel up >>= fun rest => pure (a :: rest)) = _
      rw [h [] a as rfl]
      show (walk damage step fuel as.head? >>= fun rest => pure (a :: rest)) = _
      rw [hrest]
      rfl

end DenseHash
