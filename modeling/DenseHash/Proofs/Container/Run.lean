import DenseHash.Proofs.Container.Apply

/-!
# Runs of operations

A listing does operations one after the other as a container does. The one thing that a listing cannot tell is
when the flood guard steps in, after which removal closes up in place: `Listing.runSwitching n` is the run of a
listing whose container is in its fallback after `n` operations. Every run of a sound container is such a run,
for some `n`.

* **`Listing.run`** suits containers that never remove packed.
* **`Container.Iterates`** says that iteration shows certain entries, from either end.
-/

namespace DenseHash

/-! ## Runs of a listing -/

namespace Listing

variable {K V : Type}

/-- Removal is packed as before, or no longer. -/
def packedWhile (still : Bool) (l : Listing K V) : Listing K V := { l with packed := l.packed && still }

/-- Nothing changes while the entries are in the table, or where removal was never packed. -/
theorem packedWhile_self {still : Bool} {l : Listing K V} (h : l.packed = true → still = true) :
    l.packedWhile still = l := by
  obtain ⟨pairs, packed, byAccess⟩ := l
  cases packed with
  | false => rfl
  | true =>
      obtain rfl : still = true := h rfl
      rfl

theorem packedWhile_packedWhile (still : Bool) (l : Listing K V) :
    (l.packedWhile still).packedWhile still = l.packedWhile still :=
  packedWhile_self fun h => (Bool.and_eq_true_iff.mp h).2

variable [BEq K]

/-- Does operations one after the other and tells their answers. -/
def run : List (Operation K V) → Listing K V → List (Answer K V) × Listing K V
  | [], l => ([], l)
  | op :: ops, l =>
    let (a, l) := l.apply op
    let (as, l) := run ops l
    (a :: as, l)

/-- Does operations one after the other; after the first `n`, removal is no longer packed. -/
def runSwitching : Nat → List (Operation K V) → Listing K V → List (Answer K V) × Listing K V
  | n, [], l => ([], l.packedWhile (0 < n))
  | n, op :: ops, l =>
    let (a, l) := (l.packedWhile (0 < n)).apply op
    let (as, l) := runSwitching (n - 1) ops l
    (a :: as, l)

variable {l : Listing K V}

/-- No operation changes how a listing removes and uses. -/
theorem sameKind_apply (op : Operation K V) (l : Listing K V) : l.SameKind (l.apply op).2 := by
  cases op with
  | insert key value => exact sameKind_insert l key value
  | get key =>
      rw [apply]
      cases l.locate? key <;> exact ⟨rfl, rfl⟩
  | modify key change =>
      rw [apply]
      cases l.locate? key <;> exact ⟨rfl, rfl⟩
  | remove key =>
      rw [apply]
      cases l.locate? key with
      | none => exact .refl l
      | some found => exact sameKind_removeAt l found.1
  | popFirst => exact sameKind_removeAt l 0
  | popLast => exact sameKind_removeAt l (l.pairs.length - 1)
  | extend hint pairs => exact sameKind_insertAll pairs l
  | _ => exact ⟨rfl, rfl⟩

/-- A listing that never removes packed does not see a switch. -/
theorem runSwitching_eq_run (h : l.packed = false) (n : Nat) (ops : List (Operation K V)) :
    l.runSwitching n ops = l.run ops := by
  have hself : l.packedWhile (0 < n) = l := packedWhile_self fun hp => nomatch h.symm.trans hp
  induction ops generalizing n l with
  | nil => rw [runSwitching, hself, run]
  | cons op ops ih =>
      have hnext : (l.apply op).2.packed = false := (sameKind_apply op l).packed.trans h
      rw [runSwitching, hself, run]
      dsimp only
      rw [ih hnext (n - 1) (packedWhile_self fun hp => nomatch hnext.symm.trans hp)]

/-- The answer of an operation in the middle of a run. -/
theorem runSwitching_getElem? (n : Nat) (before : List (Operation K V)) (op : Operation K V)
    (after : List (Operation K V)) (l : Listing K V) :
    (l.runSwitching n (before ++ op :: after)).1[before.length]? =
      some ((l.runSwitching n before).2.apply op).1 := by
  induction before generalizing n l with
  | nil => rfl
  | cons op' before ih => exact ih (n - 1) _

/-- The entries after one more operation. -/
theorem runSwitching_concat (n : Nat) (before : List (Operation K V)) (op : Operation K V) (l : Listing K V) :
    (l.runSwitching n (before ++ [op])).2.pairs = ((l.runSwitching n before).2.apply op).2.pairs := by
  induction before generalizing n l with
  | nil => rfl
  | cons op' before ih => exact ih (n - 1) _

/-- What is no longer packed at the start need not be so before. -/
theorem runSwitching_packedWhile (n : Nat) (ops : List (Operation K V)) (l : Listing K V) :
    (l.packedWhile (0 < n)).runSwitching n ops = l.runSwitching n ops := by
  cases ops with
  | nil => rw [runSwitching, packedWhile_packedWhile, runSwitching]
  | cons op ops => rw [runSwitching, packedWhile_packedWhile, runSwitching]

end Listing

/-! ## Iteration from either end -/

namespace Container

variable [Backing] {K V : Type}

/-- Iteration shows these entries, from either end and from both. -/
structure Iterates (c : Container K V) (ps : List (K × V)) : Prop where
  size : c.size = ps.length
  forward : c.toList = .ok ps
  backward : c.iter.run (List.replicate ps.length .back) = .ok (ps.reverse.map fun p => .item (some p))
  script : ∀ moves, c.iter.run moves = .ok (Script.read moves ps)

omit [Backing] in
/-- Taking all items from the back shows them in reverse. -/
theorem read_replicate_back {α : Type} (as : List α) :
    Script.read (List.replicate as.length .back) as.reverse = as.map fun a => .item (some a) := by
  induction as with
  | nil => rfl
  | cons a as ih =>
      rw [List.length_cons, List.replicate_succ, Script.read, List.reverse_cons, List.getLast?_concat,
        List.dropLast_concat, ih]
      rfl

/-! ## The switch -/

/-- A container that is not in its fallback may remove packed; one that is does not. -/
theorem packedWhile_listingOf {n : Nat} {c : Container K V} (hn : c.isFallback = decide (n ≤ 0))
    (ps : List (K × V)) :
    (c.listingOf ps).packedWhile (0 < n) = c.listingOf ps := by
  refine Listing.packedWhile_self fun hp => ?_
  have hboth : c.store.isPacked = (c.store.isPacked && !c.isFallback) := isPacked_of_sameKind (.refl _)
  have hnot : c.isFallback = false := by
    rw [show c.store.isPacked = true from hp] at hboth
    simpa using hboth
  rw [hnot] at hn
  exact decide_eq_true (Nat.pos_of_ne_zero fun hzero => nomatch (hzero ▸ hn))

/-- When a container switches, if it switches after `m` operations once the next one is done. -/
theorem exists_switch {m : Nat} (c : Container K V) (hm : c.isFallback = true → m = 0) :
    ∃ n, c.isFallback = decide (n ≤ 0) ∧ n - 1 = m := by
  cases hc : c.isFallback with
  | false => exact ⟨m + 1, rfl, rfl⟩
  | true => exact ⟨0, rfl, (hm hc).symm⟩

variable [BEq K] {c c' : Container K V} {slots : List Slot} {ps : List (K × V)}

/-- A container that shows entries hands them out from either end. -/
theorem Shows.iterates (h : c.Shows slots ps) : c.Iterates ps where
  size := h.size_eq
  forward := h.toList_eq
  backward := by
    have hread := read_replicate_back ps.reverse
    rw [List.reverse_reverse, List.length_reverse] at hread
    rw [h.iter_run_eq, hread]
  script := h.iter_run_eq

/-! ## Runs of a container -/

/-- A run that gave a result began with an operation that did. -/
theorem run_cons_eq_ok {op : Operation K V} {ops : List (Operation K V)} {answers : List (Answer K V)}
    (h : (c.run (op :: ops)).result = .ok answers) :
    ∃ a rest, (c.apply op).result = .ok a ∧ ((c.apply op).state.run ops).result = .ok rest ∧
      answers = a :: rest := by
  obtain ⟨a, ha, hrest, -⟩ := Reply.andThen_result_eq_ok h
  rw [Reply.map_result] at hrest
  cases hrun : ((c.apply op).state.run ops).result with
  | error f =>
      rw [hrun] at hrest
      exact nomatch hrest
  | ok rest =>
      rw [hrun] at hrest
      exact ⟨a, rest, ha, rfl, (Except.ok.inj hrest).symm⟩

/-- A run whose first operation returns goes on from what that left. -/
theorem run_cons_of_ok {op : Operation K V} {a : Answer K V} (h : (c.apply op).result = .ok a)
    (ops : List (Operation K V)) :
    c.run (op :: ops) = (((c.apply op).state.run ops).map fun as => a :: as).after (c.apply op).events := by
  rw [run, Reply.andThen_of_ok h]

/-- A run that gave a result began with a run that did. -/
theorem run_append_eq_ok {before after : List (Operation K V)} {answers : List (Answer K V)}
    (h : (c.run (before ++ after)).result = .ok answers) :
    ∃ first, (c.run before).result = .ok first ∧ first = answers.take before.length := by
  induction before generalizing c answers with
  | nil => exact ⟨[], rfl, rfl⟩
  | cons op before ih =>
      obtain ⟨a, rest, ha, hrest, rfl⟩ := run_cons_eq_ok h
      obtain ⟨first, hfirst, rfl⟩ := ih hrest
      refine ⟨a :: rest.take before.length, ?_, rfl⟩
      rw [run_cons_of_ok ha, Reply.after_result, Reply.map_result, hfirst]
      rfl

/-- What a container answered is what its listing answers, and what it shows then is what the listing became. -/
def Follows (c : Container K V) (r : List (Answer K V) × Listing K V) (answers : List (Answer K V))
    (c' : Container K V) : Prop :=
  answers = r.1 ∧ ∃ slots ps, c'.Shows slots ps ∧ c'.listingOf ps = r.2 ∧ c'.hashing = c.hashing

/-- After an operation, the container shows what the listing became; it may be in its fallback. -/
theorem listingOf_of_answers {op : Operation K V} {a : Answer K V} (h : Answers c slots ps op a c') :
    c'.listingOf ((c.listingOf ps).apply op).2.pairs =
      ((c.listingOf ps).apply op).2.packedWhile !c'.isFallback := by
  obtain ⟨-, slots', -, hev⟩ := h
  obtain ⟨hpacked, haccess⟩ := Listing.sameKind_apply op (c.listingOf ps)
  rw [listingOf, Listing.packedWhile, hev.isPacked, hev.byAccess, hpacked, haccess]
  rfl

/-- A run of nothing. -/
theorem Shows.follows_nil {n : Nat} (h : c.Shows slots ps) (hn : c.isFallback = decide (n ≤ 0)) :
    c.Follows ((c.listingOf ps).runSwitching n []) [] c :=
  ⟨rfl, slots, ps, h, by rw [Listing.runSwitching, packedWhile_listingOf hn], rfl⟩

variable [EquivBEq K]

/-- Every run follows a run of the listing. The switch comes after the operation in which the flood guard
    steps in, for all runs that begin in the same way. -/
theorem Shows.run_meets (h : c.Shows slots ps) (hr : c.hashing.Respects) (ops : List (Operation K V)) :
    ∃ n, ∀ before after, before ++ after = ops → (c.run before).Meets fun answers c' =>
      c'.isFallback = decide (n ≤ before.length) ∧
        c.Follows ((c.listingOf ps).runSwitching n before) answers c' := by
  induction ops generalizing c slots ps with
  | nil =>
      obtain ⟨n, hn, -⟩ := c.exists_switch fun _ => rfl
      refine ⟨n, fun before after hsplit => ?_⟩
      obtain ⟨rfl, -⟩ := List.append_eq_nil_iff.mp hsplit
      exact Reply.meets_ok ⟨hn, h.follows_nil hn⟩
  | cons op ops ih =>
      have hmeets := h.apply_meets hr op
      cases ha : (c.apply op).result with
      | error f =>
          -- nothing comes after, so the switch may be put anywhere
          obtain ⟨n, hn, -⟩ := c.exists_switch fun _ => rfl
          refine ⟨n, fun before after hsplit => ?_⟩
          cases before with
          | nil => exact Reply.meets_ok ⟨hn, h.follows_nil hn⟩
          | cons op' before =>
              obtain ⟨rfl, -⟩ := List.cons.inj hsplit
              refine .mk_error (f := f) ?_ (hmeets.of_error ha)
              rw [run, Reply.andThen_of_error ha]
      | ok a =>
          have hanswers := hmeets.of_ok ha
          have hlisting := listingOf_of_answers hanswers
          obtain ⟨hanswer, slots₁, hshows, hev⟩ := hanswers
          obtain ⟨m, hrest⟩ := ih hshows (hev.hashing ▸ hr)
          have hm : (c.apply op).state.isFallback = decide (m ≤ 0) := (hrest [] ops rfl).1
          obtain ⟨n, hn, hpred⟩ := c.exists_switch (m := m) fun hc => by
            rw [hev.isFallback hc] at hm
            exact Nat.le_zero.mp (of_decide_eq_true hm.symm)
          refine ⟨n, fun before after hsplit => ?_⟩
          cases before with
          | nil => exact Reply.meets_ok ⟨hn, h.follows_nil hn⟩
          | cons op' before =>
              obtain ⟨rfl, htail⟩ := List.cons.inj hsplit
              have hmeets := hrest before after htail
              rw [hlisting, show (!(c.apply op').state.isFallback) = decide (0 < m) by simp [hm, Nat.pos_iff_ne_zero],
                Listing.runSwitching_packedWhile] at hmeets
              rw [Listing.runSwitching, packedWhile_listingOf hn, hpred, run_cons_of_ok ha]
              refine (Reply.Meets.map (hmeets.imp fun answers c' hc' => ?_)).after _
              obtain ⟨hfallback, rfl, slots', ps', hshows', hlisting', hhashing⟩ := hc'
              refine ⟨?_, by rw [← hanswer], slots', ps', hshows', hlisting', hhashing.trans hev.hashing⟩
              rw [hfallback, ← hpred, List.length_cons]
              exact decide_eq_decide.mpr (by omega)

end Container
end DenseHash
