import DenseHash.Proofs.Lookup
import DenseHash.Proofs.Sift

/-!
# Containers are lists

For every run of operations on a container that was just made, and whichever way its keys are hashed: the answers
are those of a list, and after each operation the iteration shows that list.

* **Linked containers** keep the order of insertion or of use, in a table as in the fallback.
* **Dense containers** put the last entry where one was removed, until the flood guard steps in.

As long as the order does not matter, the list stands for a finite map from keys to entries.
-/

namespace DenseHash

namespace Container

variable {K V : Type} [BEq K] [EquivBEq K] {settings : Settings} {hashing : Hashing K} {owner : OwnerId}

/-- The container has the entries of a finite map. -/
structure Maps [Backing] (c : Container K V) (m : Lookup K V) : Prop where
  entry : ∀ key, c.entry? key = .ok (m key)
  peek : ∀ key, c.peek key = .ok ((m key).map Prod.snd)
  contains : ∀ key, c.contains key = .ok (m key).isSome

/-- A container that shows entries is the finite map of these entries. -/
theorem Shows.maps [Backing] {c : Container K V} {slots : List Slot} {ps : List (K × V)} (h : c.Shows slots ps)
    (hr : c.hashing.Respects) : c.Maps (Lookup.ofPairs ps) where
  entry := h.entry?_eq hr
  peek := h.peek_eq hr
  contains := h.contains_eq hr

/-- A linked container is an ordered list with pairwise distinct keys. A new key goes to the end; a key that is
    there keeps its stored form, and in the order of use it moves to the end when it is used; a removal does not
    disturb the others. The flood guard cannot be seen. -/
theorem linked_run_eq_list_run [Backing] {c : Container K V} {byAccess : Bool} (hr : hashing.Respects)
    (hmake : make settings (.ofMode byAccess) hashing owner = .ok c) (ops : List (Operation K V)) :
    (∀ f, (c.run ops).result = .error f → f.IsLimit) ∧
      ∀ answers, (c.run ops).result = .ok answers →
        answers = (Listing.run ops ⟨[], false, byAccess⟩).1 ∧
          ∀ before after, before ++ after = ops →
            (c.run before).result = .ok (answers.take before.length) ∧
              (c.run before).state.Iterates (Listing.run before ⟨[], false, byAccess⟩).2.pairs := by
  obtain ⟨rfl, hlisting⟩ : hashing = c.hashing ∧ c.listingOf [] = ⟨[], false, byAccess⟩ := by
    obtain ⟨-, rfl⟩ := eq_of_make hmake
    exact ⟨rfl, rfl⟩
  obtain ⟨n, hrun⟩ := (shows_of_make (.linked byAccess) hmake).run_meets hr ops
  rw [hlisting] at hrun
  have hempty (before : List (Operation K V)) :
      Listing.runSwitching n before ⟨[], false, byAccess⟩ = Listing.run before ⟨[], false, byAccess⟩ :=
    Listing.runSwitching_eq_run rfl n before
  refine ⟨fun f hf => (hrun ops [] (List.append_nil ops)).of_error hf, fun answers hanswers => ⟨?_, ?_⟩⟩
  · obtain ⟨-, hall, -⟩ := (hrun ops [] (List.append_nil ops)).of_ok hanswers
    rw [← hempty]
    exact hall
  · rintro before after rfl
    obtain ⟨first, hfirst, rfl⟩ := run_append_eq_ok hanswers
    obtain ⟨-, -, slots, ps, hshows, hlisting', -⟩ := (hrun before after rfl).of_ok hfirst
    refine ⟨hfirst, ?_⟩
    rw [← hempty]
    exact (congrArg Listing.pairs hlisting') ▸ hshows.iterates

/-- A linked container in which all keys collide, by way of the fallback. -/
theorem linked_run_eq_list_run_colliding :
    ∃ c : Container Nat Nat,
      make { maxChain := 1 } (.ofMode true) ⟨fun _ => 0, ⟨fun _ _ => 0⟩⟩ 0 = .ok c ∧
        (c.run [.insert 1 10, .insert 2 20, .get 1]).state.isFallback = true ∧
          (c.run [.insert 1 10, .insert 2 20, .get 1]).state.Iterates [(2, 20), (1, 10)] := by
  refine ⟨_, rfl, rfl, ?_⟩
  have hlist := @linked_run_eq_list_run Nat Nat _ _ { maxChain := 1 } ⟨fun _ => 0, ⟨fun _ _ => 0⟩⟩ 0 _ _ true
    ⟨fun _ => rfl, fun _ _ _ _ => rfl⟩ rfl [.insert 1 10, .insert 2 20, .get 1]
  exact ((hlist.2 [.value none, .value none, .value (some 10)] rfl).2 _ [] rfl).2

/-- A dense container is a list with pairwise distinct keys and one bit that says how it closes up: packed, until
    the flood guard steps in during the `n`-th operation, and in place from then on. Retaining is a walk of that list
    from its start. As long as the order does not matter, it is a finite map. -/
theorem dense_run_eq_list_run [Backing] {c : Container K V} (hr : hashing.Respects)
    (hmake : make settings .dense hashing owner = .ok c) (ops : List (Operation K V)) :
    (∀ f, (c.run ops).result = .error f → f.IsLimit) ∧
      ∀ answers, (c.run ops).result = .ok answers → ∃ n,
        answers = (Listing.runSwitching n ops ⟨[], true, false⟩).1 ∧
          (∀ before after, before ++ after = ops →
            (c.run before).result = .ok (answers.take before.length) ∧
              (c.run before).state.isFallback = decide (n ≤ before.length) ∧
              (c.run before).state.Iterates (Listing.runSwitching n before ⟨[], true, false⟩).2.pairs ∧
              DistinctKeys (Listing.runSwitching n before ⟨[], true, false⟩).2.pairs ∧
              ((∀ op ∈ before, op.Unordered) →
                (c.run before).state.Maps (Lookup.run before fun _ => none))) ∧
          (∀ before keep after, before ++ .retain keep :: after = ops → ∀ left seen,
            (Listing.runSwitching n before ⟨[], true, false⟩).2.walk
              (fun seen key value => ((key, value) :: seen, keep seen key value)) [] 0 = (left, seen) →
                answers[before.length]? = some (.pairs seen.reverse) ∧
                  (c.run (before ++ [.retain keep])).state.Iterates left.pairs) ∧
          ∀ before op after, before ++ op :: after = ops → (∀ o ∈ before, o.Unordered) →
            ∀ a, Lookup.answer? op (Lookup.run before fun _ => none) = some a →
              answers[before.length]? = some a := by
  obtain ⟨rfl, hlisting⟩ : hashing = c.hashing ∧ c.listingOf [] = ⟨[], true, false⟩ := by
    obtain ⟨-, rfl⟩ := eq_of_make hmake
    exact ⟨rfl, rfl⟩
  obtain ⟨n, hrun⟩ := (shows_of_make .dense hmake).run_meets hr ops
  rw [hlisting] at hrun
  refine ⟨fun f hf => (hrun ops [] (List.append_nil ops)).of_error hf, fun answers hanswers => ⟨n, ?_⟩⟩
  obtain ⟨-, hall, -⟩ := (hrun ops [] (List.append_nil ops)).of_ok hanswers
  have htracks {before : List (Operation K V)} (hops : ∀ op ∈ before, op.Unordered) :
      Lookup.Tracks (Lookup.run before fun _ => none) (Listing.runSwitching n before ⟨[], true, false⟩).2 :=
    Lookup.tracks_run (l := ⟨[], true, false⟩) hops .nil n
  have hanswered (before : List (Operation K V)) (op : Operation K V) (after : List (Operation K V))
      (hops : before ++ op :: after = ops) : answers[before.length]? =
        some ((Listing.runSwitching n before ⟨[], true, false⟩).2.apply op).1 := by
    subst hops
    rw [hall]
    exact Listing.runSwitching_getElem? n before op after ⟨[], true, false⟩
  have hmiddle : ∀ before after, before ++ after = ops →
      (c.run before).result = .ok (answers.take before.length) ∧
        (c.run before).state.isFallback = decide (n ≤ before.length) ∧
        (c.run before).state.Iterates (Listing.runSwitching n before ⟨[], true, false⟩).2.pairs ∧
        DistinctKeys (Listing.runSwitching n before ⟨[], true, false⟩).2.pairs ∧
        ((∀ op ∈ before, op.Unordered) → (c.run before).state.Maps (Lookup.run before fun _ => none)) := by
    rintro before after rfl
    -- a run that gave answers gave the first of them after the first operations
    obtain ⟨first, hfirst, rfl⟩ := run_append_eq_ok hanswers
    obtain ⟨hfallback, -, slots, ps, hshows, hlisting', hhashing⟩ := (hrun before after rfl).of_ok hfirst
    have hr' : (c.run before).state.hashing.Respects := hhashing ▸ hr
    obtain rfl : ps = (Listing.runSwitching n before ⟨[], true, false⟩).2.pairs :=
      congrArg Listing.pairs hlisting'
    refine ⟨hfirst, hfallback, hshows.iterates, hshows.distinctKeys hr', fun hops => ?_⟩
    rw [← (htracks hops).pairs]
    exact hshows.maps hr'
  refine ⟨hall, hmiddle, fun before keep after hops left seen hwalk => ?_, fun before op after hops hunordered a ha => ?_⟩
  · have hretain := Listing.apply_retain keep (Listing.runSwitching n before ⟨[], true, false⟩).2
    rw [hwalk] at hretain
    refine ⟨by rw [hanswered before _ after hops, hretain], ?_⟩
    obtain ⟨-, -, hiterates, -⟩ := hmiddle (before ++ [.retain keep]) after (by rw [← hops, List.append_assoc]; rfl)
    rwa [Listing.runSwitching_concat, hretain] at hiterates
  · rw [hanswered before op after hops]
    rw [← (htracks hunordered).pairs] at ha
    rw [(Lookup.tracks_apply (Lookup.unordered_of_answer? ha) (htracks hunordered).distinct).2 a ha]

/-- A dense container that closes up packed at first, moves to the fallback when two keys collide, and closes up
    in place then. -/
theorem dense_run_eq_list_run_colliding :
    ∃ c : Container Nat Nat,
      make { maxChain := 1 } .dense ⟨fun k => if k = 4 then 3 else k.toUInt64, ⟨fun _ _ => 0⟩⟩ 0 = .ok c ∧
        (c.run [.insert 1 10, .insert 2 20, .insert 3 30, .remove 1, .insert 4 40, .remove 3]).state.Iterates
          [(2, 20), (4, 40)] := by
  refine ⟨_, rfl, ?_⟩
  have hlist := @dense_run_eq_list_run Nat Nat _ _ { maxChain := 1 }
    ⟨fun k => if k = 4 then 3 else k.toUInt64, ⟨fun _ _ => 0⟩⟩ 0 _ _
    ⟨fun h => by rw [eq_of_beq h], fun _ _ _ _ => rfl⟩ rfl
    [.insert 1 10, .insert 2 20, .insert 3 30, .remove 1, .insert 4 40, .remove 3]
  obtain ⟨n, -, hrun, -⟩ := hlist.2 [.value none, .value none, .value none, .pair (some (1, 10)), .value none,
    .pair (some (3, 30))] rfl
  obtain ⟨-, hnot, -⟩ := hrun [.insert 1 10, .insert 2 20, .insert 3 30, .remove 1] _ rfl
  obtain ⟨-, hfallback, -⟩ := hrun [.insert 1 10, .insert 2 20, .insert 3 30, .remove 1, .insert 4 40] _ rfl
  have hmore : ¬ n ≤ 4 := of_decide_eq_false hnot.symm
  have hless : n ≤ 5 := of_decide_eq_true hfallback.symm
  obtain rfl : n = 5 := by omega
  exact (hrun _ [] rfl).2.2.1

end Container

end DenseHash
