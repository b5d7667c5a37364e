import DenseHash.Proofs.Session.Paired

/-!
# What does not depend on the hash function

Two sessions start with the same settings and the same kind of container, each under hash functions of its own, and get
the same commands. Equal keys have equal hashes under either. Then what a caller is told depends on the hashes only
through the flood guard:

* **Without the guard.** If it steps in nowhere, the responses are the same, and so is the log: answers and stored keys,
  sizes and capacities, iteration from either end, and the refusals of cursors with the generations in them.
* **With the guard.** The responses of linked containers are the same even if it steps in, at different moments or on
  one side only; but no cursor may be used, and nothing asked about the form of storage.

Both are statements about whole runs, so they hold after each command of a run as well.
-/

namespace DenseHash.Session

section Independent

variable [Backing] {K V : Type} {settings : Settings} {order : Order} {hashing hashing' : Hashing K}
  {s s' : Session K V}

/-- Iteration shows the same entries in both containers at each place, from either end. -/
def IterateAlike (s s' : Session K V) : Prop :=
  List.Forall₂ (fun c d => ∃ ps, Container.Iterates c ps ∧ Container.Iterates d ps) s.containers s'.containers

/-- A session starts with a container that was just made. -/
theorem exists_make (h : start settings order hashing = .ok s) :
    ∃ c, Container.make settings order hashing 0 = .ok c ∧ s = ⟨[c], []⟩ := by
  rw [start] at h
  cases hmake : Container.make settings order hashing 0 with
  | error e =>
      rw [hmake] at h
      cases h
  | ok c =>
      rw [hmake] at h
      exact ⟨c, rfl, (Except.ok.inj h).symm⟩

variable [BEq K]

/-- Containers that show the same entries are iterated alike, pair by pair. -/
theorem Paired.iterateAlike {R : Container K V → Container K V → Prop} (h : Paired R s s')
    (hsame : ∀ c d, R c d → c.SameEntries d) : IterateAlike s s' :=
  h.containers.imp fun c d hcd => (hsame c d hcd).exists_iterates

omit [BEq K] in
/-- Sessions that begin alike are paired. -/
theorem paired_of_start {R : Container K V → Container K V → Prop} (hstart : start settings order hashing = .ok s)
    (hstart' : start settings order hashing' = .ok s')
    (hR : ∀ c d, Container.make settings order hashing 0 = .ok c → Container.make settings order hashing' 0 = .ok d →
      R c d) :
    Paired R s s' := by
  obtain ⟨c, hmake, rfl⟩ := exists_make hstart
  obtain ⟨d, hmake', rfl⟩ := exists_make hstart'
  exact ⟨.cons (hR c d hmake hmake') .nil, rfl⟩

variable [EquivBEq K] [BEq V] {commands : List (Command K V)} {responses responses' : List (Response K V)}

/-- A run of commands under two hash functions that does not fail under either. If no container is in its fallback at
    the end, under either, the caller cannot tell which it was. With linked containers and plain commands the caller
    cannot tell even if some are. -/
theorem run_hash_independent (horder : order.Fresh) (hr : hashing.Respects) (hr' : hashing'.Respects)
    (hstart : start settings order hashing = .ok s) (hstart' : start settings order hashing' = .ok s')
    (hrun : (run commands s).result = .ok responses) (hrun' : (run commands s').result = .ok responses') :
    ((run commands s).state.Unflooded → (run commands s').state.Unflooded →
      responses = responses' ∧ (run commands s').events = (run commands s).events ∧
        (run commands s').state.cursors = (run commands s).state.cursors ∧
          IterateAlike (run commands s).state (run commands s').state) ∧
    ∀ byAccess, order = .ofMode byAccess → (∀ command ∈ commands, command.isPlain = true) →
      responses = responses' ∧ IterateAlike (run commands s).state (run commands s').state := by
  constructor
  · intro hf hf'
    have hpaired : Paired Container.Twins s s' :=
      paired_of_start hstart hstart' fun c d hmake hmake' => Container.twins_of_make horder hr hr' hmake hmake'
    obtain ⟨hresponses, hevents, hleft⟩ := hpaired.run_twins hf hf' responses responses' hrun hrun'
    exact ⟨hresponses, hevents, hleft.cursors, hleft.iterateAlike fun c d hcd => hcd.sameEntries⟩
  · rintro byAccess rfl hplain
    have hpaired : Paired Container.Linked s s' :=
      paired_of_start hstart hstart' fun c d hmake hmake' => Container.linked_of_make hr hr' hmake hmake'
    obtain ⟨hresponses, hleft⟩ := hpaired.run_linked hplain hrun hrun'
    exact ⟨hresponses, hleft.iterateAlike fun c d hcd => hcd.same⟩

end Independent

/-- Keys that collide under one hash function and not under the other. In the first session the guard steps in
    nowhere, and a cursor is refused because of a change behind its back. In the second it steps in on one side. -/
theorem run_hash_independent_colliding :
    (∃ (commands : List (Command Nat Nat)) (s s' : Session Nat Nat),
      commands = [.apply 0 (.insert 1 10), .apply 0 (.insert 2 20), .cursor 0, .next 0 0, .remove 0 0, .next 0 0,
        .apply 0 (.insert 3 30), .next 0 0, .apply 0 .shrink, .ask 0 .capacity] ∧
      start {} .dense ⟨fun k => k.toUInt64, ⟨fun _ k => k.toUInt64⟩⟩ = .ok s ∧
      start {} .dense ⟨fun _ => 0, ⟨fun _ _ => 0⟩⟩ = .ok s' ∧
      (run commands s).result = .ok [.answer (.value none), .answer (.value none), .done, .entry (1, 10), .entry (1, 10),
        .entry (2, 20), .answer (.value none), .refused (.modified 3 4), .answer .done, .capacity (some 3)] ∧
      (run commands s').result = (run commands s).result ∧ (run commands s').events = (run commands s).events ∧
      IterateAlike (run commands s).state (run commands s').state) ∧
    ∃ (commands : List (Command Nat Nat)) (s s' : Session Nat Nat),
      commands = [.apply 0 (.insert 1 10), .apply 0 (.insert 2 20), .copy 0, .apply 1 (.get 1), .compare 0 1 true] ∧
      start { maxChain := 1 } (.ofMode true) ⟨fun k => k.toUInt64, ⟨fun _ k => k.toUInt64⟩⟩ = .ok s ∧
      start { maxChain := 1 } (.ofMode true) ⟨fun _ => 0, ⟨fun _ _ => 0⟩⟩ = .ok s' ∧
      (run commands s).result =
        .ok [.answer (.value none), .answer (.value none), .done, .answer (.value (some 10)), .flag false] ∧
      (run commands s').result = (run commands s).result ∧
      (run commands s).state.Unflooded ∧ ¬(run commands s').state.Unflooded ∧
      IterateAlike (run commands s).state (run commands s').state := by
  have hr : Hashing.Respects (⟨fun k => k.toUInt64, ⟨fun _ k => k.toUInt64⟩⟩ : Hashing Nat) :=
    ⟨fun h => by rw [eq_of_beq h], fun _ _ _ h => by rw [eq_of_beq h]⟩
  have hr' : Hashing.Respects (⟨fun _ => 0, ⟨fun _ _ => 0⟩⟩ : Hashing Nat) := ⟨fun _ => rfl, fun _ _ _ _ => rfl⟩
  constructor
  · have hrun (hashing : Hashing Nat)
        (hh : hashing = ⟨fun k => k.toUInt64, ⟨fun _ k => k.toUInt64⟩⟩ ∨ hashing = ⟨fun _ => 0, ⟨fun _ _ => 0⟩⟩) :
        (run [.apply 0 (.insert 1 10), .apply 0 (.insert 2 20), .cursor 0, .next 0 0, .remove 0 0, .next 0 0,
          .apply 0 (.insert 3 30), .next 0 0, .apply 0 .shrink, .ask 0 .capacity]
          (⟨[⟨hashing, .table (.empty .dense .threeQuarters 0), 9, 0, 0⟩], []⟩ : Session Nat Nat)).result =
        .ok [.answer (.value none), .answer (.value none), .done, .entry (1, 10), .entry (1, 10), .entry (2, 20),
          .answer (.value none), .refused (.modified 3 4), .answer .done, .capacity (some 3)] := by
      rcases hh with rfl | rfl <;> decide +kernel
    obtain ⟨-, hevents, -, halike⟩ := (run_hash_independent .dense hr hr' (show start {} _ _ = _ from rfl) rfl
      (hrun _ (.inl rfl)) (hrun _ (.inr rfl))).1 (by decide +kernel) (by decide +kernel)
    exact ⟨_, _, _, rfl, rfl, rfl, hrun _ (.inl rfl), (hrun _ (.inr rfl)).trans (hrun _ (.inl rfl)).symm, hevents,
      halike⟩
  · have hrun (hashing : Hashing Nat)
        (hh : hashing = ⟨fun k => k.toUInt64, ⟨fun _ k => k.toUInt64⟩⟩ ∨ hashing = ⟨fun _ => 0, ⟨fun _ _ => 0⟩⟩) :
        (run [.apply 0 (.insert 1 10), .apply 0 (.insert 2 20), .copy 0, .apply 1 (.get 1), .compare 0 1 true]
          (⟨[⟨hashing, .table (.empty (.ofMode true) .threeQuarters 0), 1, 0, 0⟩], []⟩ : Session Nat Nat)).result =
        .ok [.answer (.value none), .answer (.value none), .done, .answer (.value (some 10)), .flag false] := by
      rcases hh with rfl | rfl <;> decide +kernel
    obtain ⟨-, halike⟩ := (run_hash_independent (.linked true) hr hr'
      (show start { maxChain := 1 } _ _ = _ from rfl) rfl (hrun _ (.inl rfl)) (hrun _ (.inr rfl))).2 true rfl (by decide)
    exact ⟨_, _, _, rfl, rfl, rfl, hrun _ (.inl rfl), (hrun _ (.inr rfl)).trans (hrun _ (.inl rfl)).symm,
      by decide +kernel, by decide +kernel, halike⟩

end DenseHash.Session
