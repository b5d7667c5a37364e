import DenseHash.Proofs.Container.SameEntries

/-!
# Two sessions side by side

Two sessions are *paired* by a relation of containers if they have as many containers, which are related place by place,
and the same cursors. A command that is given to both finds related containers in both, or none in either.

Two pairings are of use:

* **Twins.** Every command keeps them paired, unless a container moves to its fallback. There is no way back from a
  fallback, so the end of a run tells that none moved on the way.
* **Linked containers.** They stay paired whatever the flood guard does, as long as no cursor is used.
-/

namespace DenseHash

variable [Backing] {K V : Type}

namespace Session

/-- Related containers at the same places, and the same cursors. -/
structure Paired (R : Container K V → Container K V → Prop) (s s' : Session K V) : Prop where
  containers : List.Forall₂ R s.containers s'.containers
  cursors : s'.cursors = s.cursors

variable {R : Container K V → Container K V → Prop} {s s' : Session K V} {c d : Container K V}

namespace Paired

/-- Related containers may be put in at one place. -/
theorem set (h : Paired R s s') (i : Nat) (hcd : R c d) :
    Paired R { s with containers := s.containers.set i c } { s' with containers := s'.containers.set i d } :=
  ⟨forall₂_set h.containers i hcd, h.cursors⟩

/-- Related containers may be added. -/
theorem concat (h : Paired R s s') (hcd : R c d) :
    Paired R { s with containers := s.containers ++ [c] } { s' with containers := s'.containers ++ [d] } :=
  ⟨List.rel_append h.containers (.cons hcd .nil), h.cursors⟩

/-- The same was done to the cursors. -/
theorem withCursors (h : Paired R s s') (cursors : List Cursor) :
    Paired R { s with cursors } { s' with cursors } := ⟨h.containers, rfl⟩

/-! ## Going on with what is there -/

/-- A command to a container agrees if it does on related ones. -/
theorem withContainer (h : Paired R s s') (i : Nat) {act act' : Container K V → Reply (Session K V) (Response K V)}
    (hact : ∀ c d, s.containers[i]? = some c → s'.containers[i]? = some d → R c d →
      Reply.Agree Eq (Paired R) (act c) (act' d)) :
    Reply.Agree Eq (Paired R) (s.withContainer i act) (s'.withContainer i act') := by
  rw [Session.withContainer, Session.withContainer]
  rcases forall₂_getElem?_cases h.containers i with ⟨hi, hi'⟩ | ⟨c, d, hi, hi', hcd⟩
  · rw [hi, hi']
    exact Reply.agree_ok rfl h
  · rw [hi, hi']
    exact hact c d hi hi' hcd

/-- A command to a cursor agrees if it does on every one. -/
theorem withCursor (h : Paired R s s') (j : Nat) {act act' : Cursor → Reply (Session K V) (Response K V)}
    (hact : ∀ cur, Reply.Agree Eq (Paired R) (act cur) (act' cur)) :
    Reply.Agree Eq (Paired R) (s.withCursor j act) (s'.withCursor j act') := by
  rw [Session.withCursor, Session.withCursor, h.cursors]
  cases s.cursors[j]? with
  | none => exact Reply.agree_ok rfl h
  | some cur => exact hact cur

theorem tell (h : Paired R s s') {x x' : Checked (Response K V)} (hx : x' = x) :
    Reply.Agree Eq (Paired R) (s.tell x) (s'.tell x') := by
  rintro a a' ha ha'
  subst hx
  exact ⟨Except.ok.inj (ha.symm.trans ha'), rfl, h⟩

variable [BEq K] [BEq V]

/-! ## Commands that keep any pairing -/

/-- A question agrees if related containers answer it alike. -/
theorem step_ask (h : Paired R s s') (i : Nat) (question : Question K V)
    (hask : ∀ c d, R c d → d.ask question = c.ask question) :
    Reply.Agree Eq (Paired R) (s.step (.ask i question)) (s'.step (.ask i question)) :=
  h.withContainer i fun c d _ _ hcd => h.tell (hask c d hcd)

/-- Copying agrees if copies are related. -/
theorem step_copy (h : Paired R s s') (i : Nat) (hcopy : ∀ c d owner, R c d → R (c.copy owner) (d.copy owner)) :
    Reply.Agree Eq (Paired R) (s.step (.copy i)) (s'.step (.copy i)) := by
  refine h.withContainer i fun c d _ _ hcd => Reply.agree_ok rfl ?_
  rw [h.containers.length_eq]
  exact h.concat (hcopy c d _ hcd)

/-- Comparing containers that show the same entries. -/
theorem step_compare [EquivBEq K] (h : Paired R s s') (hsame : ∀ c d, R c d → c.SameEntries d) (i j : Nat)
    (asSequences : Bool) :
    Reply.Agree Eq (Paired R) (s.step (.compare i j asSequences)) (s'.step (.compare i j asSequences)) := by
  refine h.withContainer i fun c d _ _ hcd => h.withContainer j fun c' d' _ _ hcd' => h.tell ?_
  rw [(hsame c d hcd).same (hsame c' d' hcd')]

end Paired

/-! ## Twins -/

/-- No container is in its fallback. -/
def Unflooded (s : Session K V) : Prop := ∀ c ∈ s.containers, c.isFallback = false

instance (s : Session K V) : Decidable s.Unflooded :=
  inferInstanceAs (Decidable (∀ c ∈ s.containers, c.isFallback = false))

section Unflooded

/-- A container was replaced by one that is in the fallback if the old one is. -/
theorem unflooded_of_set {i : Nat} (hi : s.containers[i]? = some c)
    (hback : d.isFallback = false → c.isFallback = false)
    (h : ∀ x ∈ s.containers.set i d, x.isFallback = false) : s.Unflooded := by
  rintro x hx
  obtain ⟨k, hk⟩ := List.getElem?_of_mem hx
  by_cases hki : i = k
  · obtain rfl : c = x := Option.some.inj (hi.symm.trans (hki ▸ hk))
    exact hback (h d (List.mem_set (List.getElem?_eq_some_iff.mp hi).1 d))
  · exact h x (List.mem_of_getElem? (by rw [List.getElem?_set_ne hki, hk]))

/-- Whatever is done with what is there, if it began with an unflooded session. -/
theorem unflooded_of_withContainer {i : Nat} {act : Container K V → Reply (Session K V) (Response K V)}
    (h : (s.withContainer i act).state.Unflooded)
    (hact : ∀ c, s.containers[i]? = some c → (act c).state.Unflooded → s.Unflooded) : s.Unflooded := by
  rw [withContainer] at h
  split at h
  · exact hact _ ‹_› h
  · exact h

/-- No switch in a command to a cursor, if there was none in what the cursor did. -/
theorem unflooded_of_withCursor {j : Nat} {act : Cursor → Reply (Session K V) (Response K V)}
    (h : (s.withCursor j act).state.Unflooded) (hact : ∀ cur, (act cur).state.Unflooded → s.Unflooded) :
    s.Unflooded := by
  rw [withCursor] at h
  split at h
  · exact hact _ h
  · exact h

variable [BEq K] [BEq V]

/-- There is no way back from the fallback. -/
theorem unflooded_of_step (command : Command K V) (h : (s.step command).state.Unflooded) : s.Unflooded := by
  cases command with
  | apply i op =>
      exact unflooded_of_withContainer h fun c hi h => unflooded_of_set hi
        (Container.isFallback_back fun f hs => Container.apply_fallback_keepsForm hs op) h
  | ask i question => exact unflooded_of_withContainer h fun _ _ h => h
  | compare i j asSequences =>
      exact unflooded_of_withContainer h fun _ _ h => unflooded_of_withContainer h fun _ _ h => h
  | copy i => exact unflooded_of_withContainer h fun _ _ h x hx => h x (List.mem_append_left _ hx)
  | cursor i => exact unflooded_of_withContainer h fun _ _ h => h
  | copyCursor j => exact unflooded_of_withCursor h fun _ h => h
  | hasNext j => exact unflooded_of_withCursor h fun _ h => h
  | next i j =>
      refine unflooded_of_withContainer h fun c _ h => unflooded_of_withCursor h fun cur h => ?_
      split at h
      · exact h
      · exact h
  | remove i j =>
      refine unflooded_of_withContainer h fun c hi h => unflooded_of_withCursor h fun cur h => ?_
      refine unflooded_of_set hi (Container.isFallback_back (r := (cur.remove c).within Prod.fst) fun f hs => ?_) h
      exact Container.cursor_remove_keepsForm (by rw [hs]; trivial) cur

/-- So the end of a run tells what was so all the time. -/
theorem unflooded_of_run {commands : List (Command K V)} (h : (run commands s).state.Unflooded) : s.Unflooded := by
  induction commands generalizing s with
  | nil => exact h
  | cons command commands ih =>
      refine unflooded_of_step command ?_
      rw [run] at h
      cases hr : (s.step command).result with
      | ok response =>
          rw [Reply.andThen_of_ok hr] at h
          exact ih h
      | error e =>
          rw [Reply.andThen_of_error hr] at h
          exact h

end Unflooded

namespace Paired

variable [BEq K] [EquivBEq K] [BEq V]

/-- One command to both, unless a container moves to its fallback. -/
theorem step_twins (h : Paired Container.Twins s s') {command : Command K V} (hf : (s.step command).state.Unflooded)
    (hf' : (s'.step command).state.Unflooded) :
    Reply.Agree Eq (Paired Container.Twins) (s.step command) (s'.step command) := by
  cases command with
  | apply i op =>
      refine h.withContainer i fun c d hi hi' hcd => ?_
      rw [step, Session.withContainer, hi] at hf
      rw [step, Session.withContainer, hi'] at hf'
      have hmem := hf _ (List.mem_set (List.getElem?_eq_some_iff.mp hi).1 (c.apply op).state)
      have hmem' := hf' _ (List.mem_set (List.getElem?_eq_some_iff.mp hi').1 (d.apply op).state)
      exact ((hcd.apply op hmem hmem').within fun c d hcd => h.set i hcd).map fun _ _ => congrArg Response.answer
  | ask i question => exact h.step_ask i question fun c d hcd => hcd.ask question
  | compare i j asSequences => exact h.step_compare (fun c d hcd => hcd.sameEntries) i j asSequences
  | copy i => exact h.step_copy i fun c d owner hcd => hcd.copy owner
  | cursor i =>
      refine h.withContainer i fun c d _ _ hcd => Reply.agree_ok rfl ?_
      rw [h.cursors, hcd.cursorStart]
      exact h.withCursors _
  | copyCursor j =>
      refine h.withCursor j fun cur => Reply.agree_ok rfl ?_
      rw [h.cursors]
      exact h.withCursors _
  | hasNext j => exact h.withCursor j fun cur => Reply.agree_ok rfl h
  | next i j =>
      refine h.withContainer i fun c d _ _ hcd => h.withCursor j fun cur => ?_
      rw [hcd.cursorNext]
      split
      · refine Reply.agree_ok rfl ?_
        rw [h.cursors]
        exact h.withCursors _
      · exact Reply.agree_fail
  | remove i j =>
      refine h.withContainer i fun c d _ _ hcd => h.withCursor j fun cur => ?_
      refine ((hcd.cursorRemove cur).within ?_).map fun _ _ => congrArg Response.ofStep
      rintro ⟨c, cur⟩ ⟨d, _⟩ ⟨hcd, rfl⟩
      exact ⟨forall₂_set h.containers i hcd, by rw [h.cursors]⟩

/-- A whole run of both. -/
theorem run_twins (h : Paired Container.Twins s s') {commands : List (Command K V)}
    (hf : (run commands s).state.Unflooded) (hf' : (run commands s').state.Unflooded) :
    Reply.Agree Eq (Paired Container.Twins) (run commands s) (run commands s') := by
  induction commands generalizing s s' with
  | nil => exact Reply.agree_ok rfl h
  | cons command commands ih =>
      rintro b b' hb hb'
      obtain ⟨a, ha, hrest, hstate⟩ := Reply.andThen_result_eq_ok hb
      obtain ⟨a', ha', hrest', hstate'⟩ := Reply.andThen_result_eq_ok hb'
      have hlater : (run commands (s.step command).state).state.Unflooded := hstate ▸ hf
      have hlater' : (run commands (s'.step command).state).state.Unflooded := hstate' ▸ hf'
      have hstep := h.step_twins (unflooded_of_run hlater) (unflooded_of_run hlater')
      obtain ⟨rfl, hevents, hpaired⟩ := hstep a a' ha ha'
      have hrun := (ih hpaired hlater hlater').map fun _ _ => congrArg (a :: ·)
      obtain ⟨hresponses, hevents', hleft⟩ := hrun b b' hrest hrest'
      rw [run, run, Reply.andThen_of_ok ha, Reply.andThen_of_ok ha']
      exact ⟨hresponses, congrArg₂ (· ++ ·) hevents hevents', hleft⟩

end Paired

/-! ## Linked containers -/

end Session

/-- A command that uses no cursor and asks nothing about the form of storage. -/
def Command.isPlain : Command K V → Bool
  | .apply _ _ => true
  | .ask _ question => !question.seesForm
  | .compare _ _ _ => true
  | .copy _ => true
  | _ => false

namespace Session

namespace Paired

variable {R : Container K V → Container K V → Prop} {s s' : Session K V} [BEq K] [EquivBEq K] [BEq V]

/-- One plain command to both. What is logged may differ, since a fallback has no buckets. -/
theorem step_linked (h : Paired Container.Linked s s') {command : Command K V} (hplain : command.isPlain = true)
    {a a' : Response K V} (ha : (s.step command).result = .ok a) (ha' : (s'.step command).result = .ok a') :
    a = a' ∧ Paired Container.Linked (s.step command).state (s'.step command).state := by
  cases command with
  | apply i op =>
      rw [step, Session.withContainer] at ha ha' ⊢
      rw [step, Session.withContainer]
      rcases forall₂_getElem?_cases h.containers i with ⟨hi, hi'⟩ | ⟨c, d, hi, hi', hcd⟩
      · rw [hi] at ha ⊢
        rw [hi'] at ha' ⊢
        exact ⟨Except.ok.inj (ha.symm.trans ha'), h⟩
      · rw [hi] at ha ⊢
        rw [hi'] at ha' ⊢
        obtain ⟨b, hb, rfl⟩ := Reply.map_result_eq_ok ha
        obtain ⟨b', hb', rfl⟩ := Reply.map_result_eq_ok ha'
        obtain ⟨rfl, hcd⟩ := hcd.apply hb hb'
        exact ⟨rfl, h.set i hcd⟩
  | ask i question =>
      have hform : question.seesForm = false := by simpa [Command.isPlain] using hplain
      obtain ⟨hanswer, -, hleft⟩ := h.step_ask i question (fun c d hcd => hcd.same.ask hform) a a' ha ha'
      exact ⟨hanswer, hleft⟩
  | compare i j asSequences =>
      obtain ⟨hanswer, -, hleft⟩ := h.step_compare (fun c d hcd => hcd.same) i j asSequences a a' ha ha'
      exact ⟨hanswer, hleft⟩
  | copy i =>
      obtain ⟨hanswer, -, hleft⟩ := h.step_copy i (fun c d owner hcd => hcd.copy owner) a a' ha ha'
      exact ⟨hanswer, hleft⟩
  | _ => cases hplain

/-- Plain commands to linked containers: the responses are the same and the containers are linked again, whatever
    the flood guard does. -/
theorem run_linked (h : Paired Container.Linked s s') {commands : List (Command K V)}
    (hplain : ∀ command ∈ commands, command.isPlain = true) {as as' : List (Response K V)}
    (hok : (run commands s).result = .ok as) (hok' : (run commands s').result = .ok as') :
    as = as' ∧ Paired Container.Linked (run commands s).state (run commands s').state := by
  induction commands generalizing s s' as as' with
  | nil => exact ⟨Except.ok.inj (hok.symm.trans hok'), h⟩
  | cons command commands ih =>
      obtain ⟨a, ha, hrest, hstate⟩ := Reply.andThen_result_eq_ok hok
      obtain ⟨a', ha', hrest', hstate'⟩ := Reply.andThen_result_eq_ok hok'
      obtain ⟨rest, hlater, rfl⟩ := Reply.map_result_eq_ok hrest
      obtain ⟨rest', hlater', rfl⟩ := Reply.map_result_eq_ok hrest'
      obtain ⟨rfl, hpaired⟩ := h.step_linked (hplain command List.mem_cons_self) ha ha'
      obtain ⟨rfl, hleft⟩ := ih hpaired (fun x hx => hplain x (List.mem_cons_of_mem command hx)) hlater hlater'
      rw [run, run, hstate, hstate']
      exact ⟨rfl, hleft⟩

end Paired

end Session

end DenseHash
