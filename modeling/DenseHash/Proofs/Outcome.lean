import Mathlib.Data.List.Basic
import DenseHash.Reply

/-!
# Outcomes of operations

How checked results and replies are taken apart, and what it means that a reply *meets* a condition: either it
holds a result, and the result and the state meet the condition, or the operation was refused because of a
limit of size. A reply that reports damage, refused settings or a missing key meets no condition, so every
theorem about `Reply.Meets` also says that those faults do not occur.

A reply *gives* what meets a condition if it cannot be refused at all, it *leaves* what meets a condition if its state
does, result or no result, and it *yields* what does if that is so wherever there is a result. Two replies *agree* if
nothing but a fault tells them apart, and one *echoes* the other if not even a fault does. `NoWarning` says that a reply
logged no warning.
-/

namespace DenseHash

/-! ## Checked results -/

namespace Checked

variable {α β : Type}

@[simp] theorem ok_bind (a : α) (g : α → Checked β) : (Except.ok a >>= g) = g a := rfl

/-- A sequence that gave a result was two computations that did. -/
theorem bind_eq_ok {x : Checked α} {g : α → Checked β} {b : β} (h : (x >>= g) = .ok b) :
    ∃ a, x = .ok a ∧ g a = .ok b := by
  cases x with
  | ok a => exact ⟨a, rfl, h⟩
  | error f => exact nomatch h

/-- A computation gives a result exactly if it does not fail. -/
theorem exists_ok_iff {x : Checked α} : (∃ a, x = .ok a) ↔ ∀ f, x ≠ .error f := by
  cases x with
  | ok a => simp
  | error f => simp

@[simp] theorem pure_eq (a : α) : (pure a : Checked α) = Except.ok a := rfl

/-- A checked function that finds what a partial one has. -/
theorem mapM_eq_filterMap {g : α → Checked β} {c : α → Option β} {as : List α}
    (h : ∀ a ∈ as, ∃ b, c a = some b ∧ g a = .ok b) : as.mapM g = .ok (as.filterMap c) := by
  induction as with
  | nil => rfl
  | cons a as ih =>
      obtain ⟨b, hc, hg⟩ := h a List.mem_cons_self
      have hrest := ih fun x hx => h x (List.mem_cons_of_mem a hx)
      rw [List.mapM_cons, hg, ok_bind, hrest, List.filterMap_cons_some hc]
      rfl

/-- A fold whose steps all succeed. -/
theorem foldlM_eq_foldl {g : β → α → Checked β} {k : β → α → β} {as : List α}
    (h : ∀ a ∈ as, ∀ b, g b a = .ok (k b a)) (b : β) : as.foldlM g b = .ok (as.foldl k b) := by
  induction as generalizing b with
  | nil => rfl
  | cons a as ih =>
      rw [List.foldlM_cons, h a List.mem_cons_self, ok_bind,
        ih fun x hx => h x (List.mem_cons_of_mem a hx)]
      rfl

/-! ### Two runs -/

variable {σ σ' τ τ' : Type}

/-- If two computations both gave a result, it is the same one, and the states that come with it are related. -/
def Agree (R : σ → σ' → Prop) (x : Checked (α × σ)) (x' : Checked (α × σ')) : Prop :=
  ∀ a a' s s', x = .ok (a, s) → x' = .ok (a', s') → a = a' ∧ R s s'

variable {R : σ → σ' → Prop}

/-- Two results agree if their states are related. -/
theorem agree_ok {a : α} {s : σ} {s' : σ'} (hs : R s s') : Agree R (.ok (a, s)) (.ok (a, s')) := by
  rintro b b' u u' hb hb'
  obtain ⟨rfl, rfl⟩ := Prod.mk.inj (Except.ok.inj hb)
  obtain ⟨rfl, rfl⟩ := Prod.mk.inj (Except.ok.inj hb')
  exact ⟨rfl, hs⟩

/-- A computation that failed agrees with any other. -/
theorem agree_error {f : Fault} {x' : Checked (α × σ')} : Agree R (.error f) x' := fun _ _ _ _ hb => nomatch hb

/-- One computation after the other. -/
theorem Agree.bind {R' : τ → τ' → Prop} {x : Checked (α × σ)} {x' : Checked (α × σ')} {k : α × σ → Checked (β × τ)}
    {k' : α × σ' → Checked (β × τ')} (h : Agree R x x')
    (hk : ∀ a s s', R s s' → Agree R' (k (a, s)) (k' (a, s'))) : Agree R' (x >>= k) (x' >>= k') := by
  intro b b' u u' hb hb'
  obtain ⟨⟨a, s⟩, hx, hb⟩ := bind_eq_ok hb
  obtain ⟨⟨a', s'⟩, hx', hb'⟩ := bind_eq_ok hb'
  obtain ⟨rfl, hs⟩ := h a a' s s' hx hx'
  exact hk a s s' hs b b' u u' hb hb'

/-- Both read the same first. -/
theorem agree_read {x : Checked β} {k : β → Checked (α × σ)} {k' : β → Checked (α × σ')}
    (hk : ∀ b, Agree R (k b) (k' b)) : Agree R (x >>= k) (x >>= k') := by
  intro a a' s s' ha ha'
  obtain ⟨b, hx, ha⟩ := bind_eq_ok ha
  rw [hx] at ha'
  exact hk b a a' s s' ha ha'

end Checked

/-! ## Warnings -/

/-- The warnings among some events. -/
def warnings (events : List Event) : List Event := events.filter fun e => e.level == "WARN"

theorem warnings_nil : warnings [] = [] := rfl

/-- Warnings come one after the other. -/
theorem warnings_append (events events' : List Event) :
    warnings (events ++ events') = warnings events ++ warnings events' :=
  List.filter_append events events'

/-! ## Limits of size -/

/-- The faults that a request can run into because of its size. -/
def Fault.IsLimit : Fault → Prop
  | .capacityOverflow => True
  | .indexOverflow => True
  | .wordOverflow _ => True
  | _ => False

namespace Reply

variable {σ τ α β : Type}

@[simp] theorem after_result (es : List Event) (r : Reply σ α) : (r.after es).result = r.result := rfl

@[simp] theorem map_result (g : α → β) (r : Reply σ α) : (r.map g).result = r.result.map g := rfl

theorem map_map {γ : Type} (g : α → β) (g' : β → γ) (r : Reply σ α) : (r.map g).map g' = r.map fun a => g' (g a) := by
  obtain ⟨s, es, res⟩ := r
  cases res <;> rfl

/-- After a result, the state and the result are those of the next operation. -/
theorem andThen_of_ok {r : Reply σ α} {a : α} (h : r.result = .ok a) (next : α → σ → Reply σ β) :
    r.andThen next = (next a r.state).after r.events := by
  obtain ⟨s, es, res⟩ := r
  subst h
  rfl

/-- After a fault, nothing more is done. -/
theorem andThen_of_error {r : Reply σ α} {f : Fault} (h : r.result = .error f)
    (next : α → σ → Reply σ β) : r.andThen next = ⟨r.state, r.events, .error f⟩ := by
  obtain ⟨s, es, res⟩ := r
  subst h
  rfl

/-- A sequence that gave a result was two operations that did. -/
theorem andThen_result_eq_ok {r : Reply σ α} {next : α → σ → Reply σ β} {b : β}
    (h : (r.andThen next).result = .ok b) :
    ∃ a, r.result = .ok a ∧ (next a r.state).result = .ok b ∧
      (r.andThen next).state = (next a r.state).state := by
  cases hr : r.result with
  | ok a =>
      rw [andThen_of_ok hr] at h ⊢
      exact ⟨a, rfl, h, rfl⟩
  | error f =>
      rw [andThen_of_error hr] at h
      exact nomatch h

/-- A fault on a part of the state leaves what the part has become. -/
theorem within_andThen_of_error {r : Reply σ α} {g : σ → τ} {f : Fault} (h : r.result = .error f)
    (next : α → τ → Reply τ β) : (r.within g).andThen next = ⟨g r.state, r.events, .error f⟩ :=
  andThen_of_error (r := r.within g) h next

/-- A sequence whose second operation never fails does so where the first one does. -/
theorem within_andThen_error_iff {r : Reply σ α} {g : σ → τ} {next : α → τ → Reply τ β} {f : Fault}
    (hnext : ∀ a, r.result = .ok a → ∃ b, (next a (g r.state)).result = .ok b) :
    ((r.within g).andThen next).result = .error f ↔ r.result = .error f := by
  obtain ⟨s, es, res⟩ := r
  cases res with
  | ok a =>
      obtain ⟨b, hb⟩ := hnext a rfl
      exact ⟨fun herr => (nomatch hb.symm.trans herr), fun herr => (nomatch herr)⟩
  | error f' => exact ⟨fun herr => congrArg Except.error (Except.error.inj herr),
      fun herr => congrArg Except.error (Except.error.inj herr)⟩

/-- A changed result was one to change. -/
theorem map_result_eq_ok {r : Reply σ α} {g : α → β} {b : β} (h : (r.map g).result = .ok b) :
    ∃ a, r.result = .ok a ∧ g a = b := by
  rw [map_result] at h
  cases hr : r.result with
  | ok a =>
      rw [hr] at h
      exact ⟨a, rfl, Except.ok.inj h⟩
  | error f =>
      rw [hr] at h
      exact nomatch h

/-- What is made of an answer is refused if the answer was. -/
theorem map_result_eq_error {r : Reply σ α} {g : α → β} {f : Fault} (h : (r.map g).result = .error f) :
    r.result = .error f := by
  rw [map_result] at h
  cases hr : r.result with
  | ok a =>
      rw [hr] at h
      exact nomatch h
  | error f' =>
      rw [hr] at h
      exact congrArg Except.error (Except.error.inj h)

/-! ## Meeting a condition -/

/-- The operation gave a result which, with the state, meets a condition, or it was refused because of a limit
    of size. -/
def Meets (r : Reply σ α) (P : α → σ → Prop) : Prop :=
  match r.result with
  | .ok a => P a r.state
  | .error f => f.IsLimit

variable {P : α → σ → Prop}

theorem meets_ok {s : σ} {a : α} (h : P a s) : (ok s a).Meets P := h

theorem meets_fail {s : σ} {f : Fault} (h : f.IsLimit) : (fail s f : Reply σ α).Meets P := h

/-- What a reply that meets a condition says if there is a result. -/
theorem Meets.of_ok {r : Reply σ α} (h : r.Meets P) {a : α} (ha : r.result = .ok a) :
    P a r.state := by
  rw [Meets] at h
  rw [ha] at h
  exact h

/-- What a reply that meets a condition says if there is a fault. -/
theorem Meets.of_error {r : Reply σ α} (h : r.Meets P) {f : Fault} (hf : r.result = .error f) :
    f.IsLimit := by
  rw [Meets] at h
  rw [hf] at h
  exact h

/-- A result that meets a condition, said of the reply. -/
theorem Meets.mk_ok {r : Reply σ α} {a : α} (ha : r.result = .ok a) (h : P a r.state) :
    r.Meets P := by
  rw [Meets]
  rw [ha]
  exact h

/-- A limit that was met, said of the reply. -/
theorem Meets.mk_error {r : Reply σ α} {f : Fault} (hf : r.result = .error f) (h : f.IsLimit) :
    r.Meets P := by
  rw [Meets]
  rw [hf]
  exact h

/-- A weaker condition is met too. -/
theorem Meets.imp {r : Reply σ α} {Q : α → σ → Prop} (h : r.Meets P)
    (himp : ∀ a s, P a s → Q a s) : r.Meets Q := by
  cases hr : r.result with
  | ok a => exact .mk_ok hr (himp a r.state (h.of_ok hr))
  | error f => exact .mk_error hr (h.of_error hr)

/-- Two operations, one after the other. -/
theorem Meets.andThen {r : Reply σ α} {next : α → σ → Reply σ β} {Q : β → σ → Prop}
    (h : r.Meets P) (hnext : ∀ a s, P a s → (next a s).Meets Q) :
    (r.andThen next).Meets Q := by
  cases hr : r.result with
  | ok a =>
      rw [andThen_of_ok hr]
      exact hnext a r.state (h.of_ok hr)
  | error f =>
      rw [andThen_of_error hr]
      exact h.of_error hr

theorem Meets.map {r : Reply σ α} {g : α → β} {Q : β → σ → Prop}
    (h : r.Meets fun a s => Q (g a) s) : (r.map g).Meets Q := by
  cases hr : r.result with
  | ok a => exact .mk_ok (a := g a) (by rw [map_result, hr]; rfl) (h.of_ok hr)
  | error f => exact .mk_error (f := f) (by rw [map_result, hr]; rfl) (h.of_error hr)

theorem Meets.after {r : Reply σ α} (h : r.Meets P) (es : List Event) : (r.after es).Meets P := h

/-- A reply about a part, seen from the whole. -/
theorem Meets.within {r : Reply σ α} {g : σ → τ} {Q : α → τ → Prop}
    (h : r.Meets fun a s => Q a (g s)) : (r.within g).Meets Q := by
  cases hr : r.result with
  | ok a => exact .mk_ok hr (h.of_ok hr)
  | error f => exact .mk_error hr (h.of_error hr)

/-! ## Giving a result -/

/-- The operation gave a result which, with the state, meets a condition. -/
def Gives (r : Reply σ α) (P : α → σ → Prop) : Prop := ∃ a, r.result = .ok a ∧ P a r.state

theorem gives_ok {s : σ} {a : α} (h : P a s) : (ok s a).Gives P := ⟨a, rfl, h⟩

/-- What cannot be refused meets its condition. -/
theorem Gives.meets {r : Reply σ α} (h : r.Gives P) : r.Meets P := by
  obtain ⟨a, ha, hpost⟩ := h
  exact .mk_ok ha hpost

/-- A weaker condition is given too. -/
theorem Gives.imp {r : Reply σ α} {Q : α → σ → Prop} (h : r.Gives P)
    (himp : ∀ a s, P a s → Q a s) : r.Gives Q := by
  obtain ⟨a, ha, hpost⟩ := h
  exact ⟨a, ha, himp a r.state hpost⟩

/-- One reply after the other, if the second is given where the first leads. -/
theorem Gives.andThen {r : Reply σ α} {next : α → σ → Reply σ β} {Q : β → σ → Prop}
    (h : r.Gives P) (hnext : ∀ a s, P a s → (next a s).Gives Q) :
    (r.andThen next).Gives Q := by
  obtain ⟨a, ha, hpost⟩ := h
  rw [andThen_of_ok ha]
  exact hnext a r.state hpost

theorem Gives.map {r : Reply σ α} {g : α → β} {Q : β → σ → Prop}
    (h : r.Gives fun a s => Q (g a) s) : (r.map g).Gives Q := by
  obtain ⟨a, ha, hpost⟩ := h
  exact ⟨g a, by rw [map_result, ha]; rfl, hpost⟩

/-- A reply about a part, seen from the whole. -/
theorem Gives.within {r : Reply σ α} {g : σ → τ} {Q : α → τ → Prop}
    (h : r.Gives fun a s => Q a (g s)) : (r.within g).Gives Q := by
  obtain ⟨a, ha, hpost⟩ := h
  exact ⟨a, ha, hpost⟩

/-! ## What is left in any case -/

/-- The state that is left meets a condition, whether there is a result or not. -/
def Leaves (r : Reply σ α) (Q : σ → Prop) : Prop := Q r.state

variable {Q : σ → Prop}

/-- A sequence leaves what both operations leave. -/
theorem Leaves.andThen {r : Reply σ α} {next : α → σ → Reply σ β} (h : r.Leaves Q)
    (hnext : ∀ a, r.result = .ok a → Q r.state → (next a r.state).Leaves Q) : (r.andThen next).Leaves Q := by
  cases hr : r.result with
  | ok a =>
      rw [andThen_of_ok hr]
      exact hnext a hr h
  | error f =>
      rw [andThen_of_error hr]
      exact h

theorem Leaves.map {r : Reply σ α} (h : r.Leaves Q) (g : α → β) : (r.map g).Leaves Q := h

theorem Leaves.within {r : Reply σ α} {g : σ → τ} {Q : τ → Prop} (h : r.Leaves fun s => Q (g s)) :
    (r.within g).Leaves Q := h

/-- If there is a result, the state meets a condition. -/
def Yields (r : Reply σ α) (Q : σ → Prop) : Prop := ∀ a, r.result = .ok a → Q r.state

/-- What holds in any case holds where there is a result. -/
theorem Leaves.yields {r : Reply σ α} (h : r.Leaves Q) : r.Yields Q := fun _ _ => h

/-- One reply after the other, if both return. -/
theorem Yields.andThen {r : Reply σ α} {next : α → σ → Reply σ β} {Q' : σ → Prop} (h : r.Yields Q)
    (hnext : ∀ a s, Q s → (next a s).Yields Q') : (r.andThen next).Yields Q' := by
  intro b hb
  obtain ⟨a, ha, hb, hstate⟩ := andThen_result_eq_ok hb
  rw [hstate]
  exact hnext a r.state (h a ha) b hb

theorem Yields.map {r : Reply σ α} (h : r.Yields Q) (g : α → β) : (r.map g).Yields Q := by
  intro b hb
  obtain ⟨a, ha, -⟩ := map_result_eq_ok hb
  exact h a ha

theorem Yields.within {r : Reply σ α} {g : σ → τ} {Q : τ → Prop} (h : r.Yields fun s => Q (g s)) :
    (r.within g).Yields Q := h

/-! ## Two runs -/

variable {σ' τ' α' β' : Type}

/-- If two operations both gave a result, the results and the states are related, and the same was logged. -/
def Agree (Q : α → α' → Prop) (R : σ → σ' → Prop) (r : Reply σ α) (r' : Reply σ' α') : Prop :=
  ∀ a a', r.result = .ok a → r'.result = .ok a' → Q a a' ∧ r'.events = r.events ∧ R r.state r'.state

variable {Q : α → α' → Prop} {R : σ → σ' → Prop}

/-- Two replies that return agree if their answers and states are related. -/
theorem agree_ok {a : α} {a' : α'} {s : σ} {s' : σ'} (ha : Q a a') (hs : R s s') : Agree Q R (ok s a) (ok s' a') := by
  rintro b b' hb hb'
  obtain rfl := Except.ok.inj hb
  obtain rfl := Except.ok.inj hb'
  exact ⟨ha, rfl, hs⟩

/-- An operation that was refused agrees with any other. -/
theorem agree_fail {s : σ} {f : Fault} {r' : Reply σ' α'} : Agree Q R (fail s f) r' := fun _ _ hb => nomatch hb

/-- Sequences agree if each of their parts do. -/
theorem Agree.andThen {r : Reply σ α} {r' : Reply σ' α'} {next : α → σ → Reply σ β} {next' : α' → σ' → Reply σ' β'}
    {Q' : β → β' → Prop} {R' : σ → σ' → Prop} (h : Agree Q R r r')
    (hnext : ∀ a a' s s', Q a a' → R s s' → Agree Q' R' (next a s) (next' a' s')) :
    Agree Q' R' (r.andThen next) (r'.andThen next') := by
  intro b b' hb hb'
  obtain ⟨a, ha, hb, -⟩ := andThen_result_eq_ok hb
  obtain ⟨a', ha', hb', -⟩ := andThen_result_eq_ok hb'
  obtain ⟨hresult, hevents, hstate⟩ := h a a' ha ha'
  obtain ⟨hresult', hevents', hstate'⟩ := hnext a a' r.state r'.state hresult hstate b b' hb hb'
  rw [andThen_of_ok ha, andThen_of_ok ha']
  exact ⟨hresult', congrArg₂ (· ++ ·) hevents hevents', hstate'⟩

/-- Related things may be made of related answers. -/
theorem Agree.map {r : Reply σ α} {r' : Reply σ' α'} {g : α → β} {g' : α' → β'} {Q' : β → β' → Prop}
    (h : Agree Q R r r') (hg : ∀ a a', Q a a' → Q' (g a) (g' a')) : Agree Q' R (r.map g) (r'.map g') := by
  intro b b' hb hb'
  obtain ⟨a, ha, rfl⟩ := map_result_eq_ok hb
  obtain ⟨a', ha', rfl⟩ := map_result_eq_ok hb'
  obtain ⟨hresult, hevents, hstate⟩ := h a a' ha ha'
  exact ⟨hg a a' hresult, hevents, hstate⟩

/-- Replies about related parts, seen from the wholes. -/
theorem Agree.within {r : Reply σ α} {r' : Reply σ' α'} {g : σ → τ} {g' : σ' → τ'} {R' : τ → τ' → Prop}
    (h : Agree Q R r r') (hg : ∀ s s', R s s' → R' (g s) (g' s')) : Agree Q R' (r.within g) (r'.within g') := by
  intro a a' ha ha'
  obtain ⟨hresult, hevents, hstate⟩ := h a a' ha ha'
  exact ⟨hresult, hevents, hg r.state r'.state hstate⟩

/-- An operation tells what another one tells, or is refused as that one is, and what they leave is related. -/
structure Echoes (R : σ → σ' → Prop) (r : Reply σ α) (r' : Reply σ' α) : Prop where
  result : r.result = r'.result
  state : R r.state r'.state

/-- Two changes that succeed with the same answer. -/
theorem Echoes.attempt_ok {s t : σ} {s' t' : σ'} {a : α} {change : Checked (α × σ)} {change' : Checked (α × σ')}
    (h : change = .ok (a, t)) (h' : change' = .ok (a, t')) (ht : R t t') :
    Echoes R (attempt s change) (attempt s' change') := by
  rw [h, h']
  exact ⟨rfl, ht⟩

/-- Two changes that fail alike leave what was there. -/
theorem Echoes.attempt_error {s : σ} {s' : σ'} {e : Fault} {change : Checked (α × σ)} {change' : Checked (α × σ')}
    (h : change = .error e) (h' : change' = .error e) (hs : R s s') : Echoes R (attempt s change) (attempt s' change') := by
  rw [h, h']
  exact ⟨rfl, hs⟩

theorem Echoes.map {r : Reply σ α} {r' : Reply σ' α} (h : Echoes R r r') (g : α → β) : Echoes R (r.map g) (r'.map g) :=
  ⟨congrArg (Except.map g) h.result, h.state⟩

/-- A sequence echoes another one if each of its parts does. -/
theorem Echoes.andThen {r : Reply σ α} {r' : Reply σ' α} {next : α → σ → Reply σ β} {next' : α → σ' → Reply σ' β}
    (h : Echoes R r r') (hnext : ∀ a s s', R s s' → Echoes R (next a s) (next' a s')) :
    Echoes R (r.andThen next) (r'.andThen next') := by
  cases hr : r.result with
  | ok a =>
      rw [andThen_of_ok hr, andThen_of_ok (h.result.symm.trans hr)]
      obtain ⟨hresult, hstate⟩ := hnext a r.state r'.state h.state
      exact ⟨hresult, hstate⟩
  | error f =>
      rw [andThen_of_error hr, andThen_of_error (h.result.symm.trans hr)]
      exact ⟨rfl, h.state⟩

/-! ## What is logged -/

/-- The operation logged no warning. -/
def NoWarning (r : Reply σ α) : Prop := warnings r.events = []

theorem noWarning_of_nil {r : Reply σ α} (h : r.events = []) : r.NoWarning := by rw [NoWarning, h, warnings_nil]

/-- One reply after the other, neither with a warning. -/
theorem NoWarning.andThen {r : Reply σ α} {next : α → σ → Reply σ β} (h : r.NoWarning)
    (hnext : ∀ a, (next a r.state).NoWarning) : (r.andThen next).NoWarning := by
  cases hr : r.result with
  | ok a =>
      have hlater := hnext a
      rw [NoWarning] at h hlater ⊢
      rw [andThen_of_ok hr, after, warnings_append, h, hlater, List.append_nil]
  | error f =>
      rw [andThen_of_error hr]
      exact h

theorem NoWarning.map {r : Reply σ α} (h : r.NoWarning) (g : α → β) : (r.map g).NoWarning := h

end Reply

end DenseHash
