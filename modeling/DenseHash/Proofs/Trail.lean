import Mathlib.Data.List.Nodup
import Mathlib.Data.List.Perm.Basic

/-!
# Trails of links

Chains of buckets, threads through packed entries and the order of a fallback are all the same thing: links,
each kept at a *place*, that lead from index to index, where an index is whatever names an entry.
`Trail place next a is z` says that the link at `a` leads to the first index of `is`, the link at the place of
each index leads to the following one, and the last link is `z`.

Everything that an operation does to links is one of four changes, and each has its lemma here:

* **`retarget`**: the last link of a trail leads elsewhere;
* **`skip`**: the link that led to an index leads behind it;
* **`slip`**: a new index is put between two others;
* **`rename`**: an index is replaced by another one at the same position.

A doubly linked list is two trails, one of them over the reversed list, so these lemmas serve it twice.
-/

namespace DenseHash

variable {α ι : Type} {place : ι → α} {next next' : α → Option ι}

/-- The links from place `a` on lead through these indices, and the last one is `z`. -/
def Trail (place : ι → α) (next : α → Option ι) : α → List ι → Option ι → Prop
  | a, [], z => next a = z
  | a, i :: is, z => next a = some i ∧ Trail place next (place i) is z

/-- The place of the last of these indices, or `a` if there is none. -/
def tip (place : ι → α) : α → List ι → α
  | a, [] => a
  | _, i :: is => tip place (place i) is

theorem tip_mem (a : α) (is : List ι) : tip place a is ∈ a :: is.map place := by
  induction is generalizing a with
  | nil => exact List.mem_cons_self
  | cons i is ih => exact List.mem_cons_of_mem a (ih (place i))

/-- The tip of a list is read off its last index. -/
theorem tip_eq_getLast? (a : α) (is : List ι) :
    tip place a is = (is.getLast?.map place).getD a := by
  induction is generalizing a with
  | nil => rfl
  | cons i is ih =>
      rw [show tip place a (i :: is) = tip place (place i) is from rfl, ih]
      cases is with
      | nil => rfl
      | cons j js => rw [List.getLast?_cons_cons, List.getLast?_cons]; rfl

namespace Trail

/-! ## Reading a trail -/

/-- A trail that ends nowhere begins with its first element. -/
theorem head {a : α} {is : List ι} (h : Trail place next a is none) :
    next a = is.head? := by
  cases is with
  | nil => exact h
  | cons i is => exact h.1

/-- A trail through an element is a trail to it and a trail from it. -/
theorem append_cons_iff {a : α} {is js : List ι} {i : ι} {z : Option ι} :
    Trail place next a (is ++ i :: js) z ↔
      Trail place next a is (some i) ∧ Trail place next (place i) js z := by
  induction is generalizing a with
  | nil => exact Iff.rfl
  | cons k is ih =>
      constructor
      · rintro ⟨hk, h⟩
        obtain ⟨h1, h2⟩ := ih.mp h
        exact ⟨⟨hk, h1⟩, h2⟩
      · rintro ⟨⟨hk, h1⟩, h2⟩
        exact ⟨hk, ih.mpr ⟨h1, h2⟩⟩

/-- The link at an index of a trail leads to the following index. -/
theorem next_eq {a : α} {is js : List ι} {i : ι}
    (h : Trail place next a (is ++ i :: js) none) : next (place i) = js.head? :=
  (append_cons_iff.mp h).2.head

/-- The link before an index of a trail leads to it. -/
theorem last {a : α} {is : List ι} {z : Option ι} (h : Trail place next a is z) :
    next (tip place a is) = z := by
  induction is generalizing a with
  | nil => exact h
  | cons i is ih => exact ih h.2

/-! ## Changing links -/

/-- A trail does not see links elsewhere. -/
theorem congr {a : α} {is : List ι} {z : Option ι} (h : Trail place next a is z)
    (heq : ∀ b ∈ a :: is.map place, next' b = next b) : Trail place next' a is z := by
  induction is generalizing a with
  | nil => exact (heq a List.mem_cons_self).trans h
  | cons i is ih =>
      refine ⟨(heq a List.mem_cons_self).trans h.1, ih h.2 fun b hb => heq b ?_⟩
      exact List.mem_cons_of_mem a hb

/-- A trail may start at another place that has the same link. -/
theorem congr_start {a b : α} {is : List ι} {z : Option ι} (h : Trail place next a is z)
    (hstart : next' b = next a) (heq : ∀ c ∈ is.map place, next' c = next c) :
    Trail place next' b is z := by
  cases is with
  | nil => exact hstart.trans h
  | cons i is => exact ⟨hstart.trans h.1, h.2.congr heq⟩

/-- The last link leads elsewhere. -/
theorem retarget {a : α} {is : List ι} {z z' : Option ι} (h : Trail place next a is z)
    (hd : (a :: is.map place).Nodup) (hnew : next' (tip place a is) = z')
    (hold : ∀ b ∈ a :: is.map place, b ≠ tip place a is → next' b = next b) :
    Trail place next' a is z' := by
  induction is generalizing a with
  | nil => exact hnew
  | cons i is ih =>
      have hd' : (place i :: is.map place).Nodup := (List.nodup_cons.mp hd).2
      have ha : a ≠ tip place a (i :: is) := by
        intro hat
        have hmem : tip place (place i) is ∈ (i :: is).map place := tip_mem (place i) is
        rw [show tip place (place i) is = a from hat.symm] at hmem
        exact (List.nodup_cons.mp hd).1 hmem
      refine ⟨(hold a List.mem_cons_self ha).trans h.1, ih h.2 hd' hnew fun b hb => ?_⟩
      exact hold b (List.mem_cons_of_mem a hb)

/-- The link that led to an index leads behind it. -/
theorem skip {a : α} {is js : List ι} {i : ι} {z : Option ι}
    (h : Trail place next a (is ++ i :: js) z) (hd : (a :: (is ++ i :: js).map place).Nodup)
    (hnew : next' (tip place a is) = next (place i))
    (hold : ∀ b ∈ a :: (is ++ js).map place, b ≠ tip place a is → next' b = next b) :
    Trail place next' a (is ++ js) z := by
  obtain ⟨h1, h2⟩ := append_cons_iff.mp h
  simp only [List.map_append, List.map_cons, ← List.cons_append] at hd hold
  obtain ⟨hd1, -, hd3⟩ := List.nodup_append'.mp hd
  have hfront : Trail place next' a is (next (place i)) :=
    h1.retarget hd1 hnew fun b hb => hold b (List.mem_append_left _ hb)
  cases js with
  | nil => rwa [List.append_nil, ← show next (place i) = z from h2]
  | cons j js =>
      have htip : tip place a is ∉ (j :: js).map place := fun hmem =>
        hd3 (tip_mem a is) (List.mem_cons_of_mem _ hmem)
      refine append_cons_iff.mpr ⟨h2.1 ▸ hfront, h2.2.congr fun b hb => ?_⟩
      exact hold b (List.mem_append_right _ hb) fun hbt => htip (hbt ▸ hb)

/-- A new index is put where a link led. -/
theorem slip {a : α} {is js : List ι} {i : ι} {z : Option ι}
    (h : Trail place next a (is ++ js) z) (hd : (a :: (is ++ js).map place).Nodup)
    (hi : place i ∉ a :: (is ++ js).map place)
    (hnew : next' (tip place a is) = some i) (hlink : next' (place i) = next (tip place a is))
    (hold : ∀ b ∈ a :: (is ++ js).map place, b ≠ tip place a is → next' b = next b) :
    Trail place next' a (is ++ i :: js) z := by
  simp only [List.map_append, ← List.cons_append] at hd hi hold
  obtain ⟨hd1, -, hd3⟩ := List.nodup_append'.mp hd
  have htip : tip place a is ∉ js.map place := fun hmem => hd3 (tip_mem a is) hmem
  have hback : ∀ b ∈ js.map place, next' b = next b := fun b hb =>
    hold b (List.mem_append_right _ hb) fun hbt => htip (hbt ▸ hb)
  have hfront : ∀ z', Trail place next a is z' → Trail place next' a is (some i) := fun z' h1 =>
    h1.retarget hd1 hnew fun b hb => hold b (List.mem_append_left _ hb)
  cases js with
  | nil =>
      rw [List.append_nil] at h
      exact append_cons_iff.mpr ⟨hfront z h, hlink.trans h.last⟩
  | cons j js =>
      obtain ⟨h1, h2⟩ := append_cons_iff.mp h
      refine append_cons_iff.mpr ⟨hfront _ h1, hlink.trans h1.last, h2.congr hback⟩

/-- An index is replaced by another one. -/
theorem rename {a : α} {is js : List ι} {i k : ι} {z : Option ι}
    (h : Trail place next a (is ++ i :: js) z) (hd : (a :: (is ++ i :: js).map place).Nodup)
    (hnew : next' (tip place a is) = some k) (hlink : next' (place k) = next (place i))
    (hold : ∀ b ∈ a :: (is ++ js).map place, b ≠ tip place a is → next' b = next b) :
    Trail place next' a (is ++ k :: js) z := by
  obtain ⟨h1, h2⟩ := append_cons_iff.mp h
  simp only [List.map_append, List.map_cons, ← List.cons_append] at hd hold
  obtain ⟨hd1, -, hd3⟩ := List.nodup_append'.mp hd
  have htip : tip place a is ∉ js.map place := fun hmem =>
    hd3 (tip_mem a is) (List.mem_cons_of_mem _ hmem)
  refine append_cons_iff.mpr ⟨?_, ?_⟩
  · exact h1.retarget hd1 hnew fun b hb => hold b (List.mem_append_left _ hb)
  · refine h2.congr_start hlink fun b hb => ?_
    exact hold b (List.mem_append_right _ hb) fun hbt => htip (hbt ▸ hb)

end Trail

end DenseHash
