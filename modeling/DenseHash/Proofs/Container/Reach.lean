import DenseHash.Proofs.Container.Apply
import DenseHash.Proofs.Container.Guard

/-!
# What a container can become

`Reaches` follows one container through any number of operations, removals through cursors and copies, and collects
what is logged. Which operations may be done is a parameter: all of them, refused ones included (`Any`), or those that
return (`Returns`).

A fallback stays a fallback and logs no warning, whatever is done. Operations that return keep the container guarded,
and the one warning that there may be is logged by the operation that moves the entries.
-/

namespace DenseHash

namespace Container

variable [Backing] {K V : Type} [BEq K]

/-- What a container becomes by operations that are allowed, by removals through cursors and by being copied, with the
    events that are logged on the way. A refused operation leaves what it leaves. -/
inductive Reaches (allowed : Container K V → Operation K V → Prop) (c₀ : Container K V) :
    List Event → Container K V → Prop where
  | start : Reaches allowed c₀ [] c₀
  | apply {events : List Event} {c : Container K V} (reaches : Reaches allowed c₀ events c) (op : Operation K V)
      (permitted : allowed c op) : Reaches allowed c₀ (events ++ (c.apply op).events) (c.apply op).state
  | remove {events : List Event} {c : Container K V} (reaches : Reaches allowed c₀ events c) (cur : Cursor) :
      Reaches allowed c₀ (events ++ (cur.remove c).events) (cur.remove c).state.1
  | copy {events : List Event} {c : Container K V} (reaches : Reaches allowed c₀ events c) (owner : OwnerId) :
      Reaches allowed c₀ events (c.copy owner)

/-- Every operation. -/
def Any (_ : Container K V) (_ : Operation K V) : Prop := True

/-- An operation that gives a result. -/
def Returns (c : Container K V) (op : Operation K V) : Prop := ∃ a, (c.apply op).result = .ok a

namespace Reaches

variable {allowed allowed' : Container K V → Operation K V → Prop} {c₀ c : Container K V} {events : List Event}

/-- What is reached under a rule is reached under a more generous one. -/
theorem mono (h : c₀.Reaches allowed events c) (himp : ∀ c op, allowed c op → allowed' c op) :
    c₀.Reaches allowed' events c := by
  induction h with
  | start => exact .start
  | apply _ op permitted ih => exact .apply ih op (himp _ op permitted)
  | remove _ cur ih => exact .remove ih cur
  | copy _ owner ih => exact .copy ih owner

/-- From a fallback there is no way back, and it logs no warning. -/
theorem fallback {f₀ : Fallback K V} (h : c₀.Reaches allowed events c) (hs : c₀.store = .fallback f₀) :
    (∃ f, c.store = .fallback f) ∧ warnings events = [] := by
  induction h with
  | start => exact ⟨⟨f₀, hs⟩, rfl⟩
  | @apply events c _ op permitted ih =>
      obtain ⟨⟨f, hf⟩, hnoWarning⟩ := ih
      have hform := apply_fallback_keepsForm hf op
      exact ⟨hform.form.exists_fallback hf, by rw [warnings_append, hnoWarning, hform.events]; rfl⟩
  | @remove events c _ cur ih =>
      obtain ⟨⟨f, hf⟩, hnoWarning⟩ := ih
      have hform := cursor_remove_keepsForm (c := c) (by rw [hf]; trivial) cur
      refine ⟨hform.form.exists_fallback hf, ?_⟩
      rw [warnings_append, hnoWarning, show (cur.remove c).events = [] from hform.events]
      rfl
  | copy _ owner ih => exact ih

variable [EquivBEq K]

/-- A run of operations that return, one step at a time: the container stays guarded, and it is in its fallback if and
    only if there has been a warning. -/
theorem guarded (h : c₀.Reaches Returns events c) (h₀ : c₀.Guarded) (hf₀ : c₀.isFallback = false) :
    c.maxChain = c₀.maxChain ∧ c.Guarded ∧ (warnings events).length = c.isFallback.toNat := by
  induction h with
  | start => exact ⟨rfl, h₀, by rw [hf₀]; rfl⟩
  | @apply events c _ op permitted ih =>
      obtain ⟨hmax, hguarded, hwarned⟩ := ih
      obtain ⟨a, ha⟩ := permitted
      have hwarns := apply_warnsExactly hguarded ha
      refine ⟨hwarns.maxChain.trans hmax, hwarns.guarded, ?_⟩
      rw [warnings_append, List.length_append, hwarned, hwarns.warnings, hwarns.isFallback]
      cases hf : c.isFallback with
      | true =>
          obtain ⟨f, hs⟩ := exists_fallback_of_isFallback hf
          rw [alarm?_fallback hs]
          rfl
      | false => cases c.alarm? op <;> rfl
  | @remove events c _ cur ih =>
      obtain ⟨hmax, hguarded, hwarned⟩ := ih
      have hform := cursor_remove_keepsForm hguarded.intact cur
      have hwarns := hform.warnsExactly hguarded
      refine ⟨hwarns.maxChain.trans hmax, hwarns.guarded, ?_⟩
      rw [show (cur.remove c).events = [] from hform.events, List.append_nil, hwarned]
      exact congrArg Bool.toNat (hwarns.isFallback.trans (Bool.or_false _)).symm
  | copy _ owner ih => exact ih

end Reaches

end Container

end DenseHash
