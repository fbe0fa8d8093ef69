/- Things that are each at exactly one place at a time, such as a permission that is handed
   from one party to the next. -/
import Mathlib.Tactic.Common

set_option autoImplicit false
set_option relaxedAutoImplicit false

namespace JiajiaNetwork.Lib

universe u v

variable {κ : Type u} {π : Type v}

/-- Every known thing is at one place and at no second one, and nothing else is anywhere. -/
structure Placed (Known : κ → Prop) (At : κ → π → Prop) : Prop where
  held : ∀ k, Known k → ∃ p, At k p
  known : ∀ k p, At k p → Known k
  unique : ∀ k p q, At k p → At k q → p = q

namespace Placed

variable {Known Known' : κ → Prop} {At At' : κ → π → Prop}

theorem congr (h : Placed Known At) (known : ∀ k, Known' k ↔ Known k)
    (places : ∀ k p, At' k p ↔ At k p) : Placed Known' At' where
  held k hk := by
    obtain ⟨p, hp⟩ := h.held k ((known k).mp hk)
    exact ⟨p, (places k p).mpr hp⟩
  known k p hp := (known k).mpr (h.known k p ((places k p).mp hp))
  unique k p q hp hq := h.unique k p q ((places k p).mp hp) ((places k q).mp hq)

/-- Some of the things go from the place `o` to the place `q`. -/
theorem moves (h : Placed Known At) (moved : κ → Prop) {o q : π}
    (source : ∀ k, moved k → At k o) (target : ∀ k, moved k → At' k q)
    (left : ∀ k, moved k → At' k o → o = q)
    (frame : ∀ k p, (moved k → p ≠ o ∧ p ≠ q) → (At' k p ↔ At k p))
    (known : ∀ k, Known' k ↔ Known k) : Placed Known' At' := by
  -- where a moved thing is afterwards
  have only : ∀ k p, moved k → At' k p → p = q := by
    intro k p hk hp
    by_cases same : p = q
    · exact same
    · by_cases old : p = o
      · subst old
        exact left k hk hp
      · have before : At k p := (frame k p fun _ => ⟨old, same⟩).mp hp
        exact absurd (h.unique k p o before (source k hk)) old
  constructor
  · intro k hk
    by_cases moving : moved k
    · exact ⟨q, target k moving⟩
    · obtain ⟨p, hp⟩ := h.held k ((known k).mp hk)
      exact ⟨p, (frame k p fun absent => absurd absent moving).mpr hp⟩
  · intro k p hp
    rw [known]
    by_cases moving : moved k
    · exact h.known k o (source k moving)
    · exact h.known k p ((frame k p fun absent => absurd absent moving).mp hp)
  · intro k p p' hp hp'
    by_cases moving : moved k
    · rw [only k p moving hp, only k p' moving hp']
    · exact h.unique k p p' ((frame k p fun absent => absurd absent moving).mp hp)
        ((frame k p' fun absent => absurd absent moving).mp hp')

/-- A new thing appears at the place `q`. -/
theorem enters (h : Placed Known At) {x : κ} {q : π} (new : ¬ Known x) (target : At' x q)
    (frame : ∀ k p, (k = x → p ≠ q) → (At' k p ↔ At k p))
    (known : ∀ k, Known' k ↔ Known k ∨ k = x) : Placed Known' At' := by
  have only : ∀ p, At' x p → p = q := by
    intro p hp
    by_contra other
    exact new (h.known x p ((frame x p fun _ => other).mp hp))
  constructor
  · intro k hk
    by_cases same : k = x
    · exact ⟨q, same ▸ target⟩
    · obtain ⟨p, hp⟩ := h.held k (((known k).mp hk).resolve_right same)
      exact ⟨p, (frame k p fun absent => absurd absent same).mpr hp⟩
  · intro k p hp
    rw [known]
    by_cases same : k = x
    · exact .inr same
    · exact .inl (h.known k p ((frame k p fun absent => absurd absent same).mp hp))
  · intro k p p' hp hp'
    by_cases same : k = x
    · subst same
      rw [only p hp, only p' hp']
    · exact h.unique k p p' ((frame k p fun absent => absurd absent same).mp hp)
        ((frame k p' fun absent => absurd absent same).mp hp')

/-- The thing `x` disappears from the place `o`. -/
theorem leaves (h : Placed Known At) {x : κ} {o : π} (source : At x o) (left : ¬ At' x o)
    (frame : ∀ k p, (k = x → p ≠ o) → (At' k p ↔ At k p))
    (known : ∀ k, Known' k ↔ Known k ∧ k ≠ x) : Placed Known' At' := by
  have gone : ∀ p, ¬ At' x p := by
    intro p hp
    by_cases same : p = o
    · exact left (same ▸ hp)
    · have before : At x p := (frame x p fun _ => same).mp hp
      exact same (h.unique x p o before source)
  constructor
  · intro k hk
    obtain ⟨old, other⟩ := (known k).mp hk
    obtain ⟨p, hp⟩ := h.held k old
    exact ⟨p, (frame k p fun absent => absurd absent other).mpr hp⟩
  · intro k p hp
    have other : k ≠ x := fun same => gone p (same ▸ hp)
    exact (known k).mpr ⟨h.known k p ((frame k p fun absent => absurd absent other).mp hp), other⟩
  · intro k p p' hp hp'
    have other : k ≠ x := fun same => gone p (same ▸ hp)
    exact h.unique k p p' ((frame k p fun absent => absurd absent other).mp hp)
      ((frame k p' fun absent => absurd absent other).mp hp')

end Placed

end JiajiaNetwork.Lib
