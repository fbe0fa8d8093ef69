/- A copy that is taken again only from a sample with a greater version: as long as versions do
   not go back, it is the first sample with the version of the last one. -/
import Mathlib.Data.List.Induction
import Mathlib.Order.Lattice
import Mathlib.Tactic.Common

set_option autoImplicit false
set_option relaxedAutoImplicit false

namespace JiajiaNetwork.Lib

universe u v

/-- What the original held when it was looked at, and under which version. -/
structure Sample (ν : Type u) (α : Type v) where
  version : ν
  value : α
  deriving DecidableEq

section Refresh

variable {ν : Type u} {α : Type v} [LinearOrder ν]

/-- Samples with versions up to `bottom` are never copied. -/
def refresh (bottom : ν) (copy : Option (Sample ν α)) (x : Sample ν α) : Option (Sample ν α) :=
  if copy.elim bottom Sample.version < x.version then some x else copy

def copyOf (bottom : ν) (samples : List (Sample ν α)) : Option (Sample ν α) :=
  samples.foldl (refresh bottom) none

/-- The first sample with the version of `x`. -/
def firstLike (x : Sample ν α) (samples : List (Sample ν α)) : Option (Sample ν α) :=
  samples.find? fun y => y.version = x.version

variable {bottom : ν} {samples : List (Sample ν α)} {x y : Sample ν α}

theorem copyOf_concat :
    copyOf bottom (samples ++ [x]) = refresh bottom (copyOf bottom samples) x := by
  rw [copyOf, List.foldl_append]
  rfl

/-- Nothing was copied as long as no version is above the bottom. -/
theorem le_of_copyOf_eq_none (none : copyOf bottom samples = none) :
    ∀ y ∈ samples, y.version ≤ bottom := by
  induction samples using List.reverseRecOn with
  | nil => exact fun y mem => absurd mem List.not_mem_nil
  | append_singleton samples x ih =>
    rw [copyOf_concat, refresh] at none
    split_ifs at none with newer
    intro y mem
    rcases List.mem_append.mp mem with old | last
    · exact ih none y old
    · rw [none] at newer
      rw [List.mem_singleton.mp last]
      exact not_lt.mp newer

/-- The copy has the greatest version so far, and is the first sample with it. -/
theorem copyOf_eq_some (copied : copyOf bottom samples = some y) :
    bottom < y.version ∧ firstLike y samples = some y ∧ ∀ z ∈ samples, z.version ≤ y.version := by
  induction samples using List.reverseRecOn generalizing y with
  | nil => cases copied
  | append_singleton samples x ih =>
    rw [copyOf_concat, refresh] at copied
    split_ifs at copied with newer
    · obtain rfl := Option.some.inj copied
      -- the samples before have smaller versions
      have above : bottom < x.version ∧ ∀ z ∈ samples, z.version < x.version := by
        cases before : copyOf bottom samples with
        | none =>
          rw [before] at newer
          exact ⟨newer, fun z mem => lt_of_le_of_lt (le_of_copyOf_eq_none before z mem) newer⟩
        | some w =>
          rw [before] at newer
          obtain ⟨lower, -, most⟩ := ih before
          exact ⟨lt_trans lower newer, fun z mem => lt_of_le_of_lt (most z mem) newer⟩
      refine ⟨above.1, ?_, ?_⟩
      · rw [firstLike, List.find?_append, List.find?_eq_none.mpr, Option.none_or]
        · simp
        · intro z mem
          simpa using ne_of_lt (above.2 z mem)
      · intro z mem
        rcases List.mem_append.mp mem with old | last
        · exact le_of_lt (above.2 z old)
        · rw [List.mem_singleton.mp last]
    · obtain ⟨lower, first, most⟩ := ih copied
      refine ⟨lower, ?_, ?_⟩
      · rw [firstLike, List.find?_append]
        rw [firstLike] at first
        rw [first, Option.some_or]
      · rw [copied] at newer
        intro z mem
        rcases List.mem_append.mp mem with old | last
        · exact most z old
        · rw [List.mem_singleton.mp last]
          exact not_lt.mp newer

/-- With versions that do not go back, the copy is the first sample like the last one. -/
theorem copyOf_eq_firstLike (last : ∀ z ∈ samples, z.version ≤ x.version) (mem : x ∈ samples) :
    copyOf bottom samples = if bottom < x.version then firstLike x samples else none := by
  cases copied : copyOf bottom samples with
  | none =>
    rw [if_neg (not_lt.mpr (le_of_copyOf_eq_none copied x mem))]
  | some y =>
    obtain ⟨lower, first, most⟩ := copyOf_eq_some copied
    have member : y ∈ samples := List.mem_of_find?_eq_some first
    have same : y.version = x.version := le_antisymm (last y member) (most x mem)
    rw [if_pos (same ▸ lower), firstLike, ← same]
    exact first.symm

end Refresh

end JiajiaNetwork.Lib
