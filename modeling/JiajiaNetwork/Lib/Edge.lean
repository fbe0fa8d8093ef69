/- Notices that are raised by arrivals and used up by being reported: what waits has a notice
   pending or is among those reported and not handled yet. -/
import Mathlib.Data.List.Basic
import Mathlib.Tactic.Common

set_option autoImplicit false
set_option relaxedAutoImplicit false

namespace JiajiaNetwork.Lib

universe u v

variable {κ : Type u}

def Covered (waiting pending : κ → Prop) (ahead : List κ) : Prop :=
  ∀ k, waiting k → pending k ∨ k ∈ ahead

namespace Covered

variable {waiting waiting' pending pending' : κ → Prop} {ahead : List κ}

/-- Something comes to wait, with a notice. -/
theorem arrives (h : Covered waiting pending ahead)
    (noticed : ∀ k, waiting' k → waiting k ∨ pending' k) (kept : ∀ k, pending k → pending' k) :
    Covered waiting' pending' ahead := by
  intro k hk
  rcases noticed k hk with old | new
  · exact (h k old).imp_left (kept k)
  · exact .inl new

/-- The notices of a batch are used up. -/
theorem reported {batch : List κ} (h : Covered waiting pending [])
    (waits : ∀ k, waiting' k → waiting k)
    (kept : ∀ k, waiting k → pending k → pending' k ∨ k ∈ batch) :
    Covered waiting' pending' batch := by
  intro k hk
  rcases h k (waits k hk) with noticed | absent
  · exact kept k (waits k hk) noticed
  · cases absent

/-- One of those ahead is handled: it waits no more, or has a newer notice. -/
theorem handled {x : κ} {rest : List κ} (h : Covered waiting pending ahead)
    (next : ∀ k ∈ ahead, k = x ∨ k ∈ rest) (done : waiting' x → pending' x)
    (others : ∀ k, k ≠ x → (waiting' k → waiting k) ∧ (pending k → pending' k)) :
    Covered waiting' pending' rest := by
  intro k hk
  by_cases same : k = x
  · subst same
    exact .inl (done hk)
  · obtain ⟨waits, kept⟩ := others k same
    rcases h k (waits hk) with noticed | mem
    · exact .inl (kept noticed)
    · exact .inr ((next k mem).resolve_left same)

/-- Those ahead are forgotten, and each of them has a newer notice if it waits. -/
theorem dropped (h : Covered waiting pending ahead)
    (spared : ∀ k ∈ ahead, waiting k → pending k) : Covered waiting pending [] := by
  intro k hk
  rcases h k hk with noticed | mem
  · exact .inl noticed
  · exact .inl (spared k mem hk)

theorem settled (h : Covered waiting pending []) {k : κ} (hk : waiting k) : pending k := by
  rcases h k hk with noticed | absent
  · exact noticed
  · cases absent

end Covered

section Reports

variable {ρ : Type v} (key : ρ → κ) (loud : ρ → Prop) [DecidablePred loud]

/-- What the reports of a kind are about. -/
def keysOf (reports : List ρ) : List κ := (reports.filter fun r => decide (loud r)).map key

variable {key loud} {k : κ} {r : ρ} {rest : List ρ}

theorem mem_keysOf : k ∈ keysOf key loud rest ↔ ∃ r ∈ rest, loud r ∧ key r = k := by
  simp only [keysOf, List.mem_map, List.mem_filter, decide_eq_true_eq, and_assoc]

theorem keysOf_cons : ∀ k ∈ keysOf key loud (r :: rest), k = key r ∨ k ∈ keysOf key loud rest := by
  intro k mem
  obtain ⟨r', hr', loud', rfl⟩ := mem_keysOf.mp mem
  rcases List.mem_cons.mp hr' with rfl | later
  · exact .inl rfl
  · exact .inr (mem_keysOf.mpr ⟨r', later, loud', rfl⟩)

theorem keysOf_skip (silent : ¬ loud r) :
    keysOf key loud (r :: rest) = keysOf key loud rest := by
  rw [keysOf, List.filter_cons_of_neg (by simpa using silent), ← keysOf]

end Reports

end JiajiaNetwork.Lib
