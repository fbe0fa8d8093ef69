/- Readers that take the first complete line off a buffer, and what is served by rounds of which
   each serves one thing at most. -/
import Mathlib.Data.List.Induction
import Mathlib.Tactic.Common

set_option autoImplicit false
set_option relaxedAutoImplicit false

namespace JiajiaNetwork.Lib

universe u

/-- `readline` returns the first complete line and what is left behind it, or nothing when no line
is complete. What comes later in the buffer does not change a line that is complete: `stable` is
true of lines that end with a newline, and of `EVBUFFER_EOL_ANY` of libevent as long as no run of CR
and LF is cut in two, since such a run is taken away as a whole. -/
structure LineReader (α : Type u) where
  readline : List α → Option (List α × List α)
  shorter : ∀ {buf line rest}, readline buf = some (line, rest) → rest.length < buf.length
  stable : ∀ {buf line rest}, readline buf = some (line, rest) →
    ∀ more, readline (buf ++ more) = some (line, rest ++ more)

namespace LineReader

variable {α : Type u} (R : LineReader α)

def linesUpTo : Nat → List α → List (List α)
  | 0, _ => []
  | n + 1, buf =>
    match R.readline buf with
    | none => []
    | some (line, rest) => line :: linesUpTo n rest

/-- The complete lines of a buffer, which has fewer of them than elements. -/
def lines (buf : List α) : List (List α) := R.linesUpTo buf.length buf

variable {R} {buf line rest : List α}

theorem linesUpTo_none (n : Nat) (h : R.readline buf = none) : R.linesUpTo n buf = [] := by
  cases n with
  | zero => rfl
  | succ n => simp only [linesUpTo, h]

theorem linesUpTo_congr (n : Nat) : ∀ (m : Nat) (buf : List α), buf.length ≤ n →
    buf.length ≤ m → R.linesUpTo n buf = R.linesUpTo m buf := by
  induction n with
  | zero =>
    intro m buf short _
    have none : R.readline buf = none := by
      cases read : R.readline buf with
      | none => rfl
      | some found => exact absurd (R.shorter read) (by omega)
    rw [linesUpTo_none 0 none, linesUpTo_none m none]
  | succ n ih =>
    intro m buf short short'
    cases read : R.readline buf with
    | none => rw [linesUpTo_none _ read, linesUpTo_none _ read]
    | some found =>
      obtain ⟨line, rest⟩ := found
      have less := R.shorter read
      obtain ⟨m, rfl⟩ : ∃ k, m = k + 1 := ⟨m - 1, by omega⟩
      simp only [linesUpTo, read]
      rw [ih m rest (by omega) (by omega)]

theorem lines_none (h : R.readline buf = none) : R.lines buf = [] := linesUpTo_none _ h

theorem lines_some (h : R.readline buf = some (line, rest)) :
    R.lines buf = line :: R.lines rest := by
  have less := R.shorter h
  obtain ⟨m, length⟩ : ∃ k, buf.length = k + 1 := ⟨buf.length - 1, by omega⟩
  rw [lines, length]
  simp only [linesUpTo, h]
  rw [linesUpTo_congr m rest.length rest (by omega) (Nat.le_refl _), lines]

end LineReader

/-- Round by round, one more of the things that are due is served if there is one. After `rounds`
at least `N` have been served exactly when at every earlier point enough were due for the rounds
that were left. -/
theorem le_served_iff {γ : Type u} (due served : List γ → Nat) (none : served [] = due [])
    (round : ∀ rounds c, served (rounds ++ [c]) = min (served rounds + 1) (due (rounds ++ [c]))) :
    ∀ (rounds : List γ) (N : Nat), N ≤ served rounds ↔
      ∀ front back, front ++ back = rounds → N ≤ due front + back.length := by
  intro rounds
  induction rounds using List.reverseRecOn with
  | nil =>
    intro N
    rw [none]
    constructor
    · intro enough front back split
      obtain ⟨rfl, rfl⟩ := List.append_eq_nil_iff.mp split
      exact enough
    · exact fun enough => enough [] [] rfl
  | append_singleton rounds c ih =>
    intro N
    rw [round, Nat.le_min]
    constructor
    · rintro ⟨before, now⟩ front back split
      rcases List.eq_nil_or_concat back with rfl | ⟨back, last, rfl⟩
      · rw [List.append_nil] at split
        rw [split]
        exact now
      · rw [List.concat_eq_append, ← List.append_assoc] at split
        obtain ⟨split, -⟩ := List.append_inj' split rfl
        have earlier := (ih (N - 1)).mp (by omega) front back split
        rw [List.concat_eq_append, List.length_append, List.length_singleton]
        omega
    · intro enough
      constructor
      · have earlier : N - 1 ≤ served rounds := by
          apply (ih (N - 1)).mpr
          intro front back split
          have later := enough front (back ++ [c]) (by rw [← List.append_assoc, split])
          rw [List.length_append, List.length_singleton] at later
          omega
        omega
      · exact enough (rounds ++ [c]) [] (List.append_nil _)

end JiajiaNetwork.Lib
