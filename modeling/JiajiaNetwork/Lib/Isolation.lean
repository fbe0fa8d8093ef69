/- Components that take turns over a shared store. When each of them changes only its own part
   of the store and sees nothing else, it runs as if it had the store to itself. -/
import JiajiaNetwork.Lib.Machine
import Mathlib.Logic.Function.Basic

set_option autoImplicit false
set_option relaxedAutoImplicit false

namespace JiajiaNetwork.Lib

universe u v w x y

/-- A program with a state `σ` of its own, over a store `μ` that it shares with others. What the
environment promises depends on the own state only. -/
structure Component (σ : Type u) (μ : Type v) (ι : Type w) where
  Lawful : σ → ι → Prop
  step : σ → μ → ι → Option (σ × μ)

namespace Component

variable {σ : Type u} {μ : Type v} {ι : Type w} {κ : Type x} {ν : Type y}

/-- One component with the store to itself. -/
def alone (C : Component σ μ ι) (own : σ) (store : μ) : Machine (σ × μ) ι where
  Start s := s = (own, store)
  Lawful s a := C.Lawful s.1 a
  step s a := C.step s.1 s.2 a

instance (C : Component σ μ ι) [∀ c a, Decidable (C.Lawful c a)] (own : σ) (store : μ) (s : σ × μ)
    (a : ι) : Decidable ((C.alone own store).Lawful s a) :=
  inferInstanceAs (Decidable (C.Lawful s.1 a))

variable [DecidableEq κ]

/-- A component for each `k`; an input says whose turn it is. -/
def family (C : Component σ μ ι) (owns : κ → σ) (store : μ) : Machine ((κ → σ) × μ) (κ × ι) where
  Start s := s = (owns, store)
  Lawful s a := C.Lawful (s.1 a.1) a.2
  step s a := (C.step (s.1 a.1) s.2 a.2).map fun t => (Function.update s.1 a.1 t.1, t.2)

instance (C : Component σ μ ι) [∀ c a, Decidable (C.Lawful c a)] (owns : κ → σ) (store : μ)
    (s : (κ → σ) × μ) (a : κ × ι) : Decidable ((C.family owns store).Lawful s a) :=
  inferInstanceAs (Decidable (C.Lawful (s.1 a.1) a.2))

/-- The inputs of one component in a run of the family. -/
def inputsOf (k : κ) (steps : List (((κ → σ) × μ) × (κ × ι))) : List ι :=
  steps.filterMap fun p => if p.2.1 = k then some p.2.2 else none

variable {C : Component σ μ ι} {owns : κ → σ} {store : μ} {k : κ}
  {steps : List (((κ → σ) × μ) × (κ × ι))} {s t : (κ → σ) × μ}

theorem inputsOf_own (a : ι) : inputsOf k (steps ++ [(s, (k, a))]) = inputsOf k steps ++ [a] := by
  simp [inputsOf]

theorem inputsOf_other {j : κ} (a : ι) (other : j ≠ k) :
    inputsOf k (steps ++ [(s, (j, a))]) = inputsOf k steps := by
  simp [inputsOf, other]

/-- A step of the family is a step of the component whose turn it is. -/
theorem family_step {a : κ × ι} (run : (C.family owns store).step s a = some t) :
    ∃ own m, C.step (s.1 a.1) s.2 a.2 = some (own, m) ∧ t = (Function.update s.1 a.1 own, m) := by
  obtain ⟨⟨own, m⟩, moved, rfl⟩ := Option.map_eq_some_iff.mp run
  exact ⟨own, m, moved, rfl⟩

/-- What every step of `k` that meets `E` keeps of its own state holds of it in every run in which
all of them do. -/
theorem own_invariant {P : σ → Prop} {E : σ → μ → ι → Prop}
    (h : ((C.family owns store).guard fun s a => a.1 = k → E (s.1 k) s.2 a.2).Reachable s)
    (start : P (owns k)) (keeps : ∀ c m a c' m', P c → C.Lawful c a → E c m a →
      C.step c m a = some (c', m') → P c') : P (s.1 k) := by
  apply h.invariant
  · rintro s rfl
    exact start
  · intro s a t _ before lawful run
    change (C.family owns store).step s a = some t at run
    obtain ⟨own, m, moved, rfl⟩ := family_step run
    show P (Function.update s.1 a.1 own k)
    by_cases turn : k = a.1
    · subst turn
      rw [Function.update_self]
      exact keeps _ _ _ _ _ before lawful.1 (lawful.2 rfl) moved
    · rw [Function.update_of_ne turn]
      exact before

/-- Among the states of the components that are `Good`, a step of `k` changes what `k` sees of the
store and depends on it, and nobody else sees a change. -/
structure Isolated (C : Component σ μ ι) (Good : κ → σ → Prop) (view : κ → μ → ν) : Prop where
  good : ∀ {k c m a c' m'}, Good k c → C.Lawful c a → C.step c m a = some (c', m') → Good k c'
  frame : ∀ {k c m a c' m'}, Good k c → C.Lawful c a → C.step c m a = some (c', m') →
    ∀ j, j ≠ k → view j m' = view j m
  own : ∀ {k c m a c' m'} (other : μ), Good k c → C.Lawful c a → C.step c m a = some (c', m') →
    view k other = view k m → ∃ other', C.step c other a = some (c', other') ∧
      view k other' = view k m'

namespace Isolated

variable {Good : κ → σ → Prop} {view : κ → μ → ν}

theorem reachable_good (isolated : Isolated C Good view) (start : ∀ k, Good k (owns k))
    (h : (C.family owns store).Reachable s) : ∀ k, Good k (s.1 k) := by
  intro k
  apply own_invariant (E := fun _ _ _ => True) (h.guard fun _ _ _ => trivial) (start k)
  exact fun c m a c' m' good lawful _ => isolated.good good lawful

/-- Each component ends in the state, and sees the store, that it would have had alone. -/
theorem alone_of_run [∀ c a, Decidable (C.Lawful c a)] (isolated : Isolated C Good view)
    (start : ∀ k, Good k (owns k)) (h : (C.family owns store).Run steps s) (k : κ) :
    ∃ m, (C.alone (owns k) store).replay (owns k, store) (inputsOf k steps) = some (s.1 k, m) ∧
      view k m = view k s.2 := by
  apply h.invariant
  · rintro s rfl
    exact ⟨store, rfl, rfl⟩
  · intro steps s a t hr ih lawful run
    obtain ⟨m, replayed, same⟩ := ih
    have good := isolated.reachable_good start hr.reachable
    obtain ⟨own, m', moved, rfl⟩ := family_step run
    obtain ⟨j, a⟩ := a
    by_cases turn : j = k
    · subst turn
      obtain ⟨m'', follows, view'⟩ := isolated.own m (good j) lawful moved same
      have last : (C.alone (owns j) store).replay (s.1 j, m) [a] = some (own, m'') := by
        have promised : C.Lawful (s.1 j) a := lawful
        show (if C.Lawful (s.1 j) a then (C.step (s.1 j) m a).bind some else none) = _
        rw [if_pos promised, follows]
        rfl
      refine ⟨m'', ?_, view'⟩
      rw [inputsOf_own, Machine.replay_append, replayed, Option.bind_some, last]
      show some (own, m'') = some (Function.update s.1 j own j, m'')
      rw [Function.update_self]
    · have frame := isolated.frame (good j) lawful moved k (Ne.symm turn)
      refine ⟨m, ?_, same.trans frame.symm⟩
      show _ = some (Function.update s.1 j own k, m)
      rw [inputsOf_other a turn, Function.update_of_ne (Ne.symm turn)]
      exact replayed

end Isolated

end Component

end JiajiaNetwork.Lib
