/- What the two threads of `pthread/test_pthread_mutex_t.c` end with. A thread that has both mutexes
   runs alone, so that the updates have the effect of one thread after the other; and the program
   ends unless each thread took its first mutex before the other one took both. -/
import Mathlib.Tactic.IntervalCases
import JiajiaNetwork.PthreadMutex.Program

set_option autoImplicit false
set_option relaxedAutoImplicit false

namespace JiajiaNetwork.PthreadMutex

open Lib Lib.Threads

abbrev State := St Thread Name Data

/-- The variables behind `i` operations of `main` and then `j` of `another`. -/
def mainFirst (i j : Nat) : Data := acts (anotherCode.take j) (acts (mainCode.take i) initialData)

/-- The variables behind `j` operations of `another` and then `i` of `main`. -/
def anotherFirst (i j : Nat) : Data :=
  acts (mainCode.take i) (acts (anotherCode.take j) initialData)

/-- Before either thread has its second mutex the order is open; then it is that of the locks. -/
inductive Ordered (i j : Nat) (d : Data) : Prop
  | neither : i ≤ 6 → j ≤ 3 → d = mainFirst i j → Ordered i j d
  | main : 7 ≤ i → (i ≤ 11 → j = 0) → d = mainFirst i j → Ordered i j d
  | another : 4 ≤ j → (j ≤ 8 → i ≤ 3) → d = anotherFirst i j → Ordered i j d

/-- `main` has executed `i` operations and `another` has executed `j`. -/
structure At (s : State) (i j : Nat) : Prop where
  owned : Owned code s
  main : s.pc .main = some i
  another : s.pc .another = if i ≤ 2 then none else some j
  uncreated : i ≤ 2 → j = 0
  upper : i ≤ 16
  upper' : j ≤ 10
  joined : 14 ≤ i → j = 10
  rawA : s.mutex .mutexA = .raw ↔ i = 0 ∨ 15 ≤ i
  rawB : s.mutex .mutexB = .raw ↔ i ≤ 1 ∨ 16 ≤ i
  ordered : Ordered i j s.data

theorem holds_main_mutexA : ∀ i ≤ 16,
    holds .mutexA (mainCode.take i) = decide (4 ≤ i ∧ i ≤ 12) := by
  decide

theorem holds_main_mutexB : ∀ i ≤ 16,
    holds .mutexB (mainCode.take i) = decide (7 ≤ i ∧ i ≤ 11) := by
  decide

theorem holds_another_mutexA :
    ∀ j ≤ 10, holds .mutexA (anotherCode.take j) = decide (4 ≤ j ∧ j ≤ 8) := by
  decide

theorem holds_another_mutexB :
    ∀ j ≤ 10, holds .mutexB (anotherCode.take j) = decide (1 ≤ j ∧ j ≤ 9) := by
  decide

/-- What the operation at `n` does to the variables. -/
def applyAt (ops : Code) (n : Nat) (d : Data) : Data := (ops[n]?.elim id Op.apply) d

/-- Before either thread has its second mutex, they update different variables. -/
theorem applyAt_mainFirst : ∀ i < 16, ∀ j ≤ 10, i ≤ 5 ∧ j ≤ 3 ∨ j = 0 ∨ i = 6 ∨ 11 ≤ i →
    applyAt mainCode i (mainFirst i j) = mainFirst (i + 1) j := by
  decide

theorem applyAt_anotherFirst : ∀ i ≤ 16, ∀ j < 10, i ≤ 3 ∨ 8 ≤ j →
    applyAt anotherCode j (anotherFirst i j) = anotherFirst i (j + 1) := by
  decide

theorem mainFirst_eq_anotherFirst : ∀ i ≤ 3, mainFirst i 4 = anotherFirst i 4 := by
  decide

section Steps

variable {s s' : State} {i j : Nat}

theorem At.done_main (h : At s i j) : done code s .main = mainCode.take i := by
  rw [done, h.main]
  rfl

theorem At.done_another (h : At s i j) : done code s .another = anotherCode.take j := by
  rw [done, h.another]
  by_cases early : i ≤ 2
  · rw [if_pos early, h.uncreated early]
    rfl
  · rw [if_neg early]
    rfl

theorem At.main_holds {m : Name} (h : At s i j) :
    s.mutex m = .held .main ↔ holds m (mainCode.take i) = true := by
  rw [h.owned m .main, h.done_main]

theorem At.another_holds {m : Name} (h : At s i j) :
    s.mutex m = .held .another ↔ holds m (anotherCode.take j) = true := by
  rw [h.owned m .another, h.done_another]

/-- `main` executes the operation at `i`, and `another` stays where it is. -/
theorem Ordered.main_step {d : Data} (h : Ordered i j d) (lower : i < 16) (upper : j ≤ 10)
    (lockA : i = 3 → ¬ (4 ≤ j ∧ j ≤ 8)) (lockB : i = 6 → j = 0 ∨ j = 10) :
    Ordered (i + 1) j (applyAt mainCode i d) := by
  cases h with
  | neither before before' same =>
    subst same
    have next := applyAt_mainFirst i lower j upper (by omega)
    rw [next]
    by_cases last : i = 6
    · exact .main (by omega) (fun _ => by have := lockB last; omega) rfl
    · exact .neither (by omega) before' rfl
  | main both alone same =>
    subst same
    have next := applyAt_mainFirst i lower j upper (by omega)
    rw [next]
    exact .main (by omega) (fun inside => alone (by omega)) rfl
  | another both alone same =>
    subst same
    refine .another both (fun inside => by have := alone inside; have := lockA; omega) ?_
    obtain ⟨op, here⟩ : ∃ op, mainCode[i]? = some op := ⟨_, List.getElem?_eq_getElem lower⟩
    rw [anotherFirst, anotherFirst, acts_take_succ here, applyAt, here]
    rfl

theorem Ordered.another_step {d : Data} (h : Ordered i j d) (lower : j < 10) (upper : i ≤ 16)
    (lockB : j = 0 → ¬ (7 ≤ i ∧ i ≤ 11)) (lockA : j = 3 → ¬ (4 ≤ i ∧ i ≤ 12)) :
    Ordered i (j + 1) (applyAt anotherCode j d) := by
  obtain ⟨op, here⟩ : ∃ op, anotherCode[j]? = some op := ⟨_, List.getElem?_eq_getElem lower⟩
  have next : applyAt anotherCode j (mainFirst i j) = mainFirst i (j + 1) := by
    rw [mainFirst, mainFirst, acts_take_succ here, applyAt, here]
    rfl
  cases h with
  | neither before before' same =>
    subst same
    rw [next]
    by_cases last : j = 3
    · subst last
      have early : i ≤ 3 := by have := lockA rfl; omega
      exact .another (by omega) (fun _ => early) (mainFirst_eq_anotherFirst i early)
    · exact .neither before (by omega) rfl
  | main both alone same =>
    subst same
    rw [next]
    exact .main both (fun inside => absurd ⟨both, inside⟩ (lockB (alone inside))) rfl
  | another both alone same =>
    subst same
    rw [applyAt_anotherFirst i upper j lower (by omega)]
    exact .another (by omega) (fun inside => alone (by omega)) rfl

/-- The variables behind a step, from the operation that was executed. -/
theorem exec_applyAt {ops : Code} {t : Thread} {n : Nat} {op : Op Thread Name Data} {r : State}
    (here : ops[n]? = some op) (executed : exec s t op = some r) :
    r.data = applyAt ops n s.data := by
  rw [exec_data executed, applyAt, here]
  rfl

theorem At.step_main (h : At s i j) (ready : Ready code s .main)
    (run : Threads.step code s .main = some s') : At s' (i + 1) j := by
  obtain ⟨n, op, r, at_n, here, executed, rfl⟩ := step_cases run
  obtain rfl : n = i := Option.some.inj (at_n.symm.trans h.main)
  have next : nextOp code s .main = some op := by simpa [nextOp, at_n] using here
  replace here : mainCode[n]? = some op := here
  have lower : n < 16 := (List.getElem?_eq_some_iff.mp here).1
  have raw := exec_raw executed
  have counter := exec_pc executed .another
  -- a mutex that `main` locks is not held by `another`
  have available : ∀ m, op = .lock m → holds m (anotherCode.take j) = false := by
    rintro m rfl
    simp only [exec] at executed
    split_ifs at executed with free
    rw [← Bool.not_eq_true, ← h.another_holds, free]
    simp
  have lockA : n = 3 → ¬ (4 ≤ j ∧ j ≤ 8) := by
    rintro rfl
    obtain rfl : op = .lock .mutexA := (Option.some.inj here).symm
    simpa [holds_another_mutexA j h.upper'] using available .mutexA rfl
  have lockB : n = 6 → j = 0 ∨ j = 10 := by
    rintro rfl
    obtain rfl : op = .lock .mutexB := (Option.some.inj here).symm
    have none := available .mutexB rfl
    rw [holds_another_mutexB j h.upper', decide_eq_false_iff_not] at none
    have := h.upper'
    omega
  constructor
  case owned => exact h.owned.step run
  case main => exact goTo_pc
  case upper => omega
  case upper' => exact h.upper'
  case ordered =>
    show Ordered (n + 1) j r.data
    rw [exec_applyAt here executed]
    exact h.ordered.main_step lower h.upper' lockA lockB
  case uncreated => exact fun early => h.uncreated (by omega)
  case another =>
    have before := h.another
    have unborn := h.uncreated
    rw [goTo_pc_of_ne (by decide), counter]
    interval_cases n <;> simp [mainCode] at here <;> subst here <;> simp_all
  case joined =>
    intro late
    by_cases joins : n = 13
    · -- `join` waits until `another` has executed everything
      subst joins
      obtain rfl : op = .join .another := (Option.some.inj here).symm
      rw [Ready, next] at ready
      have past : (code .another).length ≤ j := by simpa [nextOp, h.another] using ready
      replace past : 10 ≤ j := past
      have upper := h.upper'
      omega
    · exact h.joined (by omega)
  case rawA =>
    show r.mutex .mutexA = .raw ↔ _
    rw [raw, h.rawA]
    interval_cases n <;> simp [mainCode] at here <;> subst here <;> simp
  case rawB =>
    show r.mutex .mutexB = .raw ↔ _
    rw [raw, h.rawB]
    interval_cases n <;> simp [mainCode] at here <;> subst here <;> simp

theorem At.step_another (h : At s i j) (run : Threads.step code s .another = some s') :
    At s' i (j + 1) := by
  obtain ⟨n, op, r, at_n, here, executed, rfl⟩ := step_cases run
  have created : ¬ i ≤ 2 := by
    intro early
    have before := h.another
    rw [if_pos early, at_n] at before
    cases before
  obtain rfl : n = j := by
    have before := h.another
    rw [if_neg created, at_n] at before
    exact Option.some.inj before
  replace here : anotherCode[n]? = some op := here
  have lower : n < 10 := (List.getElem?_eq_some_iff.mp here).1
  have raw := exec_raw executed
  have counter := exec_pc executed .main
  have available : ∀ m, op = .lock m → holds m (mainCode.take i) = false := by
    rintro m rfl
    simp only [exec] at executed
    split_ifs at executed with free
    rw [← Bool.not_eq_true, ← h.main_holds, free]
    simp
  have lockA : n = 3 → ¬ (4 ≤ i ∧ i ≤ 12) := by
    rintro rfl
    obtain rfl : op = .lock .mutexA := (Option.some.inj here).symm
    simpa [holds_main_mutexA i h.upper] using available .mutexA rfl
  have lockB : n = 0 → ¬ (7 ≤ i ∧ i ≤ 11) := by
    rintro rfl
    obtain rfl : op = .lock .mutexB := (Option.some.inj here).symm
    simpa [holds_main_mutexB i h.upper] using available .mutexB rfl
  constructor
  case owned => exact h.owned.step run
  case main =>
    rw [goTo_pc_of_ne (by decide), counter, h.main]
    interval_cases n <;> simp [anotherCode] at here <;> subst here <;> rfl
  case another => rw [if_neg created, goTo_pc]
  case uncreated => exact fun early => absurd early created
  case upper => exact h.upper
  case upper' => omega
  case joined =>
    intro late
    have := h.joined late
    omega
  case rawA =>
    show r.mutex .mutexA = .raw ↔ _
    rw [raw, ← h.rawA]
    interval_cases n <;> simp [anotherCode] at here <;> subst here <;> rfl
  case rawB =>
    show r.mutex .mutexB = .raw ↔ _
    rw [raw, ← h.rawB]
    interval_cases n <;> simp [anotherCode] at here <;> subst here <;> rfl
  case ordered =>
    show Ordered i (n + 1) r.data
    rw [exec_applyAt here executed]
    exact h.ordered.another_step lower h.upper lockB lockA

end Steps

theorem reachable_at {s : State} (h : machine.Reachable s) : ∃ i j, At s i j := by
  apply h.invariant
  · rintro s rfl
    have start : machine.Reachable _ := .start rfl
    exact ⟨0, 0, reachable_owned start, rfl, rfl, fun _ => rfl, by omega, by omega, by omega,
      by simp, by simp, .neither (by omega) (by omega) rfl⟩
  · rintro s t s' - ⟨i, j, h⟩ ready run
    cases t with
    | main => exact ⟨i + 1, j, h.step_main ready run⟩
    | another => exact ⟨i, j + 1, h.step_another run⟩

/-- Both threads have executed everything. -/
def Finished (s : State) : Prop := s.pc .main = some 16 ∧ s.pc .another = some 10

/-- Whatever the order of the steps, the threads end with the values of one after the other. -/
theorem outcome_serial {s : State} (h : machine.Reachable s) (finished : Finished s) :
    (s.data.a, s.data.b) = (2, 3) ∨ (s.data.a, s.data.b) = (3, 2) := by
  obtain ⟨i, j, h⟩ := reachable_at h
  obtain rfl : i = 16 := Option.some.inj (h.main.symm.trans finished.1)
  obtain rfl : j = 10 := h.joined (by omega)
  cases h.ordered with
  | neither early _ _ => omega
  | main _ _ same => exact .inl (by rw [same]; rfl)
  | another _ _ same => exact .inr (by rw [same]; rfl)

/-- `another` is created, waits until `main` has unlocked `mutex_b`, and runs while `main` waits for
its end. -/
def ranToEnd : State := (machine.replay initial
  (List.replicate 12 .main ++ [.another] ++ [.main] ++ List.replicate 9 .another ++
    List.replicate 3 .main)).getD initial

theorem outcome_serial_ranToEnd :
    (ranToEnd.data.a, ranToEnd.data.b) = (2, 3) ∨ (ranToEnd.data.a, ranToEnd.data.b) = (3, 2) := by
  have start : machine.Reachable initial := .start rfl
  exact outcome_serial (start.replay_getD _) ⟨by decide, by decide⟩

end JiajiaNetwork.PthreadMutex
