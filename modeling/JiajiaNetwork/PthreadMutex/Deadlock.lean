/- When the threads of `pthread/test_pthread_mutex_t.c` wait for each other. Once each has its first
   mutex and not yet its second one, neither gets that; from every other state the program can
   still end. -/
import JiajiaNetwork.PthreadMutex.Outcome

set_option autoImplicit false
set_option relaxedAutoImplicit false

namespace JiajiaNetwork.PthreadMutex

open Lib Lib.Threads

/-- Each thread has its first mutex and not yet its second one. -/
def Crossed (s : State) : Prop := ∃ i j, s.pc .main = some i ∧ s.pc .another = some j ∧
  (4 ≤ i ∧ i ≤ 6) ∧ 1 ≤ j ∧ j ≤ 3

section Ready

variable {s : State} {i j : Nat}

theorem At.crossed_iff (h : At s i j) : Crossed s ↔ (4 ≤ i ∧ i ≤ 6) ∧ 1 ≤ j ∧ j ≤ 3 := by
  constructor
  · rintro ⟨i', j', hi, hj, first, second⟩
    obtain rfl : i' = i := Option.some.inj (hi.symm.trans h.main)
    have counter := h.another
    rw [if_neg (by omega), hj] at counter
    obtain rfl := Option.some.inj counter
    exact ⟨first, second⟩
  · rintro ⟨first, second⟩
    exact ⟨i, j, h.main, by rw [h.another, if_neg (by omega)], first, second⟩

theorem At.next_main (h : At s i j) : nextOp code s .main = mainCode[i]? := by
  rw [nextOp, h.main]
  rfl

theorem At.next_another (h : At s i j) (created : 3 ≤ i) :
    nextOp code s .another = anotherCode[j]? := by
  rw [nextOp, h.another, if_neg (by omega)]
  rfl

/-- A mutex is free where it is initialised and neither thread holds it. -/
theorem At.free {m : Name} (h : At s i j) (ready : s.mutex m ≠ .raw)
    (main : holds m (mainCode.take i) = false)
    (another : holds m (anotherCode.take j) = false) : s.mutex m = .free := by
  cases state : s.mutex m with
  | raw => exact absurd state ready
  | free => rfl
  | held t =>
    cases t with
    | main => simp [h.main_holds.mp state] at main
    | another => simp [h.another_holds.mp state] at another

theorem At.freeA (h : At s i j) (first : 1 ≤ i ∧ i ≤ 14) (main : ¬ (4 ≤ i ∧ i ≤ 12))
    (another : ¬ (4 ≤ j ∧ j ≤ 8)) : s.mutex .mutexA = .free := by
  apply h.free
  · rw [Ne, h.rawA]
    omega
  · rw [holds_main_mutexA i h.upper, decide_eq_false main]
  · rw [holds_another_mutexA j h.upper', decide_eq_false another]

theorem At.freeB (h : At s i j) (first : 2 ≤ i ∧ i ≤ 15) (main : ¬ (7 ≤ i ∧ i ≤ 11))
    (another : ¬ (1 ≤ j ∧ j ≤ 9)) : s.mutex .mutexB = .free := by
  apply h.free
  · rw [Ne, h.rawB]
    omega
  · rw [holds_main_mutexB i h.upper, decide_eq_false main]
  · rw [holds_another_mutexB j h.upper', decide_eq_false another]

/-- `main` goes on unless it waits for a mutex of `another` or for its end. -/
theorem At.main_goes_on (h : At s i j) (lower : i < 16) (lockA : i = 3 → ¬ (4 ≤ j ∧ j ≤ 8))
    (lockB : i = 6 → ¬ (1 ≤ j ∧ j ≤ 9)) (joins : i = 13 → j = 10) :
    Ready code s .main ∧ ∃ s', Threads.step code s .main = some s' := by
  obtain ⟨op, here⟩ : ∃ op, mainCode[i]? = some op := ⟨_, List.getElem?_eq_getElem lower⟩
  suffices able : Ready code s .main ∧ ∃ r, exec s .main op = some r from
    ⟨able.1, able.2.elim fun r executed => ⟨_, step_of_next h.main here executed⟩⟩
  have next := h.next_main.trans here
  rw [Ready, next]
  interval_cases i <;> simp [mainCode] at here <;> subst here
  · exact ⟨trivial, by simp [exec, h.rawA]⟩
  · exact ⟨trivial, by simp [exec, h.rawB]⟩
  · exact ⟨trivial, by simp [exec, h.another]⟩
  · have free := h.freeA (by omega) (by omega) (lockA rfl)
    exact ⟨.inr free, by simp [exec, free]⟩
  · exact ⟨trivial, by simp [exec]⟩
  · exact ⟨trivial, by simp [exec]⟩
  · have free := h.freeB (by omega) (by omega) (lockB rfl)
    exact ⟨.inr free, by simp [exec, free]⟩
  · exact ⟨trivial, by simp [exec]⟩
  · exact ⟨trivial, by simp [exec]⟩
  · exact ⟨trivial, by simp [exec]⟩
  · exact ⟨trivial, by simp [exec]⟩
  · have held : s.mutex .mutexB = .held .main := h.main_holds.mpr rfl
    exact ⟨trivial, by simp [exec, held]⟩
  · have held : s.mutex .mutexA = .held .main := h.main_holds.mpr rfl
    exact ⟨trivial, by simp [exec, held]⟩
  · obtain rfl := joins rfl
    have past : nextOp code s .another = none := (h.next_another (by omega)).trans rfl
    exact ⟨by simp [past], by simp [exec, h.another]⟩
  · have := h.joined (by omega)
    have free := h.freeA (by omega) (by omega) (by omega)
    exact ⟨trivial, by simp [exec, free]⟩
  · have := h.joined (by omega)
    have free := h.freeB (by omega) (by omega) (by omega)
    exact ⟨trivial, by simp [exec, free]⟩

/-- `another` goes on unless it waits for a mutex of `main`. -/
theorem At.another_goes_on (h : At s i j) (created : 3 ≤ i) (lower : j < 10)
    (lockB : j = 0 → ¬ (7 ≤ i ∧ i ≤ 11)) (lockA : j = 3 → ¬ (4 ≤ i ∧ i ≤ 12)) :
    Ready code s .another ∧ ∃ s', Threads.step code s .another = some s' := by
  obtain ⟨op, here⟩ : ∃ op, anotherCode[j]? = some op := ⟨_, List.getElem?_eq_getElem lower⟩
  have counter : s.pc .another = some j := by rw [h.another, if_neg (by omega)]
  suffices able : Ready code s .another ∧ ∃ r, exec s .another op = some r from
    ⟨able.1, able.2.elim fun r executed => ⟨_, step_of_next counter here executed⟩⟩
  have next := (h.next_another created).trans here
  have upper : i ≤ 13 := by
    by_contra late
    have := h.joined (by omega)
    omega
  rw [Ready, next]
  interval_cases j <;> simp [anotherCode] at here <;> subst here
  · have free := h.freeB (by omega) (lockB rfl) (by omega)
    exact ⟨.inr free, by simp [exec, free]⟩
  · exact ⟨trivial, by simp [exec]⟩
  · exact ⟨trivial, by simp [exec]⟩
  · have free := h.freeA (by omega) (lockA rfl) (by omega)
    exact ⟨.inr free, by simp [exec, free]⟩
  · exact ⟨trivial, by simp [exec]⟩
  · exact ⟨trivial, by simp [exec]⟩
  · exact ⟨trivial, by simp [exec]⟩
  · exact ⟨trivial, by simp [exec]⟩
  · have held : s.mutex .mutexA = .held .another := h.another_holds.mpr rfl
    exact ⟨trivial, by simp [exec, held]⟩
  · have held : s.mutex .mutexB = .held .another := h.another_holds.mpr rfl
    exact ⟨trivial, by simp [exec, held]⟩

/-- The order of the locks keeps a thread from having both while the other one has any. -/
theorem At.apart (h : At s i j) : ¬ ((7 ≤ i ∧ i ≤ 11) ∧ 1 ≤ j ∧ j ≤ 9) := by
  rintro ⟨main, another⟩
  have mine : s.mutex .mutexB = .held .main := by
    rw [h.main_holds, holds_main_mutexB i h.upper, decide_eq_true main]
  have theirs : s.mutex .mutexB = .held .another := by
    rw [h.another_holds, holds_another_mutexB j h.upper', decide_eq_true another]
  exact absurd (Mutex.held.inj (mine.symm.trans theirs)) (by decide)

theorem At.apart' (h : At s i j) : ¬ ((4 ≤ i ∧ i ≤ 12) ∧ 4 ≤ j ∧ j ≤ 8) := by
  rintro ⟨main, another⟩
  have mine : s.mutex .mutexA = .held .main := by
    rw [h.main_holds, holds_main_mutexA i h.upper, decide_eq_true main]
  have theirs : s.mutex .mutexA = .held .another := by
    rw [h.another_holds, holds_another_mutexA j h.upper', decide_eq_true another]
  exact absurd (Mutex.held.inj (mine.symm.trans theirs)) (by decide)

/-- Unless the threads have crossed, one of them can go on without crossing. -/
theorem At.progress (h : At s i j) (open' : ¬ Crossed s) (going : i < 16) :
    ∃ t s', Ready code s t ∧ Threads.step code s t = some s' ∧ ¬ Crossed s' := by
  have apart := h.apart
  have apart' := h.apart'
  have uncreated := h.uncreated
  have upper := h.upper'
  rw [h.crossed_iff] at open'
  -- `another` goes first where it has a mutex that `main` may need, or is to be joined
  by_cases first : j < 10 ∧ i ≠ 12 ∧ (i = 13 ∨ 1 ≤ j)
  · have created : 3 ≤ i := by omega
    obtain ⟨ready, s', run⟩ := h.another_goes_on created first.1 (by omega) (by omega)
    refine ⟨.another, s', ready, run, ?_⟩
    rw [(h.step_another run).crossed_iff]
    omega
  · obtain ⟨ready, s', run⟩ := h.main_goes_on going (by omega) (by omega) (by omega)
    refine ⟨.main, s', ready, run, ?_⟩
    rw [(h.step_main ready run).crossed_iff]
    omega

/-- Crossed threads stay crossed. -/
theorem At.stays_crossed {s' : State} {t : Thread} (h : At s i j) (crossed : Crossed s)
    (ready : Ready code s t) (run : Threads.step code s t = some s') : Crossed s' := by
  have position := h.crossed_iff.mp crossed
  cases t with
  | main =>
    have next := h.step_main ready run
    have apart := next.apart
    exact next.crossed_iff.mpr (by omega)
  | another =>
    have next := h.step_another run
    have apart := next.apart'
    exact next.crossed_iff.mpr (by omega)

end Ready

section Runs

variable {s t : State}

theorem Crossed.not_finished (crossed : Crossed s) : ¬ Finished s := by
  rintro ⟨finished, -⟩
  obtain ⟨i, j, main, -, inside, -⟩ := crossed
  obtain rfl := Option.some.inj (main.symm.trans finished)
  omega

theorem Crossed.for_ever {later : List (State × Thread)} (h : machine.Reachable s)
    (crossed : Crossed s) (more : (machine.after s).Run later t) : Crossed t := by
  have both : machine.Reachable t ∧ Crossed t := by
    apply Machine.Reachable.invariant (I := fun t => machine.Reachable t ∧ Crossed t) ⟨later, more⟩
    · rintro _ rfl
      exact ⟨h, crossed⟩
    · rintro s x s' - ⟨reach, crossed⟩ ready run
      obtain ⟨i, j, position⟩ := reachable_at reach
      exact ⟨reach.step ready run, position.stays_crossed crossed ready run⟩
  exact both.2

theorem At.finished {i j : Nat} (h : At s i j) (past : ¬ i < 16) : Finished s := by
  have upper := h.upper
  obtain rfl : i = 16 := by omega
  exact ⟨h.main, by rw [h.another, if_neg (by omega), h.joined (by omega)]⟩

theorem Finished.next (finished : Finished s) (t : Thread) : nextOp code s t = none := by
  cases t with
  | main => simp [nextOp, finished.1, code, mainCode]
  | another => simp [nextOp, finished.2, code, anotherCode]

/-- By going on without crossing, the program comes to its end. -/
theorem exists_finish (n : Nat) : ∀ {s : State}, left code s = n → machine.Reachable s →
    ¬ Crossed s → ∃ later t, (machine.after s).Run later t ∧ Finished t := by
  induction n using Nat.strong_induction_on with
  | _ n ih =>
    intro s more h open'
    obtain ⟨i, j, position⟩ := reachable_at h
    by_cases going : i < 16
    · obtain ⟨t, s', ready, run, still⟩ := position.progress open' going
      have less := left_step run
      obtain ⟨later, u, rest, finished⟩ :=
        ih (left code s') (by omega) rfl (h.step ready run) still
      have first : (machine.after s).Run [(s, t)] s' := (Machine.Run.start rfl).step ready run
      exact ⟨_, u, first.append rest, finished⟩
    · exact ⟨[], s, .start rfl, position.finished going⟩

/-- The program can still come to its end exactly as long as the threads have not crossed. -/
theorem finishes_unless_crossed (h : machine.Reachable s) :
    (∃ later t, (machine.after s).Run later t ∧ Finished t) ↔ ¬ Crossed s := by
  constructor
  · rintro ⟨later, t, more, finished⟩ crossed
    exact (crossed.for_ever h more).not_finished finished
  · exact exists_finish _ rfl h

/-- Each thread has locked its first mutex. -/
def bothLocked : State :=
  (machine.replay initial (List.replicate 4 .main ++ [.another])).getD initial

theorem finishes_unless_crossed_bothLocked : (∃ later t,
    (machine.after bothLocked).Run later t ∧ Finished t) ↔ ¬ Crossed bothLocked := by
  have start : machine.Reachable initial := .start rfl
  exact finishes_unless_crossed (start.replay_getD _)

/-- No thread can go on exactly at the end and where each waits for the other one's mutex; and
every run gets there in 26 steps. -/
theorem stuck_or_finished {steps : List (State × Thread)} (h : machine.Run steps s) :
    steps.length ≤ 26 ∧ ((∀ t, ¬ Ready code s t) ↔
      Finished s ∨ Waits code s .main .another ∧ Waits code s .another .main) := by
  refine ⟨?_, ?_, ?_⟩
  · have bound : steps.length + left code s = 26 := run_length h
    omega
  · intro stuck
    obtain ⟨i, j, position⟩ := reachable_at h.reachable
    by_cases going : i < 16
    · right
      have crossed : Crossed s := by
        by_contra open'
        obtain ⟨t, -, ready, -, -⟩ := position.progress open' going
        exact stuck t ready
      obtain ⟨first, second⟩ := position.crossed_iff.mp crossed
      -- each thread has come to its second mutex
      obtain rfl : i = 6 := by
        by_contra early
        have able := position.main_goes_on going (by omega) (by omega) (by omega)
        exact stuck .main able.1
      obtain rfl : j = 3 := by
        by_contra early
        have able := position.another_goes_on (by omega) (by omega) (by omega) (by omega)
        exact stuck .another able.1
      refine ⟨.lock .mutexB position.next_main ?_,
        .lock .mutexA (position.next_another (by omega)) ?_⟩
      · exact position.another_holds.mpr rfl
      · exact position.main_holds.mpr rfl
    · exact .inl (position.finished going)
  · rintro (finished | ⟨main, another⟩) t
    · simp [Ready, finished.next t]
    · cases t with
      | main => exact main.not_ready
      | another => exact another.not_ready

theorem stuck_or_finished_bothLocked : ∃ steps : List (State × Thread), steps.length ≤ 26 ∧
    ((∀ t, ¬ Ready code bothLocked t) ↔ Finished bothLocked ∨
      Waits code bothLocked .main .another ∧ Waits code bothLocked .another .main) := by
  have start : machine.Reachable initial := .start rfl
  obtain ⟨steps, run⟩ := start.replay_getD (List.replicate 4 .main ++ [.another])
  exact ⟨steps, stuck_or_finished run⟩

end Runs

end JiajiaNetwork.PthreadMutex
