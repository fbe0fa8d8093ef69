/- The end of `test_semaphore.c`: no process waits for ever, whichever is killed and where, and the
   semaphore is removed by a parent that has seen its child end. -/
import JiajiaNetwork.TestSemaphore.Exclusion

set_option autoImplicit false
set_option relaxedAutoImplicit false

namespace JiajiaNetwork.TestSemaphore

open Lib

/-- How far a process has come. -/
def rank : Process → Pc → Nat
  | .parent, .semget | .parent, .unborn => 0
  | .parent, .setval => 1
  | .parent, .fork => 2
  | .parent, .entering => 3
  | .parent, .inside => 4
  | .parent, .waitpid => 5
  | .parent, .remove => 6
  | .parent, .exit _ => 7
  | .parent, .ended _ => 8
  | .child, .inside => 1
  | .child, .exit _ => 2
  | .child, .ended _ => 3
  | .child, _ => 0

/-- How far the program has come. -/
def progress (s : St) : Nat := rank .parent (s.pc .parent) + rank .child (s.pc .child)

section Steps

variable {s t : St} {p : Process}

theorem progress_le (s : St) : progress s ≤ 11 := by
  have parent : rank .parent (s.pc .parent) ≤ 8 := by
    cases s.pc .parent <;> simp [rank]
  have child : rank .child (s.pc .child) ≤ 3 := by
    cases s.pc .child <;> simp [rank]
  unfold progress
  omega

theorem progress_goTo {next : Pc} (further : rank p (s.pc p) < rank p next) :
    progress s < progress (s.goTo p next) := by
  unfold progress
  cases p with
  | parent => simpa using further
  | child => simpa using further

/-- Every turn brings a process forward. -/
theorem progress_turn (inv : Inv s) (move : Move s p t) : progress s < progress t := by
  have phase := inv.phase
  cases move with
  | semget ok pc =>
    exact progress_goTo (s := { s with created := ok, sem := _ }) (by simp [pc, rank])
  | setval pc => exact progress_goTo (s := { s with sem := _ }) (by simp [pc, rank])
  | forked pc =>
    rw [pc] at phase
    have unborn : s.pc .child = .unborn := phase
    simp [progress, pc, unborn, rank]
  | alone pc => exact progress_goTo (by simp [pc, rank])
  | enters p m pc run =>
    have same := (pv_frame run).1
    have further : progress m < progress (m.goTo p .inside) :=
      progress_goTo (by rw [same, pc]; cases p <;> simp [rank])
    simpa only [progress, same] using further
  | leaves p m next pc run targets =>
    have same := (pv_frame run).1
    have further : progress m < progress (m.goTo p next) := progress_goTo (by
      rw [same, pc]
      rcases targets with ⟨rfl, rfl⟩ | ⟨rfl, rfl⟩ <;> simp [rank])
    simpa only [progress, same] using further
  | reaps pc _ => exact progress_goTo (by simp [pc, rank])
  | removes pc => exact progress_goTo (s := { s with sem := none }) (by simp [pc, rank])
  | exits p status pc =>
    exact progress_goTo (s := { s with sem := _ }) (by cases p <;> simp [pc, rank])

theorem progress_kill (lawful : Lawful s (.kill p)) :
    progress s < progress (s.finish p .killed) := by
  refine progress_goTo (s := { s with sem := _ }) ?_
  obtain ⟨born, alive⟩ := lawful
  show rank p (s.pc p) < _
  cases p <;> cases pc : s.pc _ <;> simp_all [rank, Pc.isEnded]

/-- A process that is to enter can, unless the other one is inside. -/
theorem exists_enter (inv : Inv s) (entering : s.pc p = .entering)
    (alone : ∀ q, s.pc q ≠ .inside) : ∃ t, turn s p true = some t := by
  have called : ∃ m, s.pv p (-1) = some m := by
    unfold St.pv
    cases sem : s.sem with
    | none => exact ⟨s, rfl⟩
    | some x =>
      have counts := inv.counts x sem
      have born : s.pc .child ≠ .unborn := by
        intro unborn
        have phase := inv.phase
        cases p with
        | parent =>
          rw [entering, unborn] at phase
          simp [Phase, Pc.isEnded] at phase
        | child => simp [unborn] at entering
      have value := counts.value_eq
      rw [counts.set born, if_neg (alone _), if_neg (alone _)] at value
      obtain ⟨y, taken⟩ : ∃ y, x.semop p (-1) = some y :=
        Semaphore.exists_semop (by decide) (by omega)
      exact ⟨{ s with sem := some y }, by simp [taken]⟩
  obtain ⟨m, called⟩ := called
  exact ⟨m.goTo p .inside, by simp [turn, entering, called]⟩

/-- A process that is inside comes out. -/
theorem exists_leave (inv : Inv s) (inside : s.pc p = .inside) : ∃ t, turn s p true = some t := by
  have called : ∃ m, s.pv p 1 = some m := by
    unfold St.pv
    cases sem : s.sem with
    | none => exact ⟨s, rfl⟩
    | some x =>
      have value := (inv.counts x sem).value
      obtain ⟨y, given⟩ : ∃ y, x.semop p 1 = some y :=
        Semaphore.exists_semop (by decide) (by omega)
      exact ⟨{ s with sem := some y }, by simp [given]⟩
  obtain ⟨m, called⟩ := called
  simp only [turn, inside, called, Option.map_some]
  exact ⟨_, rfl⟩

/-- Unless both processes have ended, one of them can go on. -/
theorem exists_turn (inv : Inv s) (going : s.pc p ≠ .unborn) (alive : (s.pc p).isEnded = false) :
    ∃ q t, turn s q true = some t := by
  by_cases busy : ∃ q, s.pc q = .inside
  · obtain ⟨q, inside⟩ := busy
    exact ⟨q, exists_leave inv inside⟩
  · have alone : ∀ q, s.pc q ≠ .inside := fun q inside => busy ⟨q, inside⟩
    have phase := inv.phase
    rcases phase.child with h | h | h | h | h
    · -- the parent is alone
      cases p with
      | child => exact absurd h going
      | parent =>
        refine ⟨.parent, ?_⟩
        rw [h] at phase
        cases pc : s.pc .parent <;> simp_all [turn, Phase, Pc.isEnded]
    · exact ⟨.child, exists_enter inv h alone⟩
    · exact absurd h (alone .child)
    · exact ⟨.child, by simp [turn, h]⟩
    · refine ⟨.parent, ?_⟩
      cases p with
      | child => simp [h] at alive
      | parent =>
        cases pc : s.pc .parent with
        | entering => exact exists_enter inv pc alone
        | _ => simp_all [turn, Pc.isEnded]

end Steps

/-- Every run is short, whoever is killed and where, and goes on until all processes have ended. -/
theorem runs_to_end {steps : List (St × Input)} {s : St} (h : machine.Run steps s) :
    steps.length ≤ 11 ∧ ((∀ p ok, turn s p ok = none) ↔
      ∀ p, s.pc p = .unborn ∨ (s.pc p).isEnded = true) := by
  refine ⟨?_, ?_, ?_⟩
  · have bound : steps.length ≤ progress s := by
      refine h.invariant (I := fun steps s => steps.length ≤ progress s) ?_ ?_
      · intro s _
        exact Nat.zero_le _
      · intro steps s a t run short lawful taken
        have inv := reachable_inv run.reachable
        have further : progress s < progress t := by
          cases a with
          | turn p ok => exact progress_turn inv (inv.move taken)
          | kill p =>
            obtain rfl := Option.some.inj taken
            exact progress_kill lawful
        rw [List.length_append, List.length_singleton]
        omega
    exact bound.trans (progress_le s)
  · intro stuck p
    by_contra running
    obtain ⟨going, alive⟩ := not_or.mp running
    obtain ⟨q, t, taken⟩ :=
      exists_turn (reachable_inv h.reachable) going (Bool.not_eq_true _ ▸ alive)
    rw [stuck] at taken
    cases taken
  · intro ended p ok
    rcases ended p with unborn | past
    · simp [turn, unborn]
    · cases pc : s.pc p <;> simp_all [turn, Pc.isEnded]

/-- The child is killed inside; the parent takes its turn and removes the semaphore. -/
def childKilled : St := (machine.replay initial
  [.turn .parent true, .turn .parent true, .turn .parent true, .turn .child true, .kill .child,
    .turn .parent true, .turn .parent true, .turn .parent true, .turn .parent true,
    .turn .parent true]).getD initial

theorem runs_to_end_childKilled : ∃ steps : List (St × Input), steps.length ≤ 11 ∧
    ((∀ p ok, turn childKilled p ok = none) ↔
      ∀ p, childKilled.pc p = .unborn ∨ (childKilled.pc p).isEnded = true) := by
  have start : machine.Reachable initial := .start rfl
  obtain ⟨steps, run⟩ := start.replay_getD _
  exact ⟨steps, runs_to_end run⟩

/-- A parent that ends by itself returns 0 behind the end of its child and the removal of the
semaphore, or 1 without a child, and then the semaphore is left in the kernel. -/
theorem removes_semaphore_iff {s : St} {status : Nat} (h : machine.Reachable s)
    (created : s.created = true) (ended : s.pc .parent = .ended (.exited status)) :
    (s.sem = none ↔ status = 0) ∧
      ((s.pc .child).isEnded = true ∧ status = 0 ∨ s.pc .child = .unborn ∧ status = 1) := by
  have inv := reachable_inv h
  have phase := inv.phase
  rw [ended] at phase
  match status with
  | 0 => exact ⟨iff_of_true (inv.gone (.inr ended)) rfl, .inl ⟨phase, rfl⟩⟩
  | 1 =>
    have unborn : s.pc .child = .unborn := phase
    refine ⟨iff_of_false (fun none => ?_) (by decide), .inr ⟨unborn, rfl⟩⟩
    have past := inv.removed created none
    simp [unborn, Pc.isEnded] at past
  | n + 2 => exact phase.elim

theorem removes_semaphore_iff_childKilled : (childKilled.sem = none ↔ 0 = 0) ∧
    ((childKilled.pc .child).isEnded = true ∧ 0 = 0 ∨ childKilled.pc .child = .unborn ∧ 0 = 1) := by
  have start : machine.Reachable initial := .start rfl
  exact removes_semaphore_iff (start.replay_getD _) (by decide) (by decide)

end JiajiaNetwork.TestSemaphore
