/- The critical section of `test_semaphore.c`. With a semaphore, at most one process is inside, even
   if the other one was killed there; if `semget` fails, both processes go in. -/
import JiajiaNetwork.TestSemaphore.Processes

set_option autoImplicit false
set_option relaxedAutoImplicit false

namespace JiajiaNetwork.TestSemaphore

open Lib

/-- The positions of the parent against those of the child. -/
def Phase : Pc → Pc → Prop
  | .semget, c | .setval, c | .fork, c | .exit 1, c | .ended (.exited 1), c => c = .unborn
  | .entering, c | .inside, c | .waitpid, c =>
    c = .entering ∨ c = .inside ∨ c = .exit 0 ∨ c.isEnded = true
  | .remove, c | .exit 0, c | .ended (.exited 0), c => c.isEnded = true
  | .ended .killed, c =>
    c = .unborn ∨ c = .entering ∨ c = .inside ∨ c = .exit 0 ∨ c.isEnded = true
  | _, _ => False

/-- What the semaphore says about the processes; before `fork` it may not have its value yet. -/
structure Counts (pc : Process → Pc) (x : Semaphore Process) : Prop where
  value : 0 ≤ x.value
  adj : ∀ p, x.adj p = if pc p = .inside then 1 else 0
  total : x.total ≤ 1
  set : pc .child ≠ .unborn → x.total = 1

structure Inv (s : St) : Prop where
  phase : Phase (s.pc .parent) (s.pc .child)
  counts : ∀ x, s.sem = some x → Counts s.pc x
  failed : s.created = false → s.sem = none
  ready : s.pc .parent = .fork → ∀ x, s.sem = some x → x.total = 1
  removed : s.created = true → s.sem = none → (s.pc .child).isEnded = true
  gone : s.pc .parent = .exit 0 ∨ s.pc .parent = .ended (.exited 0) → s.sem = none

namespace Counts

variable {pc : Process → Pc} {x y : Semaphore Process} {p : Process} {next : Pc}

/-- A process that is inside has taken all there is. -/
theorem excludes (h : Counts pc x) : ¬ (pc .parent = .inside ∧ pc .child = .inside) := by
  rintro ⟨parent, child⟩
  have nonneg : ∀ p, 0 ≤ x.adj p := fun p => by rw [h.adj p]; split_ifs <;> decide
  have sum := Semaphore.adj_add_adj_le h.value nonneg (show Process.parent ≠ .child by decide)
  rw [h.adj, h.adj, if_pos parent, if_pos child] at sum
  have := h.total
  omega

/-- The value is what the processes inside have left. -/
theorem value_eq (h : Counts pc x) : x.value = x.total -
    (if pc .parent = .inside then 1 else 0) - (if pc .child = .inside then 1 else 0) := by
  have sum : ∑ p, x.adj p = x.adj .parent + x.adj .child := Finset.sum_pair (by decide)
  rw [← h.adj, ← h.adj, Semaphore.total, sum]
  omega

/-- A process goes on outside of its critical section. -/
theorem moves (h : Counts pc x) (outside : pc p ≠ .inside) (outside' : next ≠ .inside)
    (set : Function.update pc p next .child ≠ .unborn → x.total = 1) :
    Counts (Function.update pc p next) x where
  value := h.value
  adj q := by
    rw [h.adj]
    by_cases same : q = p
    · subst same
      rw [Function.update_self, if_neg outside, if_neg outside']
    · rw [Function.update_of_ne same]
  total := h.total
  set := set

theorem semop (h : Counts pc x) {op : Int} (run : x.semop p op = some y)
    (adj : y.adj p = if next = .inside then 1 else 0)
    (born : Function.update pc p next .child ≠ .unborn → pc .child ≠ .unborn) :
    Counts (Function.update pc p next) y := by
  have total := Semaphore.total_semop run
  refine ⟨?_, fun q => ?_, total ▸ h.total, fun later => total ▸ h.set (born later)⟩
  · unfold Semaphore.semop at run
    split_ifs at run with zero empty short
    · obtain rfl := Option.some.inj run
      exact h.value
    · obtain rfl := Option.some.inj run
      exact not_lt.mp short
  · by_cases same : q = p
    · subst same
      rw [adj, Function.update_self]
    · rw [Function.update_of_ne same, ← h.adj q]
      unfold Semaphore.semop at run
      split_ifs at run
      · obtain rfl := Option.some.inj run
        rfl
      · obtain rfl := Option.some.inj run
        exact Function.update_of_ne same ..

/-- The kernel takes back what the process that ended had taken. -/
theorem release (h : Counts pc x) (outside : next ≠ .inside)
    (born : Function.update pc p next .child ≠ .unborn → pc .child ≠ .unborn) :
    Counts (Function.update pc p next) (x.release p) := by
  have nonneg : 0 ≤ x.adj p := by rw [h.adj]; split_ifs <;> decide
  have total : (x.release p).total = x.total :=
    Semaphore.total_release (by have := h.value; omega)
  refine ⟨le_max_left .., fun q => ?_, total ▸ h.total, fun later => total ▸ h.set (born later)⟩
  by_cases same : q = p
  · subst same
    rw [Function.update_self, if_neg outside]
    exact Function.update_self ..
  · rw [Function.update_of_ne same, ← h.adj q]
    exact Function.update_of_ne same ..

end Counts

section Steps

variable {s t : St} {p : Process} {ok : Bool} {next : Pc}

/-- What a turn of `p` does. -/
inductive Move (s : St) : Process → St → Prop
  | semget (ok : Bool) : s.pc .parent = .semget → Move s .parent ({ s with
      sem := if ok then some (.ofValue 0) else none, created := ok }.goTo .parent .setval)
  | setval : s.pc .parent = .setval →
      Move s .parent ({ s with sem := s.sem.map fun _ => .ofValue 1 }.goTo .parent .fork)
  | forked : s.pc .parent = .fork →
      Move s .parent ((s.goTo .child .entering).goTo .parent .entering)
  | alone : s.pc .parent = .fork → Move s .parent (s.goTo .parent (.exit 1))
  | enters (p : Process) (m : St) : s.pc p = .entering → s.pv p (-1) = some m →
      Move s p (m.goTo p .inside)
  | leaves (p : Process) (m : St) (next : Pc) : s.pc p = .inside → s.pv p 1 = some m →
      (p = .parent ∧ next = .waitpid ∨ p = .child ∧ next = .exit 0) → Move s p (m.goTo p next)
  | reaps : s.pc .parent = .waitpid → (s.pc .child).isEnded = true →
      Move s .parent (s.goTo .parent .remove)
  | removes : s.pc .parent = .remove →
      Move s .parent ({ s with sem := none }.goTo .parent (.exit 0))
  | exits (p : Process) (status : Nat) : s.pc p = .exit status →
      Move s p (s.finish p (.exited status))

/-- The child does nothing but enter, leave and exit. -/
theorem Phase.child {a c : Pc} (h : Phase a c) :
    c = .unborn ∨ c = .entering ∨ c = .inside ∨ c = .exit 0 ∨ c.isEnded = true := by
  unfold Phase at h
  split at h <;> tauto

theorem Inv.move (inv : Inv s) (run : turn s p ok = some t) : Move s p t := by
  unfold turn at run
  -- only the parent comes to the other calls
  have only : ¬ (s.pc p = .unborn ∨ s.pc p = .entering ∨ s.pc p = .inside ∨ s.pc p = .exit 0 ∨
      (s.pc p).isEnded = true) → p = .parent := by
    intro none
    cases p with
    | parent => rfl
    | child => exact absurd inv.phase.child none
  cases pc : s.pc p with
  | entering =>
    simp only [pc] at run
    obtain ⟨m, called, rfl⟩ := Option.map_eq_some_iff.mp run
    exact .enters p m pc called
  | inside =>
    simp only [pc] at run
    obtain ⟨m, called, rfl⟩ := Option.map_eq_some_iff.mp run
    exact .leaves p m _ pc called (by cases p <;> simp)
  | exit status =>
    simp only [pc, Option.some.injEq] at run
    exact run ▸ .exits p status pc
  | unborn => simp [pc] at run
  | ended how => simp [pc] at run
  | semget =>
    obtain rfl := only (by simp [pc, Pc.isEnded])
    simp only [pc, Option.some.injEq] at run
    exact run ▸ .semget ok pc
  | setval =>
    obtain rfl := only (by simp [pc, Pc.isEnded])
    simp only [pc, Option.some.injEq] at run
    exact run ▸ .setval pc
  | fork =>
    obtain rfl := only (by simp [pc, Pc.isEnded])
    simp only [pc] at run
    split_ifs at run
    · exact Option.some.inj run ▸ .forked pc
    · exact Option.some.inj run ▸ .alone pc
  | waitpid =>
    obtain rfl := only (by simp [pc, Pc.isEnded])
    simp only [pc] at run
    split_ifs at run with ended
    exact Option.some.inj run ▸ .reaps pc ended
  | remove =>
    obtain rfl := only (by simp [pc, Pc.isEnded])
    simp only [pc, Option.some.injEq] at run
    exact run ▸ .removes pc

/-- A call of `pv`, with the semaphore or without one. -/
theorem pv_cases {op : Int} (run : s.pv p op = some t) : s.sem = none ∧ t = s ∨
    ∃ x y, s.sem = some x ∧ x.semop p op = some y ∧ t = { s with sem := some y } := by
  unfold St.pv at run
  cases sem : s.sem with
  | none =>
    simp only [sem, Option.some.injEq] at run
    exact .inl ⟨rfl, run.symm⟩
  | some x =>
    simp only [sem] at run
    obtain ⟨y, called, rfl⟩ := Option.map_eq_some_iff.mp run
    exact .inr ⟨x, y, rfl, called, rfl⟩

@[simp] theorem goTo_pc : (s.goTo p next).pc = Function.update s.pc p next := rfl

@[simp] theorem goTo_sem : (s.goTo p next).sem = s.sem := rfl

@[simp] theorem goTo_created : (s.goTo p next).created = s.created := rfl

/-- `pv` leaves the processes where they are. -/
theorem pv_frame {op : Int} (run : s.pv p op = some t) : t.pc = s.pc ∧ t.created = s.created := by
  rcases pv_cases run with ⟨-, rfl⟩ | ⟨x, y, -, -, rfl⟩
  · exact ⟨rfl, rfl⟩
  · exact ⟨rfl, rfl⟩

theorem Phase.child_step {a c c' : Pc} (h : Phase a c)
    (running : c = .entering ∨ c = .inside ∨ c = .exit 0)
    (next : c' = .inside ∨ c' = .exit 0 ∨ c'.isEnded = true) : Phase a c' := by
  have here : c ≠ .unborn ∧ c.isEnded = false := by
    rcases running with rfl | rfl | rfl <;> exact ⟨by decide, rfl⟩
  unfold Phase at h ⊢
  split at h <;> simp_all

theorem Phase.exits {n : Nat} {c : Pc} (h : Phase (.exit n) c) : Phase (.ended (.exited n)) c := by
  match n with
  | 0 => exact h
  | 1 => exact h
  | n + 2 => exact h.elim

theorem born_of (acts : p = .child → s.pc .child ≠ .unborn) :
    Function.update s.pc p next .child ≠ .unborn → s.pc .child ≠ .unborn := by
  cases p with
  | parent => simp
  | child => exact fun _ => acts rfl

theorem counts_ofValue {pc : Process → Pc} {n : Int} (lower : 0 ≤ n) (upper : n ≤ 1)
    (outside : ∀ p, pc p ≠ .inside) (unborn : pc .child = .unborn) :
    Counts pc (.ofValue n) where
  value := lower
  adj p := (if_neg (outside p)).symm
  total := by rwa [Semaphore.total_ofValue]
  set born := absurd unborn born

/-- A process ends, by itself or killed. -/
theorem Inv.finish {how : Ending} (inv : Inv s) (acts : p = .child → s.pc .child ≠ .unborn)
    (phase : Phase (Function.update s.pc p (.ended how) .parent)
      (Function.update s.pc p (.ended how) .child))
    (status : p = .parent → how = .exited 0 → s.sem = none) : Inv (s.finish p how) where
  phase := phase
  counts x sem := by
    obtain ⟨y, before, rfl⟩ := Option.map_eq_some_iff.mp sem
    exact (inv.counts y before).release (by simp) (born_of acts)
  failed none := by
    show Option.map _ s.sem = _
    rw [inv.failed none]
    rfl
  ready forking x sem := by
    obtain ⟨y, before, rfl⟩ := Option.map_eq_some_iff.mp sem
    cases p with
    | parent => simp [St.finish] at forking
    | child =>
      have counts := inv.counts y before
      have nonneg : 0 ≤ y.adj .child := by rw [counts.adj]; split_ifs <;> decide
      rw [Semaphore.total_release (by have := counts.value; omega)]
      exact counts.set (acts rfl)
  removed created none := by
    have before := inv.removed created (Option.map_eq_none_iff.mp none)
    cases p with
    | parent => exact before
    | child => rfl
  gone last := by
    have before : s.sem = none := by
      cases p with
      | parent =>
        rcases last with last | last
        · simp [St.finish] at last
        · exact status rfl (by simpa [St.finish] using last)
      | child => exact inv.gone (by simpa [St.finish] using last)
    show Option.map _ s.sem = _
    rw [before]
    rfl

/-- A call of `pv` that takes the process in or out. -/
theorem Inv.calls {m : St} {op : Int} (inv : Inv s) (run : s.pv p op = some m) (nonzero : op ≠ 0)
    (adj : (if s.pc p = .inside then 1 else 0) - op = if next = .inside then 1 else 0)
    (acts : s.pc p = .entering ∨ s.pc p = .inside)
    (phase : Phase (Function.update s.pc p next .parent) (Function.update s.pc p next .child))
    (parent : p = .parent → next = .inside ∨ next = .waitpid) : Inv (m.goTo p next) := by
  have born : p = .child → s.pc .child ≠ .unborn := by
    rintro rfl
    rcases acts with pc | pc <;> simp [pc]
  have alive : (s.pc p).isEnded = false := by
    rcases acts with pc | pc <;> simp [pc, Pc.isEnded]
  -- the parent neither forks nor ends here
  have elsewhere : ∀ pc, pc = .fork ∨ pc = .exit 0 ∨ pc = .ended (.exited 0) →
      (m.goTo p next).pc .parent = pc → p = .child ∧ s.pc .parent = pc := by
    intro pc other here
    rw [goTo_pc, (pv_frame run).1] at here
    cases p with
    | parent =>
      rw [Function.update_self] at here
      subst here
      rcases parent rfl with rfl | rfl <;> simp at other
    | child => exact ⟨rfl, by simpa using here⟩
  obtain ⟨pcs, created⟩ := pv_frame run
  constructor
  case phase => rwa [goTo_pc, pcs]
  case counts =>
    intro y sem
    rw [goTo_pc, pcs]
    rcases pv_cases run with ⟨none, rfl⟩ | ⟨x, z, before, called, rfl⟩
    · rw [goTo_sem, none] at sem
      cases sem
    · obtain rfl := Option.some.inj sem
      have counts := inv.counts x before
      refine counts.semop called ?_ (born_of born)
      rw [Semaphore.adj_semop called nonzero, counts.adj, adj]
  case failed =>
    intro none
    have before := inv.failed (created ▸ none)
    rcases pv_cases run with ⟨-, rfl⟩ | ⟨x, z, some, -, -⟩
    · exact before
    · rw [before] at some
      cases some
  case ready =>
    intro forking y sem
    obtain ⟨rfl, here⟩ := elsewhere .fork (.inl rfl) forking
    have unborn := inv.phase
    rw [here] at unborn
    exact absurd unborn (born rfl)
  case removed =>
    intro made none
    rcases pv_cases run with ⟨before, -⟩ | ⟨x, z, -, -, rfl⟩
    · have ended := inv.removed (created ▸ made) before
      cases p with
      | parent => simpa [pcs] using ended
      | child => simp [alive] at ended
    · cases none
  case gone =>
    intro last
    have past : p = .child ∧ (s.pc .child).isEnded = true := by
      rcases last with last | last
      · obtain ⟨rfl, here⟩ := elsewhere _ (.inr (.inl rfl)) last
        have closing := inv.phase
        rw [here] at closing
        exact ⟨rfl, closing⟩
      · obtain ⟨rfl, here⟩ := elsewhere _ (.inr (.inr rfl)) last
        have closing := inv.phase
        rw [here] at closing
        exact ⟨rfl, closing⟩
    rw [past.1] at alive
    rw [past.2] at alive
    cases alive

theorem Inv.turn (inv : Inv s) (move : Move s p t) : Inv t := by
  have phase := inv.phase
  cases move with
  | semget ok pc =>
    rw [pc] at phase
    have unborn : s.pc .child = .unborn := phase
    refine ⟨unborn, fun x sem => ?_, fun none => ?_, by simp, fun made none => ?_, by simp⟩
    · have fresh : ok = true ∧ Semaphore.ofValue 0 = x := by simpa using sem
      obtain ⟨-, rfl⟩ := fresh
      refine counts_ofValue (by decide) (by decide) (fun q => ?_) (by simpa using unborn)
      cases q <;> simp [unborn]
    · have failed : ok = false := none
      simp [failed]
    · have created : ok = true := made
      simp [created] at none
  | setval pc =>
    rw [pc] at phase
    have unborn : s.pc .child = .unborn := phase
    refine ⟨unborn, fun x sem => ?_, fun none => ?_, fun _ x sem => ?_, fun made none => ?_,
      by simp⟩
    · obtain ⟨y, -, rfl⟩ := Option.map_eq_some_iff.mp sem
      refine counts_ofValue (by decide) (by decide) (fun q => ?_) (by simpa using unborn)
      cases q <;> simp [unborn]
    · simp [inv.failed none]
    · obtain ⟨y, -, rfl⟩ := Option.map_eq_some_iff.mp sem
      exact Semaphore.total_ofValue 1
    · have ended := inv.removed made (by simpa using none)
      simpa using ended
  | forked pc =>
    rw [pc] at phase
    have unborn : s.pc .child = .unborn := phase
    refine ⟨.inl rfl, fun x sem => ?_, inv.failed, by simp, fun made none => ?_, by simp⟩
    · have total : x.total = 1 := inv.ready pc x sem
      have child : Counts (Function.update s.pc .child .entering) x :=
        (inv.counts x sem).moves (by simp [unborn]) (by decide) fun _ => total
      exact child.moves (by simp [pc]) (by decide) fun _ => total
    · have ended := inv.removed made none
      simp [unborn, Pc.isEnded] at ended
  | alone pc =>
    rw [pc] at phase
    have unborn : s.pc .child = .unborn := phase
    refine ⟨unborn, fun x sem => ?_, inv.failed, by simp, fun made none => ?_, by simp⟩
    · exact (inv.counts x sem).moves (by simp [pc]) (by decide) fun born =>
        absurd unborn (by simpa using born)
    · simpa using inv.removed made none
  | enters p m pc run =>
    refine inv.calls run (by decide) (by simp [pc]) (.inl pc) ?_ fun _ => .inl rfl
    cases p with
    | parent =>
      rw [pc] at phase
      exact phase
    | child => exact phase.child_step (.inl pc) (.inl rfl)
  | leaves p m next pc run targets =>
    rcases targets with ⟨rfl, rfl⟩ | ⟨rfl, rfl⟩
    · rw [pc] at phase
      exact inv.calls run (by decide) (by simp [pc]) (.inr pc) phase fun _ => .inr rfl
    · refine inv.calls run (by decide) (by simp [pc]) (.inr pc) ?_ (by simp)
      exact phase.child_step (.inr (.inl pc)) (.inr (.inl rfl))
  | reaps pc ended =>
    refine ⟨ended, fun x sem => ?_, inv.failed, by simp, fun made none => ?_, by simp⟩
    · exact (inv.counts x sem).moves (by simp [pc]) (by decide) fun born =>
        (inv.counts x sem).set (by simpa using born)
    · simpa using ended
  | removes pc =>
    rw [pc] at phase
    exact ⟨phase, fun x sem => by simp at sem, fun _ => rfl, by simp, fun _ _ => phase,
      fun _ => rfl⟩
  | exits p status pc =>
    apply inv.finish
    · rintro rfl
      simp [pc]
    · cases p with
      | parent =>
        rw [pc] at phase
        exact phase.exits
      | child =>
        have last : s.pc .child = .exit 0 := by
          rcases phase.child with h | h | h | h | h
          · simp [pc] at h
          · simp [pc] at h
          · simp [pc] at h
          · exact h
          · simp [pc, Pc.isEnded] at h
        exact phase.child_step (.inr (.inr last)) (.inr (.inr rfl))
    · rintro rfl same
      obtain rfl : status = 0 := by simpa using same
      exact inv.gone (.inl pc)

theorem Inv.killed (inv : Inv s) (lawful : Lawful s (.kill p)) : Inv (s.finish p .killed) := by
  have phase := inv.phase
  apply inv.finish
  · rintro rfl
    exact lawful.1
  · cases p with
    | parent => exact phase.child
    | child =>
      refine phase.child_step ?_ (.inr (.inr rfl))
      rcases phase.child with h | h | h | h | h
      · exact absurd h lawful.1
      · exact .inl h
      · exact .inr (.inl h)
      · exact .inr (.inr h)
      · simp [lawful.2] at h
  · rintro - same
    cases same

end Steps

theorem inv_initial : Inv initial where
  phase := rfl
  counts x sem := by cases sem
  failed _ := rfl
  ready _ x sem := by cases sem
  removed created := by cases created
  gone last := by simp [initial] at last

theorem reachable_inv {s : St} (h : machine.Reachable s) : Inv s := by
  apply h.invariant
  · rintro _ rfl
    exact inv_initial
  · intro s a t _ inv lawful run
    cases a with
    | turn p ok => exact inv.turn (inv.move run)
    | kill p =>
      obtain rfl := Option.some.inj run
      exact inv.killed lawful

def BothInside (s : St) : Prop := s.pc .parent = .inside ∧ s.pc .child = .inside

instance (s : St) : Decidable (BothInside s) := inferInstanceAs (Decidable (_ ∧ _))

/-- The critical section is exclusive exactly in the runs in which `semget` succeeded: otherwise
`pv` fails, and both processes go in. -/
theorem section_exclusive_iff (c : Bool) :
    (∀ s, machine.Reachable s → s.created = c → ¬ BothInside s) ↔ c = true := by
  constructor
  · intro exclusive
    cases c with
    | true => rfl
    | false =>
      have start : machine.Reachable initial := .start rfl
      obtain ⟨s, reach, found⟩ := start.of_replay
        (p := fun s => decide (BothInside s) && !s.created)
        [.turn .parent false, .turn .parent true, .turn .parent true, .turn .parent true,
          .turn .child true] (by decide)
      rw [Bool.and_eq_true, decide_eq_true_eq, Bool.not_eq_true'] at found
      exact absurd found.1 (exclusive s reach found.2)
  · rintro rfl s reach created both
    have inv := reachable_inv reach
    cases sem : s.sem with
    | none =>
      have ended := inv.removed created sem
      rw [both.2] at ended
      cases ended
    | some x => exact (inv.counts x sem).excludes both

end JiajiaNetwork.TestSemaphore
