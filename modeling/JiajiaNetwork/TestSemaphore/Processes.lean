/- `test_semaphore.c`: a parent and its child take turns in a critical section under one semaphore.
   Each call is a step of its process, the steps interleave in any order, and either process may be
   killed between any two. The results of `semget`, `semctl` and `semop` are not looked at. -/
import JiajiaNetwork.Lib.Machine
import JiajiaNetwork.Lib.Semaphore

set_option autoImplicit false
set_option relaxedAutoImplicit false

namespace JiajiaNetwork.TestSemaphore

open Lib

inductive Process
  | parent
  | child
  deriving DecidableEq

instance : Fintype Process := ⟨{.parent, .child}, by rintro (_ | _) <;> decide⟩

inductive Ending
  | exited (status : Nat)
  | killed
  deriving DecidableEq

/-- The call that a process makes next; `inside` is before its `pv(sem_id, 1)`. -/
inductive Pc
  | unborn
  | semget
  | setval
  | fork
  | entering
  | inside
  | waitpid
  | remove
  | exit (status : Nat)
  | ended (how : Ending)
  deriving DecidableEq

def Pc.isEnded : Pc → Bool
  | .ended _ => true
  | _ => false

structure St where
  pc : Process → Pc
  /-- the semaphore in the kernel -/
  sem : Option (Semaphore Process)
  /-- whether `sem_id` is the identifier of a semaphore or the -1 of a failed `semget` -/
  created : Bool

inductive Input
  /-- `ok` answers `semget` and `fork` -/
  | turn (p : Process) (ok : Bool)
  | kill (p : Process)
  deriving DecidableEq

namespace St

def goTo (s : St) (p : Process) (pc : Pc) : St := { s with pc := Function.update s.pc p pc }

/-- The end of a process, with what the kernel undoes for it. -/
def finish (s : St) (p : Process) (how : Ending) : St :=
  { s with sem := s.sem.map fun x => Semaphore.release x p }.goTo p (.ended how)

/-- `pv(sem_id, op)`: without a semaphore the call fails, which nobody notices. `none` is a call
that blocks. The failures of `semop` itself are left out (`EINTR` behind a stop, `ENOMEM`). -/
def pv (s : St) (p : Process) (op : Int) : Option St :=
  match s.sem with
  | none => some s
  | some x => (x.semop p op).map fun y => { s with sem := some y }

end St

def turn (s : St) (p : Process) (ok : Bool) : Option St :=
  match s.pc p with
  | .semget =>
    some ({ s with sem := if ok then some (.ofValue 0) else none, created := ok }.goTo p .setval)
  | .setval => some ({ s with sem := s.sem.map fun _ => .ofValue 1 }.goTo p .fork)
  | .fork =>
    if ok then some ((s.goTo .child .entering).goTo p .entering) else some (s.goTo p (.exit 1))
  | .entering => (s.pv p (-1)).map (·.goTo p .inside)
  | .inside =>
    (s.pv p 1).map (·.goTo p (match p with
      | .parent => .waitpid
      | .child => .exit 0))
  | .waitpid => if (s.pc .child).isEnded then some (s.goTo p .remove) else none
  | .remove => some ({ s with sem := none }.goTo p (.exit 0))
  | .exit status => some (s.finish p (.exited status))
  | .unborn | .ended _ => none

def step (s : St) : Input → Option St
  | .turn p ok => turn s p ok
  | .kill p => some (s.finish p .killed)

def initial : St := ⟨fun | .parent => .semget | .child => .unborn, none, false⟩

def Lawful (s : St) : Input → Prop
  | .turn _ _ => True
  | .kill p => s.pc p ≠ .unborn ∧ (s.pc p).isEnded = false

instance (s : St) : (a : Input) → Decidable (Lawful s a)
  | .turn _ _ => isTrue trivial
  | .kill _ => inferInstanceAs (Decidable (_ ∧ _))

/-- A turn that the machine cannot take is one in which the process waits. -/
def machine : Machine St Input where
  Start s := s = initial
  Lawful := Lawful
  step := step

instance (s : St) (a : Input) : Decidable (machine.Lawful s a) :=
  inferInstanceAs (Decidable (Lawful s a))

end JiajiaNetwork.TestSemaphore
