/- The loops of `test_blocking.c` and `test_noblocking.c`, one call of `accept` or `recv` at a time.
   A connection is read to its end before the next one is accepted. Clients connect, send and
   close between any two calls. -/
import JiajiaNetwork.Lib.CArray
import JiajiaNetwork.Lib.Channel
import JiajiaNetwork.Lib.Lifetime
import JiajiaNetwork.Lib.Machine

set_option autoImplicit false
set_option relaxedAutoImplicit false

namespace JiajiaNetwork.Sequential

open Lib

inductive Program
  | testBlocking
  | testNoblocking
  deriving DecidableEq

abbrev Errno := Nat
def ebadf : Errno := 9
def eagain : Errno := 11

def buffSize : Nat := 1024

/-- At the call of `accept`, or at the call of `recv` for the connection that was made as number
`id`. -/
inductive Control
  | accepting
  | receiving (id : Nat)
  deriving DecidableEq

/-- What the program prints, and the connections it accepts and closes. -/
inductive Event
  /-- `errno is :%d` -/
  | failed (errno : Errno)
  | accepted (id : Nat)
  /-- `get %d bytes of normal data:%s` -/
  | got (id : Nat) (ret : Nat) (text : List Byte)
  /-- closed behind the end of the input, or because `recv` failed -/
  | closed (id : Nat) (failure : Option Errno)
  deriving DecidableEq

structure St where
  ctl : Control
  /-- `sock` is open -/
  listening : Bool
  /-- the connections that were made and wait to be accepted, and the number of the next one -/
  queue : List Nat
  next : Nat
  streams : Nat → Channel Byte
  log : List Event

inductive Input
  | connects
  | arrives (id : Nat) (bytes : List Byte)
  | finishes (id : Nat)
  /-- `accept` returns the connection that waits longest, or fails -/
  | accept (failure : Option Errno)
  | recv (answer : Except Errno (List Byte))

namespace St

def emit (s : St) (e : Event) : St := { s with log := s.log ++ [e] }

end St

/-- A failed `accept`; `test_blocking.c` closes the listening socket and goes on. -/
def acceptFailed (v : Program) (s : St) (errno : Errno) : St :=
  match v with
  | .testBlocking => { s.emit (.failed errno) with listening := false }
  | .testNoblocking => s.emit (.failed errno)

/-- One round of the inner loop. `printf` would read beyond a buffer without a zero byte. -/
def receive (s : St) (id : Nat) : Except Errno (List Byte) → Option St
  | .error errno => some { s.emit (.closed id (some errno)) with ctl := .accepting }
  | .ok [] => some { s.emit (.closed id none) with ctl := .accepting }
  | .ok bytes => do
    let text ← cString (overlay bytes (List.replicate buffSize 0))
    some { s.emit (.got id bytes.length text) with
      streams := Function.update s.streams id ((s.streams id).consume bytes.length) }

def step (v : Program) (s : St) : Input → Option St
  | .connects => some { s with queue := s.queue ++ [s.next], next := s.next + 1 }
  | .arrives id bytes =>
    some { s with streams := Function.update s.streams id ((s.streams id).send bytes) }
  | .finishes id => some { s with streams := Function.update s.streams id (s.streams id).finish }
  | .accept none =>
    match s.ctl, s.queue with
    | .accepting, id :: rest =>
      some { s.emit (.accepted id) with ctl := .receiving id, queue := rest }
    | _, _ => none
  | .accept (some errno) =>
    match s.ctl with
    | .accepting => some (acceptFailed v s errno)
    | .receiving _ => none
  | .recv answer =>
    match s.ctl with
    | .receiving id => receive s id answer
    | .accepting => none

/-- `recv` returns what comes next on the connection at hand. -/
def Answered (s : St) (answer : Except Errno (List Byte)) : Prop :=
  match s.ctl with
  | .receiving id => ∀ bytes ∈ answer.toOption,
      bytes.length ≤ buffSize - 1 ∧ (s.streams id).Yields bytes
  | .accepting => False

/-- `accept` fails with EAGAIN only on a non-blocking socket for which no connection waits, and
always on one that is closed. The accepted sockets are blocking. -/
def Lawful (v : Program) (s : St) : Input → Prop
  | .connects => s.listening = true
  | .arrives id _ | .finishes id => id < s.next ∧ (s.streams id).finished = false
  | .accept none => s.ctl = .accepting ∧ s.listening = true ∧ s.queue ≠ []
  | .accept (some errno) => s.ctl = .accepting ∧ (s.listening = false → errno = ebadf) ∧
      (errno = eagain → v = .testNoblocking ∧ s.queue = [])
  | .recv answer => Answered s answer

instance (s : St) (answer : Except Errno (List Byte)) : Decidable (Answered s answer) := by
  unfold Answered
  split <;> infer_instance

instance (v : Program) (s : St) : (a : Input) → Decidable (Lawful v s a)
  | .connects => inferInstanceAs (Decidable (_ = _))
  | .arrives _ _ | .finishes _ => inferInstanceAs (Decidable (_ ∧ _))
  | .accept none => inferInstanceAs (Decidable (_ ∧ _ ∧ _))
  | .accept (some _) => inferInstanceAs (Decidable (_ ∧ _ ∧ _))
  | .recv answer => inferInstanceAs (Decidable (Answered s answer))

def initial : St := ⟨.accepting, true, [], 0, fun _ => .empty, []⟩

def machine (v : Program) : Machine St Input where
  Start s := s = initial
  Lawful := Lawful v
  step := step v

instance (v : Program) (s : St) (a : Input) : Decidable ((machine v).Lawful s a) :=
  inferInstanceAs (Decidable (Lawful v s a))

end JiajiaNetwork.Sequential
