/- The main thread of `test_epoll_epolloneshot.c` and its workers. A worker is handed the
   address of the record `fds_for_new_worker`, a variable of the block that creates it; every
   thread takes one step at a time, in any order, and input arrives between any two steps. -/
import JiajiaNetwork.Lib.Machine
import JiajiaNetwork.OneShot.Kernel

set_option autoImplicit false
set_option relaxedAutoImplicit false

namespace JiajiaNetwork.OneShot

open Lib

def bufferSize : Nat := 10

/-- The record `fds` that a worker is handed. -/
structure Fds where
  epollfd : Fd
  sockfd : Fd
  deriving DecidableEq

/-- One element of the array `events`, and the connection that it is about. -/
structure Report where
  fd : Fd
  events : Mask
  connection : Nat

/-- Where a worker stands: before it reads its record, before `recv`, before `reset_onshot`,
before `close`, or at its end. -/
inductive Stage
  | started
  | serving (arg : Fds)
  | again (arg : Fds)
  | closing (arg : Fds)
  | finished
  deriving DecidableEq

/-- The descriptors that a worker has read and not given up yet. -/
def Stage.arg? : Stage → Option Fds
  | .serving arg | .again arg | .closing arg => some arg
  | .started | .finished => none

structure Worker where
  /-- the event that caused its creation -/
  event : Report
  stage : Stage

/-- Where the main thread stands: before the next of the events that are left, or at the call of
`epoll_wait` when none is; before `addfd`; before or behind `pthread_create`; behind the loop. -/
inductive Control
  | events (rest : List Report)
  | adding (connfd : Fd) (rest : List Report)
  | filled (event : Report) (rest : List Report)
  | created (thread : Nat) (rest : List Report)
  | left

/-- The events that were returned and have no worker yet. -/
def Control.ahead : Control → List Report
  | .events rest | .adding _ rest | .created _ rest => rest
  | .filled event rest => event :: rest
  | .left => []

/-- The thread in whose block the main thread still is. -/
def Control.block? : Control → Option Nat
  | .created thread _ => some thread
  | _ => none

structure St where
  ctl : Control
  listenfd : Fd
  epollfd : Fd
  /-- the variable `fds_for_new_worker`, while it is in scope -/
  record : Option Fds
  workers : Nat → Option Worker
  kernel : Kernel

/-- The main thread calls `epoll_wait`. -/
def Control.Calling : Control → Prop
  | .events [] => True
  | _ => False

/-- What `recv` returns: bytes, none of them at the end of the stream, or -1 with `EAGAIN` or
with another error. -/
inductive Answer
  | received (bytes : List Byte)
  | eagain
  | failed

inductive Input
  | arrives (fd : Fd) (bytes : List Byte)
  | finishes (fd : Fd)
  | wait (batch : List Report)
  | waitFailed
  /-- the next step of the main thread, with what `accept` returns and the thread created -/
  | main (connfd : Fd) (thread : Nat)
  /-- the next step of a worker, with what is found in a variable out of scope -/
  | worker (thread : Nat) (stale : Fds) (answer : Answer)

def mainStep (s : St) (connfd : Fd) (thread : Nat) : Option St :=
  match s.ctl with
  | .events (event :: rest) =>
    if event.fd = s.listenfd then
      some { s with ctl := .adding connfd rest, kernel := s.kernel.accept connfd }
    else if has event.events epollIn then
      some { s with ctl := .filled event rest, record := some ⟨s.epollfd, event.fd⟩ }
    else some { s with ctl := .events rest }
  | .adding connfd rest =>
    some { s with ctl := .events rest, kernel := s.kernel.addfd connfd true }
  | .filled event rest =>
    some { s with
      ctl := .created thread rest
      workers := Function.update s.workers thread (some ⟨event, .started⟩) }
  | .created _ rest => some { s with ctl := .events rest, record := none }
  | .events [] | .left => none

def St.goto (s : St) (thread : Nat) (w : Worker) (stage : Stage) : St :=
  { s with workers := Function.update s.workers thread (some { w with stage }) }

/-- The body of the loop around `recv`. -/
def recvStep (s : St) (thread : Nat) (w : Worker) (arg : Fds) : Answer → St
  | .received bytes =>
    if bytes.length = 0 then s.goto thread w (.closing arg)
    else { s with kernel := s.kernel.consume arg.sockfd bytes.length }
  | .eagain => s.goto thread w (.again arg)
  | .failed => s

def workerStep (s : St) (thread : Nat) (w : Worker) (stale : Fds) (answer : Answer) : Option St :=
  match w.stage with
  | .started => some (s.goto thread w (.serving (s.record.getD stale)))
  | .serving arg => some (recvStep s thread w arg answer)
  | .again arg =>
    some { s.goto thread w .finished with
      kernel := if arg.epollfd = s.epollfd then s.kernel.resetOnshot arg.sockfd else s.kernel }
  | .closing arg =>
    some { s.goto thread w .finished with kernel := s.kernel.close arg.sockfd }
  | .finished => none

def step (s : St) : Input → Option St
  | .arrives fd bytes => some { s with kernel := s.kernel.arrives fd (·.send bytes) }
  | .finishes fd => some { s with kernel := s.kernel.arrives fd (·.finish) }
  | .wait batch =>
    some { s with ctl := .events batch, kernel := s.kernel.deliver (batch.map Report.fd) }
  | .waitFailed => some { s with ctl := .left }
  | .main connfd thread => mainStep s connfd thread
  | .worker thread stale answer =>
    (s.workers thread).bind fun w => workerStep s thread w stale answer

/-- Before the first call of `epoll_wait`, with the listening socket registered. -/
def boot (listenfd epollfd : Fd) : St where
  ctl := .events []
  listenfd := listenfd
  epollfd := epollfd
  record := none
  workers _ := none
  kernel := {
    sockets := fun _ => none
    entries := Function.update (fun _ => none) listenfd (some ⟨epollIn ||| epollEt, false⟩)
    accepted := 0 }

def Start (s : St) : Prop :=
  ∃ listenfd epollfd, 0 ≤ listenfd ∧ 0 ≤ epollfd ∧ listenfd ≠ epollfd ∧ s = boot listenfd epollfd

def Sending (k : Kernel) (fd : Fd) : Prop := ∃ x ∈ k.sockets fd, x.stream.finished = false

/-- An event of a connection is returned once it is pending, and says that there is input. -/
structure Due (k : Kernel) (r : Report) : Prop where
  pending : ∃ e ∈ k.entries r.fd, e.Armed ∧ e.ready = true
  input : ∃ x ∈ k.sockets r.fd, x.Waiting ∧ x.connection = r.connection
  readable : has r.events epollIn

/-- What `accept` may return. -/
def Fresh (s : St) (connfd : Fd) : Prop :=
  connfd = -1 ∨ 0 ≤ connfd ∧ connfd ≠ s.listenfd ∧ connfd ≠ s.epollfd ∧
    s.kernel.sockets connfd = none

/-- What `recv` may return for a descriptor. -/
def Answered (k : Kernel) (fd : Fd) : Answer → Prop
  | .received bytes =>
    bytes.length ≤ bufferSize - 1 ∧ ∃ x ∈ k.sockets fd, x.stream.Yields bytes
  | .eagain => ∃ x ∈ k.sockets fd, ¬ x.Waiting ∧ x.nonblocking = true
  | .failed => True

/-- The answer to the call that a worker is at. -/
def Meets (k : Kernel) : Stage → Answer → Prop
  | .serving arg, answer => Answered k arg.sockfd answer
  | _, _ => True

def Lawful (s : St) : Input → Prop
  | .arrives fd _ | .finishes fd => Sending s.kernel fd
  | .wait batch =>
    s.ctl.Calling ∧ (batch.map Report.fd).Nodup ∧
      ∀ r ∈ batch, r.fd = s.listenfd ∨ Due s.kernel r
  | .waitFailed => s.ctl.Calling
  | .main connfd thread => Fresh s connfd ∧ s.workers thread = none
  | .worker thread _ answer => ∀ w ∈ s.workers thread, Meets s.kernel w.stage answer

instance : (c : Control) → Decidable c.Calling
  | .events [] => isTrue trivial
  | .events (_ :: _) | .adding _ _ | .filled _ _ | .created _ _ | .left => isFalse id

instance (k : Kernel) (fd : Fd) : Decidable (Sending k fd) :=
  inferInstanceAs (Decidable (∃ x, x ∈ k.sockets fd ∧ _))

instance (k : Kernel) (r : Report) : Decidable (Due k r) :=
  decidable_of_iff ((∃ e ∈ k.entries r.fd, e.Armed ∧ e.ready = true) ∧
    (∃ x ∈ k.sockets r.fd, x.Waiting ∧ x.connection = r.connection) ∧ has r.events epollIn)
    ⟨fun h => ⟨h.1, h.2.1, h.2.2⟩, fun h => ⟨h.pending, h.input, h.readable⟩⟩

instance (s : St) (connfd : Fd) : Decidable (Fresh s connfd) :=
  inferInstanceAs (Decidable (_ ∨ _))

instance (k : Kernel) (fd : Fd) : (a : Answer) → Decidable (Answered k fd a)
  | .received _ => inferInstanceAs (Decidable (_ ∧ ∃ x, x ∈ k.sockets fd ∧ _))
  | .eagain => inferInstanceAs (Decidable (∃ x, x ∈ k.sockets fd ∧ _))
  | .failed => isTrue trivial

instance (k : Kernel) : (stage : Stage) → (a : Answer) → Decidable (Meets k stage a)
  | .serving arg, a => inferInstanceAs (Decidable (Answered k arg.sockfd a))
  | .started, _ | .again _, _ | .closing _, _ | .finished, _ => isTrue trivial

instance (s : St) : (a : Input) → Decidable (Lawful s a)
  | .arrives fd _ | .finishes fd => inferInstanceAs (Decidable (Sending s.kernel fd))
  | .wait _ => inferInstanceAs (Decidable (_ ∧ _ ∧ _))
  | .waitFailed => inferInstanceAs (Decidable s.ctl.Calling)
  | .main _ _ => inferInstanceAs (Decidable (_ ∧ _))
  | .worker thread _ _ => inferInstanceAs (Decidable (∀ w, w ∈ s.workers thread → _))

def machine : Machine St Input where
  Start := Start
  Lawful := Lawful
  step := step

instance (s : St) (a : Input) : Decidable (machine.Lawful s a) :=
  inferInstanceAs (Decidable (Lawful s a))

end JiajiaNetwork.OneShot
