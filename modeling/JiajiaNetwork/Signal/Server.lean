/- The loop of `test_signal.c`. The handler of the signals writes each of them as one byte to
   `pipefd[1]`; the loop reads them from `pipefd[0]`, which is edge-triggered as all its
   descriptors are. -/
import JiajiaNetwork.Lib.CArray
import JiajiaNetwork.Lib.Channel
import JiajiaNetwork.Lib.Flags
import JiajiaNetwork.Lib.Machine

set_option autoImplicit false
set_option relaxedAutoImplicit false

namespace JiajiaNetwork.Signal

open Lib

abbrev Fd := Int
/-- The field `events` of `epoll_event`. -/
abbrev Mask := BitVec 32

def epollIn : Mask := 0x001

def sighup : Int := 1
def sigint : Int := 2
def sigterm : Int := 15
def sigchld : Int := 17

def eintr : Int := 4

/-- The length of `signals`. -/
def signalsSize : Nat := 1024

structure Report where
  fd : Fd
  events : Mask
  deriving DecidableEq

/-- At the test of `stop_server`; in `epoll_wait`; before the next of the events that are left;
between `accept` and `addfd`; before the next of the bytes that `recv` returned; behind the loop. -/
inductive Control
  | testing
  | waiting
  | events (rest : List Report)
  | adding (connfd : Fd) (rest : List Report)
  | scanning (signals : List Byte) (rest : List Report)
  | left
  deriving DecidableEq

structure St where
  ctl : Control
  stopServer : Bool
  listenfd : Fd
  /-- `pipefd[0]` -/
  pipefd : Fd
  /-- how many connections wait for `accept` -/
  backlog : Nat
  pipe : Channel Byte
  /-- the descriptors that are registered, and whether an edge is pending for them -/
  entries : Fd → Option Bool
  /-- the signals whose byte `sig_handler` has sent -/
  handled : List Int
  /-- the bytes that the `switch` has seen -/
  examined : List Byte
  /-- the `errno` with which `epoll_wait` failed -/
  failed : Option Int

/-- What the call of one step returns: `accept` a descriptor or -1, `recv` bytes or a failure. -/
structure Answers where
  connfd : Fd
  recv : Option (List Byte)

inductive Input
  | connects
  | arrives (fd : Fd)
  /-- `sig_handler` runs, and its `send` succeeds or not -/
  | signal (sig : Int) (sent : Bool)
  | wait (batch : List Report)
  | waitFailed (errno : Int)
  | main (answers : Answers)

/-- The first byte of the `int`, on a little-endian machine. -/
def firstByte (sig : Int) : Byte := UInt8.ofInt sig

/-- A `char` in a `switch`, which is signed. -/
def promoted (c : Byte) : Int := c.toInt8.toInt

/-- An arrival raises an edge on the descriptor, if it is registered. -/
def St.raise (s : St) (fd : Fd) : St :=
  { s with entries := Function.update s.entries fd ((s.entries fd).map fun _ => true) }

def St.sigHandler (s : St) (sig : Int) (sent : Bool) : St :=
  if sent then
    { s.raise s.pipefd with
      pipe := s.pipe.send [firstByte sig]
      handled := s.handled ++ [sig] }
  else s

/-- `epoll_wait` returns. The events that it returns use up their edges; a failure of any kind
leaves the loop. -/
def St.epollReturns (s : St) : Except Int (List Report) → St
  | .error errno => { s with ctl := .left, failed := some errno }
  | .ok batch =>
    { s with
      ctl := .events batch
      entries := fun fd =>
        if fd ∈ batch.map Report.fd then (s.entries fd).map fun _ => false else s.entries fd }

def St.addfd (s : St) (fd : Fd) : St :=
  if 0 ≤ fd ∧ s.entries fd = none then
    { s with entries := Function.update s.entries fd (some false) }
  else s

def acceptBranch (s : St) (rest : List Report) (a : Answers) : St :=
  if 0 ≤ a.connfd then { s with ctl := .adding a.connfd rest, backlog := s.backlog - 1 }
  else { s with ctl := .adding a.connfd rest }

/-- One `recv` from `pipefd[0]`. -/
def pipeBranch (s : St) (rest : List Report) (a : Answers) : St :=
  match a.recv with
  | none => { s with ctl := .events rest }
  | some bytes =>
    if bytes.length = 0 then { s with ctl := .events rest }
    else { s with ctl := .scanning bytes rest, pipe := s.pipe.consume bytes.length }

def body (s : St) (r : Report) (rest : List Report) (a : Answers) : St :=
  if r.fd = s.listenfd then acceptBranch s rest a
  else if r.fd = s.pipefd ∧ has r.events epollIn then pipeBranch s rest a
  else { s with ctl := .events rest }

/-- The `switch` on one byte. -/
def St.examine (s : St) (c : Byte) : St :=
  { s with
    examined := s.examined ++ [c]
    stopServer := s.stopServer || promoted c == sigterm || promoted c == sigint }

def mainStep (s : St) (a : Answers) : Option St :=
  match s.ctl with
  | .testing => some { s with ctl := if s.stopServer then .left else .waiting }
  | .events [] => some { s with ctl := .testing }
  | .events (r :: rest) => some (body s r rest a)
  | .adding connfd rest => some { s.addfd connfd with ctl := .events rest }
  | .scanning [] rest => some { s with ctl := .events rest }
  | .scanning (c :: signals) rest => some { s.examine c with ctl := .scanning signals rest }
  | .waiting | .left => none

/-- A handler that runs during `epoll_wait` makes it return -1 with `EINTR`, `SA_RESTART` or not. -/
def step (s : St) : Input → Option St
  | .connects => some { s.raise s.listenfd with backlog := s.backlog + 1 }
  | .arrives fd => some (s.raise fd)
  | .signal sig sent =>
    if s.ctl = .waiting then some ((s.sigHandler sig sent).epollReturns (.error eintr))
    else some (s.sigHandler sig sent)
  | .wait batch => some (s.epollReturns (.ok batch))
  | .waitFailed errno => some (s.epollReturns (.error errno))
  | .main a => mainStep s a

def boot (listenfd pipefd : Fd) : St where
  ctl := .testing
  stopServer := false
  listenfd := listenfd
  pipefd := pipefd
  backlog := 0
  pipe := .empty
  entries fd := if fd = listenfd ∨ fd = pipefd then some false else none
  handled := []
  examined := []
  failed := none

def Start (s : St) : Prop :=
  ∃ listenfd pipefd, 0 ≤ listenfd ∧ 0 ≤ pipefd ∧ listenfd ≠ pipefd ∧ s = boot listenfd pipefd

/-- An event is returned for a pending edge, with `EPOLLIN` on `pipefd[0]` if it has bytes. -/
def Due (s : St) (r : Report) : Prop :=
  s.entries r.fd = some true ∧
    (r.fd = s.pipefd → (has r.events epollIn ↔ s.pipe.unread ≠ []))

/-- The answer to the call at hand. -/
def Answered (s : St) (a : Answers) : Control → Prop
  | .events (r :: _) =>
    if r.fd = s.listenfd then
      a.connfd = -1 ∨ 0 ≤ a.connfd ∧ s.entries a.connfd = none ∧ 0 < s.backlog
    else ∀ bytes ∈ a.recv, bytes.length ≤ signalsSize ∧ s.pipe.Yields bytes
  | _ => True

/-- `epoll_wait` fails with `EINTR` only when a handler runs. -/
def Lawful (s : St) : Input → Prop
  | .connects => True
  | .arrives fd => fd ≠ s.listenfd ∧ fd ≠ s.pipefd
  | .signal sig _ => sig = sighup ∨ sig = sigchld ∨ sig = sigterm ∨ sig = sigint
  | .wait batch => s.ctl = .waiting ∧ (batch.map Report.fd).Nodup ∧ ∀ r ∈ batch, Due s r
  | .waitFailed errno => s.ctl = .waiting ∧ errno ≠ eintr
  | .main a => Answered s a s.ctl

instance (s : St) (r : Report) : Decidable (Due s r) := inferInstanceAs (Decidable (_ ∧ _))

instance (s : St) (a : Answers) : (c : Control) → Decidable (Answered s a c)
  | .events (r :: _) => inferInstanceAs (Decidable (ite (r.fd = s.listenfd)
      (a.connfd = -1 ∨ 0 ≤ a.connfd ∧ s.entries a.connfd = none ∧ 0 < s.backlog)
      (∀ bytes, bytes ∈ a.recv → bytes.length ≤ signalsSize ∧ s.pipe.Yields bytes)))
  | .testing | .waiting | .events [] | .adding _ _ | .scanning _ _ | .left => isTrue trivial

instance (s : St) : (a : Input) → Decidable (Lawful s a)
  | .connects => isTrue trivial
  | .arrives _ => inferInstanceAs (Decidable (_ ∧ _))
  | .signal sig _ =>
    inferInstanceAs (Decidable (sig = sighup ∨ sig = sigchld ∨ sig = sigterm ∨ sig = sigint))
  | .wait batch => inferInstanceAs (Decidable (s.ctl = .waiting ∧ (batch.map Report.fd).Nodup ∧
      ∀ r ∈ batch, Due s r))
  | .waitFailed errno => inferInstanceAs (Decidable (s.ctl = .waiting ∧ errno ≠ eintr))
  | .main a => inferInstanceAs (Decidable (Answered s a s.ctl))

def machine : Machine St Input where
  Start := Start
  Lawful := Lawful
  step := step

instance (s : St) (a : Input) : Decidable (machine.Lawful s a) :=
  inferInstanceAs (Decidable (Lawful s a))

end JiajiaNetwork.Signal
