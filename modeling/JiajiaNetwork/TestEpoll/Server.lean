/- The loop of `test_epoll.c`, with `lt` as `main` runs it or with `et`, which stands in a
   comment there. The listening socket is edge-triggered in both; the connections are
   edge-triggered in `et` only. `setnonblocking` is never called. -/
import JiajiaNetwork.Lib.CArray
import JiajiaNetwork.Lib.Channel
import JiajiaNetwork.Lib.Flags
import JiajiaNetwork.Lib.Machine

set_option autoImplicit false
set_option relaxedAutoImplicit false

namespace JiajiaNetwork.TestEpoll

open Lib

inductive Handler
  | lt
  | et
  deriving DecidableEq

abbrev Fd := Int
/-- The field `events` of `epoll_event`. -/
abbrev Mask := BitVec 32

def epollIn : Mask := 0x001

def bufferSize : Nat := 10

/-- `EAGAIN`, which is also `EWOULDBLOCK`, and `EBADF`. -/
def eagain : Int := 11
def ebadf : Int := 9

/-- An open socket: the number of its connection and its mode. -/
structure Socket where
  connection : Nat
  nonblocking : Bool

/-- A registration: whether it is edge-triggered, and whether an edge is pending. -/
structure Entry where
  enableEt : Bool
  edge : Bool

structure Report where
  fd : Fd
  events : Mask

/-- Before the next of the events that are left, or at `epoll_wait` when none is; between
`accept` and `addfd`; before `recv` in the inner loop of `et`; behind the loop. -/
inductive Control
  | events (rest : List Report)
  | adding (connfd : Fd) (rest : List Report)
  | draining (sockfd : Fd) (rest : List Report)
  | left

/-- The loop is about to call `epoll_wait`. -/
def Control.Calling : Control → Prop
  | .events [] => True
  | _ => False

/-- The event that the next step handles. -/
def Control.next? : Control → Option Report
  | .events rest => rest.head?
  | _ => none

structure St where
  ctl : Control
  listenfd : Fd
  /-- the number of connections so far, which are numbered from 0 -/
  arrived : Nat
  /-- those that wait for `accept` -/
  backlog : List Nat
  /-- what the client of each connection sent, and what of it `recv` returned -/
  streams : Nat → Channel Byte
  sockets : Fd → Option Socket
  entries : Fd → Option Entry

/-- What the call of one step returns: `accept` a descriptor or -1, `recv` bytes or a failure; and
the value of `errno` after a failure. -/
structure Answers where
  connfd : Fd
  recv : Option (List Byte)
  errno : Int

inductive Input
  | connects
  | arrives (connection : Nat) (bytes : List Byte)
  | finishes (connection : Nat)
  | wait (batch : List Report)
  | waitFailed
  | main (answers : Answers)

/-- There is something to be taken from a descriptor, the end of a stream included. -/
def St.readable (s : St) (fd : Fd) : Bool :=
  if fd = s.listenfd then decide (s.backlog ≠ [])
  else (s.sockets fd).any fun x =>
    decide ((s.streams x.connection).unread ≠ [] ∨ (s.streams x.connection).finished = true)

/-- An arrival raises an edge on the descriptor, if it is registered. -/
def raised (entry : Option Entry) : Option Entry := entry.map fun e => { e with edge := true }

def St.change (s : St) (connection : Nat) (f : Channel Byte → Channel Byte) : St :=
  { s with
    streams := Function.update s.streams connection (f (s.streams connection))
    entries := fun fd =>
      if (s.sockets fd).any fun x => decide (x.connection = connection) then raised (s.entries fd)
      else s.entries fd }

/-- `EPOLL_CTL_ADD` with `EPOLLIN`, and with `EPOLLET` if wanted. It fails for a descriptor that is
not open or that is registered already. -/
def St.addfd (s : St) (fd : Fd) (enableEt : Bool) : St :=
  if (s.sockets fd).isSome ∧ s.entries fd = none then
    { s with entries := Function.update s.entries fd (some ⟨enableEt, s.readable fd⟩) }
  else s

def St.close (s : St) (fd : Fd) : St :=
  { s with
    sockets := Function.update s.sockets fd none
    entries := Function.update s.entries fd none }

/-- `accept` takes the first connection that waits; the new socket is a blocking one. -/
def acceptBranch (s : St) (rest : List Report) (a : Answers) : Option St :=
  if 0 ≤ a.connfd then
    match s.backlog with
    | [] => none
    | c :: later =>
      some { s with
        ctl := .adding a.connfd rest
        backlog := later
        sockets := Function.update s.sockets a.connfd (some ⟨c, false⟩) }
  else some { s with ctl := .adding a.connfd rest }

/-- `recv` returns bytes of the connection behind the descriptor. -/
def St.consume (s : St) (sockfd : Fd) (n : Nat) : Option St :=
  (s.sockets sockfd).map fun x =>
    { s with streams :=
        Function.update s.streams x.connection ((s.streams x.connection).consume n) }

/-- The branch of `lt` for a connection: one `recv`. -/
def ltBranch (s : St) (sockfd : Fd) (rest : List Report) (a : Answers) : Option St :=
  let bytes := a.recv.getD []
  if bytes.length = 0 then some { s.close sockfd with ctl := .events rest }
  else (s.consume sockfd bytes.length).map fun t => { t with ctl := .events rest }

/-- One turn of the inner loop of `et`. Only a failed `recv` ends the loop. -/
def etTurn (s : St) (sockfd : Fd) (rest : List Report) (a : Answers) : Option St :=
  match a.recv with
  | none =>
    if a.errno = eagain then some { s with ctl := .events rest }
    else some { s.close sockfd with ctl := .events rest }
  | some bytes =>
    if bytes.length = 0 then some (s.close sockfd)
    else s.consume sockfd bytes.length

/-- The body of the `for` loop of `lt` or of `et`, up to the inner loop of the latter. -/
def body (v : Handler) (s : St) (r : Report) (rest : List Report) (a : Answers) : Option St :=
  if r.fd = s.listenfd then acceptBranch s rest a
  else if has r.events epollIn then
    match v with
    | .lt => ltBranch s r.fd rest a
    | .et => some { s with ctl := .draining r.fd rest }
  else some { s with ctl := .events rest }

def mainStep (v : Handler) (s : St) (a : Answers) : Option St :=
  match s.ctl with
  | .events (r :: rest) => body v s r rest a
  | .adding connfd rest => some { s.addfd connfd (v = .et) with ctl := .events rest }
  | .draining sockfd rest => etTurn s sockfd rest a
  | .events [] | .left => none

/-- An event that is returned uses up the edge. -/
def reported (entry : Option Entry) : Option Entry := entry.map fun e => { e with edge := false }

def step (v : Handler) (s : St) : Input → Option St
  | .connects =>
    some { s with
      arrived := s.arrived + 1
      backlog := s.backlog ++ [s.arrived]
      entries := Function.update s.entries s.listenfd (raised (s.entries s.listenfd)) }
  | .arrives connection bytes => some (s.change connection (·.send bytes))
  | .finishes connection => some (s.change connection (·.finish))
  | .wait batch =>
    some { s with
      ctl := .events batch
      entries := fun fd =>
        if fd ∈ batch.map Report.fd then reported (s.entries fd) else s.entries fd }
  | .waitFailed => some { s with ctl := .left }
  | .main a => mainStep v s a

def boot (listenfd : Fd) : St where
  ctl := .events []
  listenfd := listenfd
  arrived := 0
  backlog := []
  streams _ := .empty
  sockets _ := none
  entries := Function.update (fun _ => none) listenfd (some ⟨true, false⟩)

def Start (s : St) : Prop := ∃ listenfd, 0 ≤ listenfd ∧ s = boot listenfd

/-- A descriptor may be reported: for its edge, or as long as there is something to be taken. -/
def Reportable (s : St) (fd : Fd) : Prop :=
  ∃ e ∈ s.entries fd, if e.enableEt then e.edge = true else s.readable fd = true

def Sending (s : St) (connection : Nat) : Prop :=
  connection < s.arrived ∧ (s.streams connection).finished = false

def Fresh (s : St) (connfd : Fd) : Prop :=
  0 ≤ connfd ∧ connfd ≠ s.listenfd ∧ s.sockets connfd = none ∧ s.backlog ≠ []

/-- What `recv` may return. It waits for something to return unless the socket is in
nonblocking mode; on a descriptor that is closed it fails. -/
def Received (s : St) (fd : Fd) (a : Answers) : Prop :=
  match a.recv with
  | some bytes => bytes.length ≤ bufferSize - 1 ∧
      ∃ x ∈ s.sockets fd, (s.streams x.connection).Yields bytes
  | none => (s.sockets fd = none → a.errno = ebadf) ∧
      (a.errno = eagain → ∃ x ∈ s.sockets fd, x.nonblocking = true ∧ s.readable fd = false)

/-- The answer to the call at hand. -/
def Answered (s : St) (a : Answers) : Control → Prop
  | .events (r :: _) =>
    if r.fd = s.listenfd then a.connfd = -1 ∨ Fresh s a.connfd else Received s r.fd a
  | .draining sockfd _ => Received s sockfd a
  | .events [] | .adding _ _ | .left => True

def Lawful (s : St) : Input → Prop
  | .connects => True
  | .arrives connection _ | .finishes connection => Sending s connection
  | .wait batch =>
    s.ctl.Calling ∧ (batch.map Report.fd).Nodup ∧
      ∀ r ∈ batch, Reportable s r.fd ∧ (has r.events epollIn ↔ s.readable r.fd = true)
  | .waitFailed => s.ctl.Calling
  | .main a => Answered s a s.ctl

instance : (c : Control) → Decidable c.Calling
  | .events [] => isTrue trivial
  | .events (_ :: _) | .adding _ _ | .draining _ _ | .left => isFalse id

instance (s : St) (fd : Fd) : Decidable (Reportable s fd) :=
  inferInstanceAs (Decidable (∃ e, e ∈ s.entries fd ∧ ite _ _ _))

instance (s : St) (connection : Nat) : Decidable (Sending s connection) :=
  inferInstanceAs (Decidable (_ ∧ _))

instance (s : St) (connfd : Fd) : Decidable (Fresh s connfd) :=
  inferInstanceAs (Decidable (_ ∧ _ ∧ s.sockets connfd = none ∧ _))

instance (s : St) (fd : Fd) (a : Answers) : Decidable (Received s fd a) := by
  unfold Received
  cases a.recv with
  | none =>
    exact inferInstanceAs (Decidable ((s.sockets fd = none → a.errno = ebadf) ∧
      (a.errno = eagain → ∃ x, x ∈ s.sockets fd ∧ _)))
  | some bytes =>
    exact inferInstanceAs (Decidable (bytes.length ≤ bufferSize - 1 ∧ ∃ x, x ∈ s.sockets fd ∧ _))

instance (s : St) (a : Answers) : (c : Control) → Decidable (Answered s a c)
  | .events (r :: _) => inferInstanceAs (Decidable
      (ite (r.fd = s.listenfd) (a.connfd = -1 ∨ Fresh s a.connfd) (Received s r.fd a)))
  | .draining sockfd _ => inferInstanceAs (Decidable (Received s sockfd a))
  | .events [] | .adding _ _ | .left => isTrue trivial

instance (s : St) : (a : Input) → Decidable (Lawful s a)
  | .connects => isTrue trivial
  | .arrives connection _ | .finishes connection =>
    inferInstanceAs (Decidable (Sending s connection))
  | .wait _ => inferInstanceAs (Decidable (_ ∧ _ ∧ _))
  | .waitFailed => inferInstanceAs (Decidable s.ctl.Calling)
  | .main a => inferInstanceAs (Decidable (Answered s a s.ctl))

def machine (v : Handler) : Machine St Input where
  Start := Start
  Lawful := Lawful
  step := step v

instance (v : Handler) (s : St) (a : Input) : Decidable ((machine v).Lawful s a) :=
  inferInstanceAs (Decidable (Lawful s a))

end JiajiaNetwork.TestEpoll
