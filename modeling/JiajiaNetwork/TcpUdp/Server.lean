/- The loop of `test_tcp_udp_server.c`: a listening socket, a datagram socket and the accepted
   connections, all edge-triggered and blocking. One step handles one element of `events`;
   connections, bytes and datagrams arrive between any two steps. -/
import JiajiaNetwork.Lib.CArray
import JiajiaNetwork.Lib.Channel
import JiajiaNetwork.Lib.Flags
import JiajiaNetwork.Lib.Machine

set_option autoImplicit false
set_option relaxedAutoImplicit false

namespace JiajiaNetwork.TcpUdp

open Lib

abbrev Fd := Int
/-- The field `events` of `epoll_event`. -/
abbrev Mask := BitVec 32

def epollIn : Mask := 0x001

def tcpBufferSize : Nat := 512
def udpBufferSize : Nat := 1024

/-- The values of `errno` that a branch or a call here is about; `EWOULDBLOCK` is `EAGAIN`. -/
def eagain : Int := 11
def ebadf : Int := 9
def eexist : Int := 17

structure SockaddrIn where
  sinPort : BitVec 16
  sinAddr : BitVec 32
  deriving DecidableEq

structure Datagram where
  source : SockaddrIn
  bytes : List Byte
  deriving DecidableEq

structure Socket where
  /-- which of the accepted connections this is, since descriptors are given out again -/
  connection : Nat
  stream : Channel Byte

structure Report where
  fd : Fd
  events : Mask

/-- What the server did, as its clients see it. -/
inductive Event
  | received (connection : Nat) (bytes : List Byte)
  | sent (connection : Nat) (bytes : List Byte)
  | receivedFrom (datagram : Datagram)
  | sentTo (datagram : Datagram)
  deriving DecidableEq

/-- Before the next of the events that are left, or at `epoll_wait` when none is; between
`accept` and `addfd`; behind the loop. -/
inductive Control
  | events (rest : List Report)
  | adding (connfd : Fd) (rest : List Report)
  | left

def Control.ahead : Control → List Report
  | .events rest | .adding _ rest => rest
  | .left => []

/-- The event that the next step handles. -/
def Control.next? : Control → Option Report
  | .events rest => rest.head?
  | .adding _ _ | .left => none

/-- The loop is about to call `epoll_wait`. -/
def Control.Calling : Control → Prop
  | .events [] => True
  | _ => False

structure St where
  ctl : Control
  listenfd : Fd
  udpfd : Fd
  errno : Int
  /-- the connections that wait for `accept` -/
  backlog : Nat
  datagrams : List Datagram
  sockets : Fd → Option Socket
  /-- the registered descriptors, each with whether an edge is pending -/
  entries : Fd → Option Bool
  /-- the number of connections accepted so far -/
  accepted : Nat
  log : List Event

/-- What the calls of one step return: `accept` a descriptor or -1, `recv` or `recvfrom` bytes or
a failure; and the value of `errno` after a failure. -/
structure Answers where
  connfd : Fd
  recv : Option (List Byte)
  errno : Int

inductive Input
  | connects
  | sends (datagram : Datagram)
  | arrives (fd : Fd) (bytes : List Byte)
  | finishes (fd : Fd)
  | wait (batch : List Report)
  | waitFailed
  | main (answers : Answers)

/-- An arrival raises an edge if the descriptor is registered. -/
def St.raise (s : St) (fd : Fd) : St :=
  { s with entries := Function.update s.entries fd ((s.entries fd).map fun _ => true) }

def St.change (s : St) (fd : Fd) (f : Channel Byte → Channel Byte) : St :=
  { s with
    sockets := Function.update s.sockets fd
      ((s.sockets fd).map fun x => { x with stream := f x.stream }) }

/-- There is something to be read from a connection, its end included. -/
def St.readable (s : St) (fd : Fd) : Bool :=
  (s.sockets fd).any fun x => decide (x.stream.unread ≠ [] ∨ x.stream.finished = true)

/-- `EPOLL_CTL_ADD` with `EPOLLIN | EPOLLET`. It fails for a descriptor that is not open or that
is registered already. -/
def St.addfd (s : St) (fd : Fd) : St :=
  if s.sockets fd = none then { s with errno := ebadf }
  else if (s.entries fd).isSome then { s with errno := eexist }
  else { s with entries := Function.update s.entries fd (some (s.readable fd)) }

def St.close (s : St) (fd : Fd) : St :=
  { s with
    sockets := Function.update s.sockets fd none
    entries := Function.update s.entries fd none }

def acceptBranch (s : St) (rest : List Report) (a : Answers) : St :=
  if 0 ≤ a.connfd then
    { s with
      ctl := .adding a.connfd rest
      backlog := s.backlog - 1
      sockets := Function.update s.sockets a.connfd (some ⟨s.accepted, .empty⟩)
      accepted := s.accepted + 1 }
  else { s with ctl := .adding a.connfd rest, errno := a.errno }

/-- `recvfrom` takes one datagram and fills the cleared buffer with as much as fits; `sendto`
sends the buffer. -/
def udpBranch (s : St) (rest : List Report) (a : Answers) : Option St :=
  match a.recv with
  | none => some { s with ctl := .events rest, errno := a.errno }
  | some bytes =>
    match s.datagrams with
    | [] => none
    | d :: later =>
      let buf := overlay bytes (List.replicate udpBufferSize 0)
      let echo :=
        if 0 < bytes.length then [.sentTo ⟨d.source, buf.take (udpBufferSize - 1)⟩] else []
      some { s with
        ctl := .events rest
        datagrams := later
        log := s.log ++ [.receivedFrom ⟨d.source, bytes⟩] ++ echo }

/-- The branch `ret <= 0`, which leaves the `for` loop either way; the branch `ret == 0` behind
it is never taken. -/
def giveUp (s : St) (sockfd : Fd) : St :=
  if s.errno = eagain then { s with ctl := .events [] }
  else { s.close sockfd with ctl := .events [] }

def tcpBranch (s : St) (sockfd : Fd) (rest : List Report) (a : Answers) : Option St :=
  match a.recv with
  | none => some (giveUp { s with errno := a.errno } sockfd)
  | some bytes =>
    if bytes.length = 0 then some (giveUp s sockfd)
    else (s.sockets sockfd).map fun x =>
      let buf := overlay bytes (List.replicate tcpBufferSize 0)
      { s.change sockfd (·.consume bytes.length) with
        ctl := .events rest
        log := s.log ++ [.received x.connection bytes, .sent x.connection (buf.take bytes.length)] }

/-- The body of the `for` loop. -/
def body (s : St) (r : Report) (rest : List Report) (a : Answers) : Option St :=
  if r.fd = s.listenfd then some (acceptBranch s rest a)
  else if r.fd = s.udpfd then udpBranch s rest a
  else if has r.events epollIn then tcpBranch s r.fd rest a
  else some { s with ctl := .events rest }

def mainStep (s : St) (a : Answers) : Option St :=
  match s.ctl with
  | .events (r :: rest) => body s r rest a
  | .adding connfd rest => some { s.addfd connfd with ctl := .events rest }
  | .events [] | .left => none

def step (s : St) : Input → Option St
  | .connects => some ({ s with backlog := s.backlog + 1 }.raise s.listenfd)
  | .sends d => some ({ s with datagrams := s.datagrams ++ [d] }.raise s.udpfd)
  | .arrives fd bytes => some ((s.change fd (·.send bytes)).raise fd)
  | .finishes fd => some ((s.change fd (·.finish)).raise fd)
  | .wait batch =>
    some { s with
      ctl := .events batch
      entries := fun fd =>
        if fd ∈ batch.map Report.fd then (s.entries fd).map fun _ => false else s.entries fd }
  | .waitFailed => some { s with ctl := .left }
  | .main a => mainStep s a

def boot (listenfd udpfd : Fd) : St where
  ctl := .events []
  listenfd := listenfd
  udpfd := udpfd
  errno := 0
  backlog := 0
  datagrams := []
  sockets _ := none
  entries := fun fd => if fd = listenfd ∨ fd = udpfd then some false else none
  accepted := 0
  log := []

def Start (s : St) : Prop :=
  ∃ listenfd udpfd, 0 ≤ listenfd ∧ 0 ≤ udpfd ∧ listenfd ≠ udpfd ∧ s = boot listenfd udpfd

/-- The number of things to be taken from a descriptor: connections, datagrams or bytes. -/
def St.queued (s : St) (fd : Fd) : Nat :=
  if fd = s.listenfd then s.backlog
  else if fd = s.udpfd then s.datagrams.length
  else (s.sockets fd).elim 0 fun x => x.stream.unread.length

/-- A descriptor is reported for its edge, as readable when there is something to take. -/
structure Due (s : St) (r : Report) : Prop where
  edge : s.entries r.fd = some true
  readable : 0 < s.queued r.fd → has r.events epollIn

def Sending (s : St) (fd : Fd) : Prop := ∃ x ∈ s.sockets fd, x.stream.finished = false

def Fresh (s : St) (connfd : Fd) : Prop :=
  0 ≤ connfd ∧ connfd ≠ s.listenfd ∧ connfd ≠ s.udpfd ∧ s.sockets connfd = none ∧ 0 < s.backlog

/-- The answer to the call at hand. All calls block, so that they return only with something. -/
def Answered (s : St) (r : Report) (a : Answers) : Prop :=
  if r.fd = s.listenfd then a.connfd = -1 ∨ Fresh s a.connfd
  else if r.fd = s.udpfd then ∀ bytes ∈ a.recv, ∃ d ∈ s.datagrams.head?,
    bytes = d.bytes.take (udpBufferSize - 1)
  else ∀ bytes ∈ a.recv, bytes.length ≤ tcpBufferSize - 1 ∧
    ∃ x ∈ s.sockets r.fd, x.stream.Yields bytes

def Lawful (s : St) : Input → Prop
  | .connects | .sends _ => True
  | .arrives fd _ | .finishes fd => Sending s fd
  | .wait batch => s.ctl.Calling ∧ (batch.map Report.fd).Nodup ∧ ∀ r ∈ batch, Due s r
  | .waitFailed => s.ctl.Calling
  | .main a => ∀ r ∈ s.ctl.next?, Answered s r a

instance : (c : Control) → Decidable c.Calling
  | .events [] => isTrue trivial
  | .events (_ :: _) | .adding _ _ | .left => isFalse id

instance (s : St) (r : Report) : Decidable (Due s r) :=
  decidable_of_iff (s.entries r.fd = some true ∧ (0 < s.queued r.fd → has r.events epollIn))
    ⟨fun h => ⟨h.1, h.2⟩, fun h => ⟨h.edge, h.readable⟩⟩

instance (s : St) (fd : Fd) : Decidable (Sending s fd) :=
  inferInstanceAs (Decidable (∃ x, x ∈ s.sockets fd ∧ _))

instance (s : St) (connfd : Fd) : Decidable (Fresh s connfd) :=
  inferInstanceAs (Decidable (_ ∧ _ ∧ _ ∧ s.sockets connfd = none ∧ _))

instance (s : St) (r : Report) (a : Answers) : Decidable (Answered s r a) :=
  inferInstanceAs (Decidable (ite (r.fd = s.listenfd) (a.connfd = -1 ∨ Fresh s a.connfd)
    (ite (r.fd = s.udpfd)
      (∀ bytes, bytes ∈ a.recv →
        ∃ d, d ∈ s.datagrams.head? ∧ bytes = d.bytes.take (udpBufferSize - 1))
      (∀ bytes, bytes ∈ a.recv → bytes.length ≤ tcpBufferSize - 1 ∧
        ∃ x, x ∈ s.sockets r.fd ∧ x.stream.Yields bytes))))

instance (s : St) : (a : Input) → Decidable (Lawful s a)
  | .connects | .sends _ => isTrue trivial
  | .arrives fd _ | .finishes fd => inferInstanceAs (Decidable (Sending s fd))
  | .wait _ => inferInstanceAs (Decidable (_ ∧ _ ∧ _))
  | .waitFailed => inferInstanceAs (Decidable s.ctl.Calling)
  | .main _ => inferInstanceAs (Decidable (∀ r, r ∈ s.ctl.next? → _))

def machine : Machine St Input where
  Start := Start
  Lawful := Lawful
  step := step

instance (s : St) (a : Input) : Decidable (machine.Lawful s a) :=
  inferInstanceAs (Decidable (Lawful s a))

end JiajiaNetwork.TcpUdp
