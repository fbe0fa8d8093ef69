/- The poll loops of `test_poll.c` and `chat_room_server.c`, one turn of the `for` loop at a
   time. An index out of bounds, a read of an uninitialised slot and a `close` of a descriptor
   that is not open are faults (`none`). -/
import Mathlib.Data.Int.Range
import JiajiaNetwork.Lib.CArray
import JiajiaNetwork.Lib.Flags
import JiajiaNetwork.Lib.History
import JiajiaNetwork.Lib.Machine

set_option autoImplicit false
set_option relaxedAutoImplicit false

namespace JiajiaNetwork.PollChat

open Lib

abbrev Fd := Int
/-- The C type `short` of the fields `events` and `revents`. -/
abbrev Mask := BitVec 16

def userLimit : Int := 5
def bufferSize : Nat := 64
def fdLimit : Int := 65535

def pollIn : Mask := 0x0001
def pollOut : Mask := 0x0004
def pollErr : Mask := 0x0008
def pollHup : Mask := 0x0010
def pollNval : Mask := 0x0020
def pollRdhup : Mask := 0x2000

abbrev Errno := Nat
def eagain : Errno := 11

structure SockaddrIn where
  sinFamily : BitVec 16
  sinPort : BitVec 16
  sinAddr : BitVec 32
  deriving DecidableEq

/-- `none` is the indeterminate value of a field that was never assigned. -/
structure Pollfd where
  fd : Option Fd
  events : Option Mask
  revents : Option Mask
  deriving DecidableEq

/-- Values of the pointer `write_buf`. A `stray` pointer is neither NULL nor the buffer of an
entry of `users`; the memory that `malloc` and `new` hand out may hold any of the three. -/
inductive WriteBuf
  | null
  | buf (owner : Fd)
  | stray (address : Nat)
  deriving DecidableEq

structure ClientData where
  address : SockaddrIn
  writeBuf : WriteBuf
  buf : List Byte
  deriving DecidableEq

/-- What the program does to sockets and pending pointers. The history is kept for the
statements only: no branch of the program reads it. -/
inductive Event
  | examined (fd : Fd) (revents : Mask)
  | accepted (fd : Fd)
  | refused (fd : Fd) (info : List Byte)
  | closed (fd : Fd)
  | received (fd : Fd) (bytes : List Byte)
  /-- `users[fd].write_buf = users[source].buf` -/
  | assigned (fd source : Fd)
  /-- `users[fd] = users[source]` -/
  | copied (fd source : Fd)
  /-- the POLLOUT branch read `users[fd].write_buf` -/
  | readPending (fd : Fd) (pointer : WriteBuf)
  /-- the byte string the POLLOUT branch passed to `send` -/
  | sent (fd : Fd) (text : List Byte)
  /-- `users[fd].write_buf = NULL` -/
  | reset (fd : Fd)
  deriving DecidableEq

/-- Where the program stands: at the call of `poll`, at the head of the `for` loop over `i`,
or behind the `while` loop. -/
inductive Control
  | polling
  | scanning (i : Int)
  | left
  deriving DecidableEq

structure St where
  ctl : Control
  fds : CArray (userLimit + 1) Pollfd
  users : CArray fdLimit ClientData
  userCounter : Int
  listenfd : Fd
  /-- the descriptors that are open in the process -/
  files : Finset Fd
  log : List Event

/-- What the kernel answers to the calls that one turn of the loop may make. -/
structure Answers where
  accept : Option (Fd × SockaddrIn)
  recv : Except Errno (List Byte)
  /-- the bytes before the first zero at an address outside the buffers of `users` -/
  strayText : List Byte

inductive Input
  | poll (revents : Int → Mask)
  | pollFailed
  | turn (answers : Answers)

inductive Program
  | testPoll
  | chatRoomServer
  deriving DecidableEq

def tooManyUsers : List Byte := "too many users\n".toList.map fun c => UInt8.ofNat c.toNat

namespace St

def emit (s : St) (e : Event) : St := { s with log := s.log ++ [e] }

/-- The end of a turn with the loop index at `i`: `++i`. -/
def next (s : St) (i : Int) : St := { s with ctl := .scanning (i + 1) }

/-- `accept` returned `fd`. -/
def opened (s : St) (fd : Fd) : St :=
  { s with files := insert fd s.files, log := s.log ++ [.accepted fd] }

def close (s : St) (fd : Fd) : Option St :=
  if fd ∈ s.files then some { s with files := s.files.erase fd, log := s.log ++ [.closed fd] }
  else none

/-- `users[fd] = users[source]` -/
def copyUser (s : St) (fd source : Fd) : Option St := do
  let u ← s.users.get source
  let users ← s.users.set fd u
  some { s with users, log := s.log ++ [.copied fd source] }

/-- `fds[i] = fds[user_counter]; i--; user_counter--;` and the `++i` that follows -/
def moveLast (s : St) (i : Int) : Option St := do
  let last ← s.fds.get s.userCounter
  let fds ← s.fds.set i last
  some { s with fds, userCounter := s.userCounter - 1, ctl := .scanning (i - 1 + 1) }

/-- `memset` the buffer of `connfd` and let `recv` write `bytes` into it. -/
def fill (s : St) (connfd : Fd) (bytes : List Byte) : Option St := do
  let u ← s.users.get connfd
  let users ← s.users.set connfd { u with buf := overlay bytes (List.replicate bufferSize 0) }
  some { s with users }

/-- `fds[k].events |= set; fds[k].events |= bit;` -/
def raise (s : St) (k : Int) (set bit : Mask) : Option St := do
  let p ← s.fds.get k
  let events ← p.events
  let fds ← s.fds.set k { p with events := some (events ||| set ||| bit) }
  some { s with fds }

/-- `users[fd].write_buf = users[connfd].buf` -/
def pointTo (s : St) (fd connfd : Fd) : Option St := do
  let u ← s.users.get fd
  let users ← s.users.set fd { u with writeBuf := .buf connfd }
  some { s with users, log := s.log ++ [.assigned fd connfd] }

/-- The NUL-terminated string at a pointer, when it lies in a buffer of `users`. -/
def stringAt (s : St) : WriteBuf → Option (List Byte)
  | .buf owner => cString (s.users.cell owner).buf
  | _ => none

end St

/-- The branch of a readable listening socket. -/
def acceptBranch (s : St) (i : Int) (a : Answers) : Option St :=
  match a.accept with
  | none => some (s.next i)
  | some (connfd, clientAddress) =>
    let s := s.opened connfd
    if s.userCounter ≥ userLimit then do
      let s ← (s.emit (.refused connfd tooManyUsers)).close connfd
      some (s.next i)
    else do
      let userCounter := s.userCounter + 1
      let u ← s.users.get connfd
      let users ← s.users.set connfd { u with address := clientAddress }
      let fds ← s.fds.set userCounter ⟨some connfd, some (pollIn ||| pollRdhup ||| pollErr), some 0⟩
      some ({ s with userCounter, users, fds }.next i)

/-- The removal statements of the POLLRDHUP branch. -/
def removeHungUp (s : St) (i : Int) : Option St := do
  let fd ← (← s.fds.get i).fd
  let lastFd ← (← s.fds.get s.userCounter).fd
  let s ← s.copyUser fd lastFd
  let s ← s.close fd
  s.moveLast i

/-- The removal statements behind a failed `recv`, which close before they copy. -/
def removeFailed (s : St) (i : Int) (connfd : Fd) : Option St := do
  let s ← s.close connfd
  let fd ← (← s.fds.get i).fd
  let lastFd ← (← s.fds.get s.userCounter).fd
  let s ← s.copyUser fd lastFd
  s.moveLast i

/-- One round of the broadcast loop; `slot` is the entry of `fds` whose mask it edits. -/
def broadcastRound (slot : Int) (connfd : Fd) (j : Int) (s : St) : Option St := do
  let fd ← (← s.fds.get j).fd
  if fd = connfd then some s
  else do
    let s ← s.raise slot (~~~pollIn) pollOut
    s.pointTo fd connfd

/-- `test_poll.c` edits the mask of every recipient `j <= user_counter`; `chat_room_server.c`
stops at `j < user_counter` and edits the mask of the sender's slot `i` instead. -/
def broadcast : Program → Int → Fd → St → Option St
  | .testPoll, _, connfd, s =>
    forLoop (fun j => broadcastRound j connfd j) s.userCounter.toNat 1 s
  | .chatRoomServer, i, connfd, s =>
    forLoop (broadcastRound i connfd) (s.userCounter - 1).toNat 1 s

/-- The POLLIN branch of a client. -/
def readBranch (v : Program) (s : St) (i : Int) (connfd : Fd) (a : Answers) : Option St :=
  match a.recv with
  | .error errno => do
    let s ← s.fill connfd []
    if errno = eagain then some (s.next i) else removeFailed s i connfd
  | .ok [] => do
    let s ← s.fill connfd []
    some (s.next i)
  | .ok bytes => do
    let s ← s.fill connfd bytes
    let s ← broadcast v i connfd (s.emit (.received connfd bytes))
    some (s.next i)

/-- The POLLOUT branch. -/
def writeBranch (s : St) (i : Int) (connfd : Fd) (a : Answers) : Option St := do
  let u ← s.users.get connfd
  let s := s.emit (.readPending connfd u.writeBuf)
  if u.writeBuf = .null then some (s.next i)
  else do
    let text := (s.stringAt u.writeBuf).getD a.strayText
    let users ← s.users.set connfd { u with writeBuf := .null }
    let s := ({ s with users }.emit (.sent connfd text)).emit (.reset connfd)
    let s ← s.raise i (~~~pollOut) pollIn
    some (s.next i)

/-- The `else if` chain of the loop body. -/
def dispatch (v : Program) (s : St) (i : Int) (fd : Fd) (revents : Mask) (a : Answers) :
    Option St :=
  if fd = s.listenfd ∧ has revents pollIn then acceptBranch s i a
  else if has revents pollErr then some (s.next i)
  else if has revents pollRdhup then removeHungUp s i
  else if has revents pollIn then readBranch v s i fd a
  else if has revents pollOut then writeBranch s i fd a
  else some (s.next i)

/-- One turn of `for( int i = 0; i < user_counter + 1; ++i )`. -/
def body (v : Program) (s : St) (i : Int) (a : Answers) : Option St := do
  let p ← s.fds.get i
  let fd ← p.fd
  let revents ← p.revents
  dispatch v (s.emit (.examined fd revents)) i fd revents a

/-- `poll` reads the first `user_counter + 1` slots and writes their `revents`. -/
def pollReturns (s : St) (revents : Int → Mask) : Option St := do
  let s ← forLoop (fun k s => do
    let p ← s.fds.get k
    let _ ← p.fd
    let _ ← p.events
    let fds ← s.fds.set k { p with revents := some (revents k) }
    some { s with fds }) (s.userCounter + 1).toNat 0 s
  some { s with ctl := .scanning 0 }

def step (v : Program) (s : St) : Input → Option St
  | .poll revents => pollReturns s revents
  | .pollFailed => some { s with ctl := .left }
  | .turn a =>
    match s.ctl with
    | .scanning i => if i < s.userCounter + 1 then body v s i a else some { s with ctl := .polling }
    | _ => none

/-! The state at the first call of `poll`. -/

def listenEvents : Program → Mask
  | .testPoll => pollIn ||| pollErr
  | .chatRoomServer => pollIn ||| pollErr ||| pollOut

/-- The initialising loop leaves `revents` alone, and in `chat_room_server.c` it stops before
the last slot. -/
def initialSlot (v : Program) (listenfd : Fd) (k : Int) : Pollfd :=
  let bound := match v with
    | .testPoll => userLimit
    | .chatRoomServer => userLimit - 1
  if k = 0 then ⟨some listenfd, some (listenEvents v), some 0⟩
  else if 1 ≤ k ∧ k ≤ bound then ⟨some (-1), some 0, none⟩
  else ⟨none, none, none⟩

def initial (v : Program) (listenfd : Fd) (files : Finset Fd)
    (memory : CArray fdLimit ClientData) : St where
  ctl := .polling
  fds := ⟨initialSlot v listenfd⟩
  users := memory
  userCounter := 0
  listenfd := listenfd
  files := files
  log := []

/-! What the kernel promises. -/

/-- `revents` of a slot: requested bits and the three that need no request. A listening socket
is never writable and its peer never hangs up. -/
def Reported (s : St) (k : Int) (revents : Mask) : Prop :=
  Within revents ((s.fds.cell k).events.getD 0 ||| (pollErr ||| pollHup ||| pollNval)) ∧
  ((s.fds.cell k).fd = some s.listenfd → ¬ has revents pollOut ∧ ¬ has revents pollRdhup)

/-- A descriptor that `accept` may return. -/
def Fresh (s : St) (connfd : Fd) : Prop := connfd ∉ s.files ∧ 0 ≤ connfd ∧ connfd < fdLimit

def Control.isScanning : Control → Bool
  | .scanning _ => true
  | _ => false

def Lawful (s : St) : Input → Prop
  | .poll revents =>
    s.ctl = .polling ∧ ∀ k, 0 ≤ k → k ≤ s.userCounter → Reported s k (revents k)
  | .pollFailed => s.ctl = .polling
  | .turn a =>
    s.ctl.isScanning = true ∧ (∀ answer ∈ a.accept, Fresh s answer.1) ∧
      ∀ bytes ∈ a.recv.toOption, bytes.length ≤ bufferSize - 1

instance (s : St) (k : Int) (revents : Mask) : Decidable (Reported s k revents) :=
  inferInstanceAs (Decidable (_ ∧ _))

instance (s : St) (connfd : Fd) : Decidable (Fresh s connfd) :=
  inferInstanceAs (Decidable (_ ∧ _))

instance lawfulDecidable (s : St) : (a : Input) → Decidable (Lawful s a)
  | .poll _ => inferInstanceAs (Decidable (_ ∧ _))
  | .pollFailed => inferInstanceAs (Decidable (_ = _))
  | .turn _ => inferInstanceAs (Decidable (_ ∧ _))

/-- The allocation of `users` succeeded and left its memory as it was. -/
def Start (v : Program) (s : St) : Prop :=
  ∃ listenfd files memory, listenfd ∈ files ∧
    (∀ fd, (memory.cell fd).buf.length = bufferSize) ∧ s = initial v listenfd files memory

def machine (v : Program) : Machine St Input where
  Start := Start v
  Lawful := Lawful
  step := step v

instance (v : Program) (s : St) (a : Input) : Decidable ((machine v).Lawful s a) :=
  lawfulDecidable s a

end JiajiaNetwork.PollChat
