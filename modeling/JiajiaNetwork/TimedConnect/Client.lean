/- Two ways to connect with a time limit: `unblock_connect` of `test_noblocking_client.c`, which
   waits in `select`, and `timeout_connect` of `timer/test_connect_timeout.c`, which sets
   `SO_SNDTIMEO`. Each opens one socket; the names `sockft`, `sockdf` and `socdfd` of the former,
   and `sockfd` of the latter, are read as that socket. -/
import Mathlib.Data.BitVec
import JiajiaNetwork.Lib.CArray
import JiajiaNetwork.Lib.Descriptors

set_option autoImplicit false
set_option relaxedAutoImplicit false

namespace JiajiaNetwork.TimedConnect

open Lib

abbrev Fd := Int
/-- File status flags, an `int`. -/
abbrev Flags := BitVec 32

def oNonblock : Flags := 0x800
/-- `O_APPEND`, `O_NONBLOCK`, `O_ASYNC`, `O_DIRECT` and `O_NOATIME`, which `F_SETFL` changes. -/
def setflMask : Flags := 0x46c00

def ebadf : Int := 9
def einprogress : Int := 115

def fdSetsize : Int := 1024
abbrev FdSet := CArray fdSetsize Bool

inductive Connection
  | unconnected
  | pending
  | established
  | refused
  deriving DecidableEq

structure Socket where
  flags : Flags
  connection : Connection
  /-- what `SO_ERROR` returns and clears -/
  error : Int
  sndtimeo : Option Int

/-- What the two functions print. -/
inductive Message
  | connectWithServerImmediately
  | unblockConnectNotSupport
  | connectionTimeOut
  | noEventsOnSockfd
  | getSocketOptionFailed
  | connectionFailedAfterSelect (error : Int)
  | connectionReadyAfterSelect
  | connectingTimeout
  | errorOccur
  deriving DecidableEq

structure St where
  sockets : Descriptors Socket
  printed : List Message

/-- How far the connection has come when `select` returns. -/
inductive Progress
  | waits
  | succeeds
  | fails (error : Int)

/-- What the calls return, with `none`, `false` or an `errno` for a failure: `socket` a descriptor
and its flags, `select` the descriptors that are ready, of whatever it is asked for. `writefds` is
what the variable of this name holds before anything is written to it. -/
structure Answers where
  socket : Option (Fd × Flags)
  setsockopt : Bool
  connect : Except Int Unit
  writefds : FdSet
  progress : Progress
  select : Option (Fd → Bool)
  getsockopt : Bool

/-- The value that a function returns with the state behind it; a failed assertion; an access
beyond an array. -/
inductive Outcome
  | returns (ret : Fd) (s : St)
  | aborts
  | fault

namespace St

def say (s : St) (message : Message) : St := { s with printed := s.printed ++ [message] }

def socket (s : St) : Option (Fd × Flags) → Fd × St
  | none => (-1, s)
  | some (fd, flags) =>
    (fd, { s with sockets := s.sockets.install fd ⟨flags, .unconnected, 0, none⟩ })

def close (s : St) (fd : Fd) : St := { s with sockets := s.sockets.close fd }

/-- `fcntl(fd, F_GETFL)`. -/
def getfl (s : St) (fd : Fd) : Flags := (s.sockets fd).elim (-1) Socket.flags

/-- `fcntl(fd, F_SETFL, arg)`. -/
def setfl (s : St) (fd : Fd) (arg : Flags) : St :=
  { s with sockets := s.sockets.alter fd fun x =>
      { x with flags := (arg &&& setflMask) ||| (x.flags &&& ~~~setflMask) } }

def setnoblocking (s : St) (fd : Fd) : Flags × St :=
  let oldOption := s.getfl fd
  let newOption := oldOption ||| oNonblock
  (oldOption, s.setfl fd newOption)

/-- `SO_SNDTIMEO`, which limits the time that `connect` takes. -/
def setsockopt (s : St) (fd : Fd) (time : Int) (succeeds : Bool) : St :=
  if succeeds then
    { s with sockets := s.sockets.alter fd fun x => { x with sndtimeo := some time } }
  else s

def setConnection (s : St) (fd : Fd) (connection : Connection) : St :=
  { s with sockets := s.sockets.alter fd fun x => { x with connection } }

/-- `connect`, with its `errno` when it fails. -/
def connect (s : St) (fd : Fd) (answer : Except Int Unit) : Except Int Unit × St :=
  if (s.sockets fd).isNone then (.error ebadf, s)
  else match answer with
    | .ok _ => (.ok (), s.setConnection fd .established)
    | .error errno =>
      (.error errno, if errno = einprogress then s.setConnection fd .pending else s)

/-- The connection goes on while `select` waits. -/
def proceed (s : St) (fd : Fd) : Progress → St
  | .waits => s
  | .succeeds => s.setConnection fd .established
  | .fails error =>
    { s with sockets := s.sockets.alter fd fun x =>
        { x with connection := .refused, error := error } }

/-- `getsockopt` with `SO_ERROR`. -/
def soError (s : St) (fd : Fd) (succeeds : Bool) : Option Int × St :=
  if succeeds then
    ((s.sockets fd).map Socket.error,
      { s with sockets := s.sockets.alter fd fun x => { x with error := 0 } })
  else (none, s)

end St

/-- `select` for writing among the descriptors below `nfds`, for any time: what it returns, and what
it makes of `writefds`. -/
def select (nfds : Int) (writefds : FdSet) : Option (Fd → Bool) → Int × FdSet
  | none => (-1, writefds)
  | some ready =>
    let found : Fd → Bool := fun fd => writefds.cell fd && ready fd
    (((List.range nfds.toNat).countP fun n => found n),
      ⟨fun fd => if 0 ≤ fd ∧ fd < nfds then found fd else writefds.cell fd⟩)

/-- `unblock_connect` from `getsockopt` on. -/
def checkError (s : St) (sockfd : Fd) (fdopt : Flags) (a : Answers) : Outcome :=
  match s.soError sockfd a.getsockopt with
  | (none, s) => .returns (-1) ((s.say .getSocketOptionFailed).close sockfd)
  | (some error, s) =>
    if error ≠ 0 then
      .returns (-1) ((s.say (.connectionFailedAfterSelect error)).close sockfd)
    else .returns sockfd ((s.say .connectionReadyAfterSelect).setfl sockfd fdopt)

/-- `unblock_connect` behind a `connect` that goes on. `FD_ZERO` clears `readfds`, which nothing
reads, so that `writefds` keeps what was in it. -/
def awaitConnection (s : St) (sockfd : Fd) (fdopt : Flags) (a : Answers) : Outcome :=
  match a.writefds.set sockfd true with
  | none => .fault
  | some writefds =>
    let s := s.proceed sockfd a.progress
    let (ret, writefds) := select (sockfd + 1) writefds a.select
    if ret ≤ 0 then .returns (-1) ((s.say .connectionTimeOut).close sockfd)
    else match writefds.get sockfd with
      | none => .fault
      | some isset =>
        if !isset then .returns (-1) ((s.say .noEventsOnSockfd).close sockfd)
        else checkError s sockfd fdopt a

def unblockConnect (s : St) (a : Answers) : Outcome :=
  let (sockfd, s) := s.socket a.socket
  let (fdopt, s) := s.setnoblocking sockfd
  match s.connect sockfd a.connect with
  | (.ok _, s) => .returns sockfd ((s.say .connectWithServerImmediately).setfl sockfd fdopt)
  | (.error errno, s) =>
    if errno ≠ einprogress then .returns (-1) (s.say .unblockConnectNotSupport)
    else awaitConnection s sockfd fdopt a

def timeoutConnect (s : St) (time : Int) (a : Answers) : Outcome :=
  let (sockfd, s) := s.socket a.socket
  if sockfd < 0 then .aborts
  else
    let s := s.setsockopt sockfd time a.setsockopt
    match s.connect sockfd a.connect with
    | (.ok _, s) => .returns sockfd s
    | (.error errno, s) =>
      if errno = einprogress then .returns (-1) (s.say .connectingTimeout)
      else .returns (-1) (s.say .errorOccur)

/-- -1 is never open, and the kernel hands out a descriptor that is not; `select` reports a socket
for writing only when its connection has been made or has failed; and a failure has an error. -/
structure Answered (s : St) (a : Answers) : Prop where
  invalid : s.sockets (-1) = none
  fresh : ∀ c ∈ a.socket, 0 ≤ c.1 ∧ s.sockets c.1 = none
  settled : a.connect = .error einprogress → ∀ c ∈ a.socket, ∀ ready ∈ a.select,
    ready c.1 = true → a.progress ≠ .waits
  error : ∀ error, a.progress = .fails error → error ≠ 0

end JiajiaNetwork.TimedConnect
