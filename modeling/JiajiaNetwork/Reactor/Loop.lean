/- The event loop of `test_epoll_reactor.c`: one check of the timeout sweep, one call of
   `epoll_wait` or one `if` of the dispatch loop at a time. A call on a descriptor that is not
   open and a call through a null pointer are faults (`none`). -/
import Mathlib.Data.Finset.Erase
import JiajiaNetwork.Lib.CArray
import JiajiaNetwork.Lib.Flags
import JiajiaNetwork.Lib.Interest
import JiajiaNetwork.Lib.Lifetime
import JiajiaNetwork.Lib.Machine

set_option autoImplicit false
set_option relaxedAutoImplicit false

namespace JiajiaNetwork.Reactor

open Lib

abbrev Fd := Int
abbrev Mask := BitVec 32

def maxEvents : Int := 1024
def buflen : Nat := 128
/-- The rounds of one timeout sweep and the idle time it tolerates. -/
def sweepRounds : Int := 100
def idleLimit : Int := 60

def epollIn : Mask := 0x001
def epollOut : Mask := 0x004
def epollErr : Mask := 0x008
def epollHup : Mask := 0x010

inductive Callback
  | acceptconn
  | recvdata
  | senddata
  deriving DecidableEq

/-- `struct myevent_s`. The pointer `arg` leads to an entry of `g_events`, or is NULL. -/
structure Myevent where
  fd : Fd
  events : Mask
  arg : Option Int
  callBack : Option Callback
  status : Int
  buf : List Byte
  len : BitVec 32
  lastActive : Int
  deriving DecidableEq

/-- A result of `epoll_wait`: the ready descriptor, its events, and the entry of `g_events`
that `data.ptr` leads to. The program does not see the descriptor. -/
structure Report where
  fd : Fd
  events : Mask
  ptr : Int
  deriving DecidableEq

/-- What the program does, kept for the statements only. -/
inductive Event
  /-- `epoll_wait` returned these reports; with each the callback its entry held then -/
  | waited (batch : List (Report × Option Callback))
  | invoked (slot : Int) (callBack : Callback) (fd : Fd)
  | accepted (fd : Fd)
  | closed (fd : Fd)
  /-- `recv` on `fd`: the bytes it returned, none of them at the end of file, or an error -/
  | recv (fd : Fd) (answer : Option (List Byte))
  /-- `send` on `fd`: the bytes it was given and the number it accepted, or an error -/
  | send (fd : Fd) (given : List Byte) (answer : Option Nat)
  /-- a write outside the buffer of the slot -/
  | spilled (slot : Int)
  deriving DecidableEq

def Event.life : Event → Life Fd
  | .accepted fd => .opens fd
  | .closed fd => .closes fd
  | _ => .neither

/-- Where the program stands: at the head of the `while` loop, in the sweep, at the call of
`epoll_wait`, before the first or the second `if` of the dispatch loop, or behind the loops. -/
inductive Control
  | top
  | sweeping (i : Int) (now : Int)
  | waiting
  | handling (batch : List Report)
  | second (report : Report) (rest : List Report)
  | exited
  deriving DecidableEq

structure St where
  ctl : Control
  gEvents : CArray (maxEvents + 1) Myevent
  checkpos : Int
  /-- the socket that `initlistensocket` made -/
  lfd : Fd
  /-- the descriptors that are open in the process, and the interest list of `g_efd` -/
  files : Finset Fd
  interest : Interest Fd Mask Int
  log : List Event

/-- What the kernel answers to the calls that one callback may make. -/
structure Answers where
  accept : Option Fd
  /-- whether `fcntl` succeeds -/
  fcntl : Bool
  recv : Option (List Byte)
  /-- the number of bytes that the socket has room for, unless `send` fails -/
  send : Option Nat
  time : Int

inductive Input
  | clock (now : Int)
  | check
  | wait (batch : List Report)
  | waitFailed
  | turn (answers : Answers)

namespace St

def emit (s : St) (e : Event) : St := { s with log := s.log ++ [e] }

def opened (s : St) (fd : Fd) : St :=
  { s with files := insert fd s.files, log := s.log ++ [.accepted fd] }

/-- `close` also takes the descriptor off the interest list. -/
def close (s : St) (fd : Fd) : Option St :=
  if fd ∈ s.files then
    some { s with
      files := s.files.erase fd, interest := s.interest.del fd, log := s.log ++ [.closed fd] }
  else none

def eventset (s : St) (k : Int) (fd : Fd) (callBack : Callback) (arg : Int) (time : Int) :
    Option St := do
  let ev ← s.gEvents.get k
  let gEvents ← s.gEvents.set k { ev with
    fd, callBack := some callBack, events := 0, arg := some arg, status := 0, lastActive := time }
  some { s with gEvents }

/-- `EPOLL_CTL_MOD` for an entry with status 1, else `EPOLL_CTL_ADD`, which the kernel turns
down for a descriptor that is not open. -/
def eventadd (s : St) (events : Mask) (k : Int) : Option St := do
  let ev ← s.gEvents.get k
  if ev.status = 1 then do
    let gEvents ← s.gEvents.set k { ev with events }
    some { s with gEvents, interest := s.interest.mod ev.fd events k }
  else do
    let gEvents ← s.gEvents.set k { ev with events, status := 1 }
    some { s with
      gEvents
      interest := if ev.fd ∈ s.files then s.interest.add ev.fd events k else s.interest }

def eventdel (s : St) (k : Int) : Option St := do
  let ev ← s.gEvents.get k
  if ev.status ≠ 1 then some s
  else do
    let gEvents ← s.gEvents.set k { ev with status := 0 }
    some { s with gEvents, interest := s.interest.del ev.fd }

/-- `ev->len = len; ev->buf[len] = '\0';` The field `len` lies right behind `buf`, so a zero
written to `buf[BUFLEN]` clears its low byte. -/
def storeLen (s : St) (k : Int) (len : Nat) : Option St := do
  let ev ← s.gEvents.get k
  if len < buflen then do
    let gEvents ← s.gEvents.set k { ev with len := BitVec.ofNat 32 len, buf := ev.buf.set len 0 }
    some { s with gEvents }
  else if len = buflen then do
    let gEvents ← s.gEvents.set k { ev with len := BitVec.ofNat 32 len &&& ~~~0xff }
    some ({ s with gEvents }.emit (.spilled k))
  else none

end St

/-- `for (i = 0; i < MAX_EVENTS; i++) if (g_events[i].status == 0) break;` -/
def freeSlot (s : St) : Int :=
  firstIndex (fun i => (s.gEvents.cell i).status = 0) maxEvents.toNat 0

def acceptconn (s : St) (a : Answers) : Option St :=
  match a.accept with
  | none => some s
  | some cfd => do
    let s := s.opened cfd
    let i := freeSlot s
    let s ←
      if i = maxEvents then some s
      else if a.fcntl = false then some s
      else do
        let s ← s.eventset i cfd .recvdata i a.time
        s.eventadd epollIn i
    -- the report of the new connection reads `g_events[i].last_active`
    let _ ← s.gEvents.get i
    some s

def recvdata (s : St) (fd : Fd) (arg : Int) (a : Answers) : Option St :=
  if fd ∉ s.files then none
  else do
    let ev ← s.gEvents.get arg
    let s := s.emit (.recv fd a.recv)
    match a.recv with
    | none | some [] => do
      let s ← s.eventdel arg
      let ev ← s.gEvents.get arg
      s.close ev.fd
    | some bytes => do
      let gEvents ← s.gEvents.set arg { ev with buf := overlay bytes ev.buf }
      let s ← { s with gEvents }.eventdel arg
      let s ← s.storeLen arg bytes.length
      let s ← s.eventset arg fd .senddata arg a.time
      s.eventadd epollOut arg

/-- The `ev->len` bytes of `ev->buf` that `send` is given. -/
def Myevent.outgoing (ev : Myevent) : List Byte := ev.buf.take ev.len.toNat

/-- What `send` returns when it is given `bytes`. -/
def Answers.taken (a : Answers) (bytes : List Byte) : Option Nat :=
  a.send.map fun room => min room bytes.length

def senddata (s : St) (fd : Fd) (arg : Int) (a : Answers) : Option St :=
  if fd ∉ s.files then none
  else do
    let ev ← s.gEvents.get arg
    let len := a.taken ev.outgoing
    let s ← (s.emit (.send fd ev.outgoing len)).eventdel arg
    if 0 < len.getD 0 then do
      let s ← s.eventset arg fd .recvdata arg a.time
      s.eventadd epollIn arg
    else do
      let ev ← s.gEvents.get arg
      s.close ev.fd

/-- `ev->call_back(ev->fd, events[i].events, ev->arg)` -/
def callBack (s : St) (k : Int) (a : Answers) : Option St := do
  let ev ← s.gEvents.get k
  let f ← ev.callBack
  let arg ← ev.arg
  let s := s.emit (.invoked k f ev.fd)
  match f with
  | .acceptconn => acceptconn s a
  | .recvdata => recvdata s ev.fd arg a
  | .senddata => senddata s ev.fd arg a

/-- The test that guards a callback: `(events[i].events & bit) && (ev->events & bit)` -/
def Selects (s : St) (r : Report) (bit : Mask) : Prop :=
  has r.events bit ∧ has (s.gEvents.cell r.ptr).events bit

instance (s : St) (r : Report) (bit : Mask) : Decidable (Selects s r bit) :=
  inferInstanceAs (Decidable (_ ∧ _))

def test (s : St) (r : Report) (bit : Mask) (a : Answers) : Option St := do
  let _ ← s.gEvents.get r.ptr
  if Selects s r bit then callBack s r.ptr a else some s

/-- One round of the timeout sweep. -/
def sweepRound (s : St) (now : Int) : Option St := do
  let checkpos := if s.checkpos = maxEvents then 0 else s.checkpos
  let s := { s with checkpos }
  let ev ← s.gEvents.get checkpos
  let s ←
    if ev.status ≠ 1 then some s
    else if now - ev.lastActive ≥ idleLimit then do
      let s ← s.close ev.fd
      s.eventdel checkpos
    else some s
  some { s with checkpos := s.checkpos + 1 }

def step (s : St) : Input → Option St
  | .clock now => some { s with ctl := .sweeping 0 now }
  | .check =>
    match s.ctl with
    | .sweeping i now =>
      if i < sweepRounds then do
        let s ← sweepRound s now
        some { s with ctl := .sweeping (i + 1) now }
      else some { s with ctl := .waiting }
    | _ => none
  | .wait batch =>
    some ({ s with ctl := .handling batch }.emit
      (.waited (batch.map fun r => (r, (s.gEvents.cell r.ptr).callBack))))
  | .waitFailed => some { s with ctl := .exited }
  | .turn a =>
    match s.ctl with
    | .handling [] => some { s with ctl := .top }
    | .handling (r :: rest) => do
      let s ← test s r epollIn a
      some { s with ctl := .second r rest }
    | .second r rest => do
      let s ← test s r epollOut a
      some { s with ctl := .handling rest }
    | _ => none

/-! The state at the head of the `while` loop. -/

def blank : Myevent :=
  { fd := 0, events := 0, arg := none, callBack := none, status := 0
    buf := List.replicate buflen 0, len := 0, lastActive := 0 }

/-- What `initlistensocket` leaves behind. -/
def initial (lfd : Fd) (files : Finset Fd) (time : Int) : Option St := do
  let s : St :=
    { ctl := .top, gEvents := ⟨fun _ => blank⟩, checkpos := 0, lfd, files, interest := .empty
      log := [] }
  let s ← s.eventset maxEvents lfd .acceptconn maxEvents time
  s.eventadd epollIn maxEvents

/-! What the kernel promises. -/

/-- A registered descriptor is reported with the data given at its registration and with bits
that were asked for, or an error or a hang-up. -/
def Reported (s : St) (r : Report) : Prop :=
  match s.interest.entry r.fd with
  | some (mask, ptr) => r.ptr = ptr ∧ Within r.events (mask ||| (epollErr ||| epollHup))
  | none => False

def Control.isDispatching : Control → Bool
  | .handling _ | .second _ _ => true
  | _ => false

def Control.isSweeping : Control → Bool
  | .sweeping _ _ => true
  | _ => false

/-- The answers of one callback: `accept` returns a descriptor that is not open, `recv` at
most as much as it was asked for, and a `send` that does not fail accepts something. -/
structure Allowed (s : St) (a : Answers) : Prop where
  accept : ∀ fd ∈ a.accept, fd ∉ s.files ∧ 0 ≤ fd
  recv : ∀ bytes ∈ a.recv, bytes.length ≤ buflen
  send : ∀ room ∈ a.send, 0 < room

def Lawful (s : St) : Input → Prop
  | .clock _ => s.ctl = .top
  | .check => s.ctl.isSweeping = true
  | .wait batch => s.ctl = .waiting ∧ (batch.map Report.ptr).Nodup ∧ ∀ r ∈ batch, Reported s r
  | .waitFailed => s.ctl = .waiting
  | .turn a => s.ctl.isDispatching = true ∧ Allowed s a

instance (s : St) (r : Report) : Decidable (Reported s r) := by
  unfold Reported
  split <;> infer_instance

instance (s : St) (a : Answers) : Decidable (Allowed s a) :=
  decidable_of_iff ((∀ fd ∈ a.accept, fd ∉ s.files ∧ 0 ≤ fd) ∧
    (∀ bytes ∈ a.recv, bytes.length ≤ buflen) ∧ ∀ room ∈ a.send, 0 < room)
    ⟨fun h => ⟨h.1, h.2.1, h.2.2⟩, fun h => ⟨h.accept, h.recv, h.send⟩⟩

instance lawfulDecidable (s : St) : (a : Input) → Decidable (Lawful s a)
  | .clock _ => inferInstanceAs (Decidable (_ = _))
  | .check => inferInstanceAs (Decidable (_ = _))
  | .wait _ => inferInstanceAs (Decidable (_ ∧ _))
  | .waitFailed => inferInstanceAs (Decidable (_ = _))
  | .turn _ => inferInstanceAs (Decidable (_ ∧ _))

def Start (s : St) : Prop := ∃ lfd files time, lfd ∈ files ∧ initial lfd files time = some s

def machine : Machine St Input where
  Start := Start
  Lawful := Lawful
  step := step

instance (s : St) (a : Input) : Decidable (machine.Lawful s a) := lawfulDecidable s a

end JiajiaNetwork.Reactor
