/- `run_child` of `shmget_chat_room_server.c`: a child process that reads what its client sends into
   its segment of the shared memory, tells the parent, and is to send its client the segments that
   the parent names. -/
import JiajiaNetwork.Lib.Channel
import JiajiaNetwork.Lib.Flags
import JiajiaNetwork.Lib.Isolation
import JiajiaNetwork.Lib.Slice

set_option autoImplicit false
set_option relaxedAutoImplicit false

namespace JiajiaNetwork.Relay

open Lib

abbrev Fd := Int
/-- The field `events` of `epoll_event`. -/
abbrev Mask := BitVec 32

def epollIn : Mask := 0x001

def bufferSize : Nat := 1024

def eagain : Int := 11

structure Report where
  fd : Fd
  events : Mask
  deriving DecidableEq

/-- At the test of `stop_child`; in `epoll_wait`; before the next of the events that are left;
behind the loop. -/
inductive Control
  | testing
  | waiting
  | events (rest : List Report)
  | left
  deriving DecidableEq

/-- The event that the next step handles. -/
def Control.next? : Control → Option Report
  | .events rest => rest.head?
  | _ => none

structure Child where
  ctl : Control
  stopChild : Bool
  idx : Int
  connfd : Fd
  pipefd : Fd
  /-- what the client sends, and what the parent writes -/
  client : Channel Byte
  pipe : Channel Int
  /-- whether an edge is pending for the descriptor -/
  edges : Fd → Bool
  /-- what was written to the parent -/
  announced : List Int
  /-- the segments sent to the client, by number -/
  forwarded : List (Int × List Byte)

/-- What `recv` returns, on the socket and on the pipe: a failure, with its `errno`, or what was
read; and whole numbers on the pipe. -/
structure Answers where
  recv : Option (List Byte)
  number : Option (List Int)
  errno : Int

inductive Input
  | sends (bytes : List Byte)
  | finishes
  | writes (client : Int)
  | hangsUp
  /-- `SIGTERM` -/
  | term
  | wait (batch : List Report)
  | waitInterrupted
  | waitFailed
  | main (answers : Answers)

/-- `share_mem`. -/
abbrev Memory (n : Int) := CArray n Byte

def segment {n : Int} (mem : Memory n) (idx : Int) : Option (List Byte) :=
  mem.slice (idx * bufferSize) bufferSize

section Steps

variable {n : Int}

/-- The branch for the client: the segment is cleared, then read into. -/
def clientBranch (c : Child) (mem : Memory n) (rest : List Report) (a : Answers) :
    Option (Child × Memory n) :=
  (mem.blit (c.idx * bufferSize) (List.replicate bufferSize 0)).bind fun cleared =>
    match a.recv with
    | none =>
      some ({ c with
        ctl := .events rest
        stopChild := c.stopChild || a.errno != eagain }, cleared)
    | some bytes =>
      if bytes.length = 0 then some ({ c with ctl := .events rest, stopChild := true }, cleared)
      else (cleared.blit (c.idx * bufferSize) bytes).map fun filled =>
        ({ c with
          ctl := .events rest
          client := c.client.consume bytes.length
          announced := c.announced ++ [c.idx] }, filled)

def pipeBranch (c : Child) (mem : Memory n) (rest : List Report) (a : Answers) :
    Option (Child × Memory n) :=
  match a.number with
  | none =>
    some ({ c with
      ctl := .events rest
      stopChild := c.stopChild || a.errno != eagain }, mem)
  | some [] => some ({ c with ctl := .events rest, stopChild := true }, mem)
  | some (client :: _) =>
    (segment mem client).map fun bytes =>
      ({ c with
        ctl := .events rest
        pipe := c.pipe.consume 1
        forwarded := c.forwarded ++ [(client, bytes)] }, mem)

/-- The body of the `for` loop. The first condition assigns `connfd` to `sockfd`, so that it holds
for every descriptor and the second one is false. -/
def body (c : Child) (mem : Memory n) (r : Report) (rest : List Report) (a : Answers) :
    Option (Child × Memory n) :=
  let sockfd := c.connfd
  if sockfd ≠ 0 ∧ has r.events epollIn then clientBranch c mem rest a
  else if sockfd = c.pipefd ∧ has r.events epollIn then pipeBranch c mem rest a
  else some ({ c with ctl := .events rest }, mem)

def mainStep (c : Child) (mem : Memory n) (a : Answers) : Option (Child × Memory n) :=
  match c.ctl with
  | .testing => some ({ c with ctl := if c.stopChild then .left else .waiting }, mem)
  | .events [] => some ({ c with ctl := .testing }, mem)
  | .events (r :: rest) => body c mem r rest a
  | .waiting | .left => none

/-- An arrival raises an edge. -/
def Child.raise (c : Child) (fd : Fd) : Child :=
  { c with edges := Function.update c.edges fd true }

/-- `child_term_handler`, which makes `epoll_wait` return -1 with `EINTR`. -/
def Child.termHandler (c : Child) : Child :=
  { c with
    stopChild := true
    ctl := if c.ctl = .waiting then .testing else c.ctl }

def step (c : Child) (mem : Memory n) : Input → Option (Child × Memory n)
  | .sends bytes => some ({ c.raise c.connfd with client := c.client.send bytes }, mem)
  | .finishes => some ({ c.raise c.connfd with client := c.client.finish }, mem)
  | .writes client => some ({ c.raise c.pipefd with pipe := c.pipe.send [client] }, mem)
  | .hangsUp => some ({ c.raise c.pipefd with pipe := c.pipe.finish }, mem)
  | .term => some (c.termHandler, mem)
  | .wait batch =>
    some ({ c with
      ctl := .events batch
      edges := fun fd => c.edges fd && decide (fd ∉ batch.map Report.fd) }, mem)
  | .waitInterrupted => some ({ c with ctl := .testing }, mem)
  | .waitFailed => some ({ c with ctl := .left }, mem)
  | .main a => mainStep c mem a

end Steps

def boot (idx : Int) (connfd pipefd : Fd) : Child where
  ctl := .testing
  stopChild := false
  idx := idx
  connfd := connfd
  pipefd := pipefd
  client := .empty
  pipe := .empty
  edges _ := false
  announced := []
  forwarded := []

/-- There is something to be read from a descriptor, the end included. -/
def Child.readable (c : Child) (fd : Fd) : Bool :=
  if fd = c.connfd then decide (c.client.unread ≠ []) || c.client.finished
  else decide (c.pipe.unread ≠ []) || c.pipe.finished

/-- An event is returned for a pending edge of one of the two descriptors. -/
structure Due (c : Child) (r : Report) : Prop where
  known : r.fd = c.connfd ∨ r.fd = c.pipefd
  edge : c.edges r.fd = true
  readable : has r.events epollIn ↔ c.readable r.fd = true

/-- What `recv` may return on the socket, and on the pipe. -/
structure Answered (c : Child) (a : Answers) : Prop where
  recv : ∀ bytes ∈ a.recv, bytes.length ≤ bufferSize - 1 ∧ c.client.Yields bytes
  number : ∀ numbers ∈ a.number, numbers.length ≤ 1 ∧ c.pipe.Yields numbers

def Lawful (c : Child) : Input → Prop
  | .sends _ | .finishes => c.client.finished = false
  | .writes _ | .hangsUp => c.pipe.finished = false
  | .term => True
  | .wait batch => c.ctl = .waiting ∧ (batch.map Report.fd).Nodup ∧ ∀ r ∈ batch, Due c r
  | .waitInterrupted | .waitFailed => c.ctl = .waiting
  | .main a => Answered c a

instance (c : Child) (r : Report) : Decidable (Due c r) :=
  decidable_of_iff ((r.fd = c.connfd ∨ r.fd = c.pipefd) ∧ c.edges r.fd = true ∧
      (has r.events epollIn ↔ c.readable r.fd = true))
    ⟨fun ⟨known, edge, readable⟩ => ⟨known, edge, readable⟩,
      fun due => ⟨due.known, due.edge, due.readable⟩⟩

instance (c : Child) (a : Answers) : Decidable (Answered c a) :=
  decidable_of_iff
    ((∀ bytes, bytes ∈ a.recv → bytes.length ≤ bufferSize - 1 ∧ c.client.Yields bytes) ∧
      ∀ numbers, numbers ∈ a.number → numbers.length ≤ 1 ∧ c.pipe.Yields numbers)
    ⟨fun ⟨recv, number⟩ => ⟨recv, number⟩, fun answered => ⟨answered.recv, answered.number⟩⟩

instance (c : Child) : (a : Input) → Decidable (Lawful c a)
  | .sends _ | .finishes => inferInstanceAs (Decidable (c.client.finished = false))
  | .writes _ | .hangsUp => inferInstanceAs (Decidable (c.pipe.finished = false))
  | .term => isTrue trivial
  | .wait _ => inferInstanceAs (Decidable (c.ctl = .waiting ∧ _ ∧ _))
  | .waitInterrupted | .waitFailed => inferInstanceAs (Decidable (c.ctl = .waiting))
  | .main a => inferInstanceAs (Decidable (Answered c a))

/-- A child over a memory of `n` bytes. -/
def component (n : Int) : Component Child (Memory n) Input where
  Lawful := Lawful
  step := step

instance (n : Int) (c : Child) (a : Input) : Decidable ((component n).Lawful c a) :=
  inferInstanceAs (Decidable (Lawful c a))

end JiajiaNetwork.Relay
