/- The loop of `chat_room_client.c` between the server and the standard input: one call of
   `poll`, one `if` of the loop body or one `splice` at a time. Bytes of the server and its
   close arrive between any two steps. -/
import JiajiaNetwork.Lib.CArray
import JiajiaNetwork.Lib.Channel
import JiajiaNetwork.Lib.Flags
import JiajiaNetwork.Lib.Machine

set_option autoImplicit false
set_option relaxedAutoImplicit false

namespace JiajiaNetwork.ChatClient

open Lib

/-- The C type `short` of the fields `events` and `revents`. -/
abbrev Mask := BitVec 16

def pollIn : Mask := 0x0001
def pollRdhup : Mask := 0x2000

def bufferSize : Nat := 64
/-- The most that one `splice` moves. -/
def spliceLimit : Nat := 32768

/-- Where the program stands: at the call of `poll`, before the `if` of the socket or of the
standard input, between the two calls of `splice`, or behind the loop, which it leaves when the
server closed or when `poll` failed. -/
inductive Control
  | polling
  | socket (stdin sockfd : Mask)
  | input (stdin : Mask)
  | splicing
  | hungUp
  | failed
  deriving DecidableEq

structure St where
  ctl : Control
  /-- what the server sent and what of it `recv` returned -/
  stream : Channel Byte
  /-- the texts that `printf` wrote for the messages -/
  printed : List (List Byte)
  /-- the bytes taken from the standard input, those of them in the pipe and those on `sockfd` -/
  typed : List Byte
  pipe : List Byte
  output : List Byte

/-- What the kernel answers to the call that one step may make. A failed call has no answer. -/
structure Answers where
  recv : Option (List Byte)
  /-- the bytes that the first `splice` moves, none of them at the end of the input -/
  spliceIn : Option (List Byte)
  /-- the number of bytes that the second `splice` moves -/
  spliceOut : Option Nat

inductive Input
  | arrives (bytes : List Byte)
  | finishes
  | poll (stdin sockfd : Mask)
  | pollFailed
  | turn (answers : Answers)

/-- `memset`, `recv` and `printf("%s\\n", read_buf)`. A buffer without a zero byte would be read
beyond its end. -/
def socketBranch (s : St) (stdin sockfd : Mask) (a : Answers) : Option St :=
  if has sockfd pollRdhup then some { s with ctl := .hungUp }
  else if has sockfd pollIn then do
    let bytes := a.recv.getD []
    let readBuf := overlay bytes (List.replicate bufferSize 0)
    let text ← cString readBuf
    some { s with
      ctl := .input stdin
      stream := s.stream.consume bytes.length
      printed := s.printed ++ [text] }
  else some { s with ctl := .input stdin }

/-- The first `splice`, from the standard input to the pipe. -/
def inputBranch (s : St) (stdin : Mask) (a : Answers) : St :=
  if has stdin pollIn then
    { s with
      ctl := .splicing
      typed := s.typed ++ a.spliceIn.getD []
      pipe := s.pipe ++ a.spliceIn.getD [] }
  else { s with ctl := .polling }

/-- The second `splice`, from the pipe to the socket. -/
def spliceOut (s : St) (a : Answers) : St :=
  { s with
    ctl := .polling
    pipe := s.pipe.drop (a.spliceOut.getD 0)
    output := s.output ++ s.pipe.take (a.spliceOut.getD 0) }

def step (s : St) : Input → Option St
  | .arrives bytes => some { s with stream := s.stream.send bytes }
  | .finishes => some { s with stream := s.stream.finish }
  | .poll stdin sockfd => some { s with ctl := .socket stdin sockfd }
  | .pollFailed => some { s with ctl := .failed }
  | .turn a =>
    match s.ctl with
    | .socket stdin sockfd => socketBranch s stdin sockfd a
    | .input stdin => some (inputBranch s stdin a)
    | .splicing => some (spliceOut s a)
    | _ => none

def initial : St where
  ctl := .polling
  stream := .empty
  printed := []
  typed := []
  pipe := []
  output := []

/-- `poll`, asked for POLLIN and POLLRDHUP on `sockfd`, reports what is there. -/
structure Truthful (x : Channel Byte) (revents : Mask) : Prop where
  readable : x.unread ≠ [] → has revents pollIn
  finished : x.finished = true → has revents pollRdhup
  hangup : has revents pollRdhup → x.finished = true

/-- The answer to the call at hand. A `splice` from an empty pipe blocks, because the client
itself holds the write end. -/
def Answered (s : St) (a : Answers) : Prop :=
  match s.ctl with
  | .socket _ _ => ∀ bytes ∈ a.recv, bytes.length ≤ bufferSize - 1 ∧ s.stream.Yields bytes
  | .input _ => ∀ bytes ∈ a.spliceIn, bytes.length ≤ spliceLimit
  | .splicing => s.pipe ≠ [] ∧ ∀ n ∈ a.spliceOut, 0 < n ∧ n ≤ s.pipe.length ∧ n ≤ spliceLimit
  | .polling | .hungUp | .failed => False

def Lawful (s : St) : Input → Prop
  | .arrives _ | .finishes => s.stream.finished = false
  | .poll _ sockfd => s.ctl = .polling ∧ Truthful s.stream sockfd
  | .pollFailed => s.ctl = .polling
  | .turn a => Answered s a

instance (x : Channel Byte) (revents : Mask) : Decidable (Truthful x revents) :=
  decidable_of_iff ((x.unread ≠ [] → has revents pollIn) ∧
    (x.finished = true → has revents pollRdhup) ∧ (has revents pollRdhup → x.finished = true))
    ⟨fun h => ⟨h.1, h.2.1, h.2.2⟩, fun h => ⟨h.readable, h.finished, h.hangup⟩⟩

instance (s : St) (a : Answers) : Decidable (Answered s a) := by
  unfold Answered
  split <;> infer_instance

instance (s : St) : (a : Input) → Decidable (Lawful s a)
  | .arrives _ | .finishes | .pollFailed => inferInstanceAs (Decidable (_ = _))
  | .poll _ _ => inferInstanceAs (Decidable (_ ∧ _))
  | .turn a => inferInstanceAs (Decidable (Answered s a))

def machine : Machine St Input where
  Start s := s = initial
  Lawful := Lawful
  step := step

instance (s : St) (a : Input) : Decidable (machine.Lawful s a) :=
  inferInstanceAs (Decidable (Lawful s a))

end JiajiaNetwork.ChatClient
