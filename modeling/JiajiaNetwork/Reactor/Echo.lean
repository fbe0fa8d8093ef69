/- The echo of a connection: what is sent back against what was received. `senddata` forgets
   what `send` did not take, so the law holds of the runs in which every `send` takes all. -/
import JiajiaNetwork.Reactor.Buffer

set_option autoImplicit false
set_option relaxedAutoImplicit false

namespace JiajiaNetwork.Reactor

open Lib

def Event.bytesIn : Event → List Byte
  | .recv _ answer => answer.getD []
  | _ => []

def Event.bytesOut : Event → List Byte
  | .send _ given answer => given.take (answer.getD 0)
  | _ => []

/-- The bytes received in a dialogue. -/
def bytesIn (seg : List Event) : List Byte := seg.flatMap Event.bytesIn

/-- The bytes that the socket of a dialogue accepted. -/
def bytesOut (seg : List Event) : List Byte := seg.flatMap Event.bytesOut

@[simp] theorem bytesIn_cons (e : Event) (seg : List Event) :
    bytesIn (e :: seg) = e.bytesIn ++ bytesIn seg := List.flatMap_cons

@[simp] theorem bytesOut_cons (e : Event) (seg : List Event) :
    bytesOut (e :: seg) = e.bytesOut ++ bytesOut seg := List.flatMap_cons

@[simp] theorem bytesIn_nil : bytesIn [] = [] := rfl

@[simp] theorem bytesOut_nil : bytesOut [] = [] := rfl

@[simp] theorem bytesIn_append (seg new : List Event) :
    bytesIn (seg ++ new) = bytesIn seg ++ bytesIn new := List.flatMap_append

@[simp] theorem bytesOut_append (seg new : List Event) :
    bytesOut (seg ++ new) = bytesOut seg ++ bytesOut new := List.flatMap_append

/-- The law at an event of a dialogue: what was sent up to and with it is the beginning of what
was received, and it is a `recv` only if everything before was sent. -/
def EchoLaw (seg : List Event) (e : Event) : Prop :=
  bytesOut (seg ++ [e]) <+: bytesIn (seg ++ [e]) ∧ (e.reads = true → bytesOut seg = bytesIn seg)

/-- The socket has room for everything that `senddata` gives to `send`. -/
def TakesAll (ev : Myevent) (f : Callback) (a : Answers) : Prop :=
  f = .senddata → ∀ room ∈ a.send, ev.outgoing.length ≤ room

instance (seg : List Event) (e : Event) : Decidable (EchoLaw seg e) :=
  inferInstanceAs (Decidable (_ ∧ _))

instance (ev : Myevent) (f : Callback) (a : Answers) : Decidable (TakesAll ev f a) :=
  inferInstanceAs (Decidable (_ → _))

/-- Between two callbacks an entry owes nothing when it waits to read, and the bytes that it
holds when it waits to write. A buffer filled to the last byte holds none. -/
structure Owes (ev : Myevent) (seg : List Event) : Prop where
  reading : ev.callBack = some .recvdata → bytesOut seg = bytesIn seg
  writing : ev.callBack = some .senddata → bytesOut seg ++ ev.outgoing <+: bytesIn seg
  rest : ev.callBack = some .senddata → ev.outgoing ≠ [] →
    bytesOut seg ++ ev.outgoing = bytesIn seg

section Callback

variable {k : Int} {ev : Myevent} {a : Answers} {f : Callback} {seg : List Event} {fd : Fd}

theorem EchoLaw.recv {answer : Option (List Byte)} (even : bytesOut seg = bytesIn seg) :
    EchoLaw seg (.recv fd answer) := by
  refine ⟨?_, fun _ => even⟩
  rw [bytesOut_append, bytesIn_append, even]
  exact ⟨answer.getD [], by simp [Event.bytesIn, Event.bytesOut]⟩

theorem EchoLaw.send {given : List Byte} {answer : Option Nat}
    (owed : bytesOut seg ++ given.take (answer.getD 0) <+: bytesIn seg) :
    EchoLaw seg (.send fd given answer) := by
  refine ⟨?_, fun reads => absurd reads (by simp [Event.reads])⟩
  simpa [Event.bytesIn, Event.bytesOut] using owed

/-- A callback and the system call that it makes. -/
theorem EchoLaw.pair {e : Event} (before : bytesOut seg <+: bytesIn seg)
    (law : EchoLaw (seg ++ [.invoked k f fd]) e) :
    Always (fun pre x => EchoLaw (seg ++ pre) x) [.invoked k f fd, e] := by
  rw [always_cons, always_cons]
  refine ⟨⟨?_, fun reads => absurd reads (by simp [Event.reads])⟩, law, always_nil _⟩
  simpa [Event.bytesIn, Event.bytesOut] using before

theorem bytesOut_invoked : bytesOut (seg ++ [.invoked k f fd]) = bytesOut seg := by
  simp [Event.bytesOut]

theorem bytesIn_invoked : bytesIn (seg ++ [.invoked k f fd]) = bytesIn seg := by
  simp [Event.bytesIn]

/-- A callback that reads, when nothing is owed. -/
theorem EchoLaw.reading {answer : Option (List Byte)} (even : bytesOut seg = bytesIn seg) :
    Always (fun pre e => EchoLaw (seg ++ pre) e) [.invoked k .recvdata fd, .recv fd answer] := by
  apply EchoLaw.pair
  · rw [even]
  · apply EchoLaw.recv
    rw [bytesOut_invoked, bytesIn_invoked, even]

/-- A callback that writes what is owed, or a part of it. -/
theorem EchoLaw.writing {given : List Byte} {answer : Option Nat}
    (owed : bytesOut seg ++ given <+: bytesIn seg) :
    Always (fun pre e => EchoLaw (seg ++ pre) e)
      [.invoked k .senddata fd, .send fd given answer] := by
  apply EchoLaw.pair ((List.prefix_append _ _).trans owed)
  apply EchoLaw.send
  rw [bytesOut_invoked, bytesIn_invoked]
  refine List.IsPrefix.trans ?_ owed
  exact (List.prefix_append_right_inj _).mpr (List.take_prefix _ _)

theorem Outcome.echoes {new : List Event} {result : Option Myevent} (owes : Owes ev seg)
    (held : ev.callBack = some f) (outcome : Outcome k ev a f new result) :
    Always (fun pre e => EchoLaw (seg ++ pre) e) (said k f ev.fd new) := by
  cases outcome with
  | ended ends =>
    have words : said k .recvdata ev.fd [.recv ev.fd a.recv] =
        [.invoked k .recvdata ev.fd, .recv ev.fd a.recv] := by simp [said, concerns]
    rw [words]
    exact EchoLaw.reading (owes.reading held)
  | filled bytes answer _ _ =>
    have words : said k .recvdata ev.fd [.recv ev.fd (some bytes)] =
        [.invoked k .recvdata ev.fd, .recv ev.fd (some bytes)] := by simp [said, concerns]
    rw [words]
    exact EchoLaw.reading (owes.reading held)
  | overfilled bytes answer _ =>
    have words : said k .recvdata ev.fd [.recv ev.fd (some bytes), .spilled k] =
        [.invoked k .recvdata ev.fd, .recv ev.fd (some bytes)] := by simp [said, concerns]
    rw [words]
    exact EchoLaw.reading (owes.reading held)
  | failed len answer nothing =>
    have words : said k .senddata ev.fd [.send ev.fd ev.outgoing len] =
        [.invoked k .senddata ev.fd, .send ev.fd ev.outgoing len] := by simp [said, concerns]
    rw [words]
    exact EchoLaw.writing (owes.writing held)
  | sent len answer positive =>
    have words : said k .senddata ev.fd [.send ev.fd ev.outgoing (some len)] =
        [.invoked k .senddata ev.fd, .send ev.fd ev.outgoing (some len)] := by
      simp [said, concerns]
    rw [words]
    exact EchoLaw.writing (owes.writing held)

/-- What the next callback finds. -/
theorem Outcome.owes {new : List Event} {ev' : Myevent} (owes : Owes ev seg)
    (held : ev.callBack = some f) (takes : TakesAll ev f a)
    (outcome : Outcome k ev a f new (some ev')) : Owes ev' (seg ++ said k f ev.fd new) := by
  cases outcome with
  | filled bytes answer _ short =>
    have even := owes.reading held
    have full : bytesOut (seg ++ said k .recvdata ev.fd [.recv ev.fd (some bytes)]) ++ bytes =
        bytesIn (seg ++ said k .recvdata ev.fd [.recv ev.fd (some bytes)]) := by
      simp [even, said, concerns, Event.bytesIn, Event.bytesOut]
    have holds : Myevent.outgoing (Myevent.await { ev with
        buf := (overlay bytes ev.buf).set bytes.length 0, len := BitVec.ofNat 32 bytes.length }
        k .senddata epollOut a.time) = bytes := by
      show List.take (BitVec.ofNat 32 bytes.length).toNat _ = bytes
      rw [filled_len short]
      exact filled_buf
    constructor
    · exact fun reading => absurd reading (by simp)
    · intro _
      rw [holds, full]
    · intro _ _
      rw [holds, full]
  | overfilled bytes answer _ =>
    have even := owes.reading held
    constructor
    · exact fun reading => absurd reading (by simp)
    · exact fun _ => ⟨bytes, by
        simp [Myevent.outgoing, even, said, concerns, Event.bytesIn, Event.bytesOut]⟩
    · exact fun _ held => absurd rfl held
  | sent len answer positive =>
    obtain ⟨room, accepts, least⟩ := Option.map_eq_some_iff.mp answer
    have all : len = ev.outgoing.length := by
      have enough := takes rfl room accepts
      omega
    have nonempty : ev.outgoing ≠ [] := by
      apply List.ne_nil_of_length_pos
      omega
    have settled := owes.rest held nonempty
    subst all
    constructor
    · intro _
      simpa [said, concerns, Event.bytesIn, Event.bytesOut] using settled
    · exact fun writing => absurd writing (by simp)
    · exact fun writing => absurd writing (by simp)

end Callback

theorem echoing : Conversation TakesAll Owes EchoLaw where
  opens ev fresh := by
    constructor
    · exact fun _ => rfl
    · exact fun writing => absurd (fresh.symm.trans writing) (by decide)
    · exact fun writing => absurd (fresh.symm.trans writing) (by decide)
  calls k ev a f new result seg owes held takes outcome := by
    constructor
    · exact outcome.echoes owes held
    · rintro ev' rfl
      exact outcome.owes owes held takes

/-- As long as every `send` takes all it is given, the law holds along every run. -/
theorem echo_law (s : St) (h : (machine.guard (Meets TakesAll)).Reachable s) :
    Always (Speaks EchoLaw) s.log := (echoing.talks h).said

/-- The client on 5 writes "hi" and gets it back. -/
def echoes : List Input :=
  connects ++ pass 2 [⟨5, epollIn, 0⟩] ++ [recvIf [104, 105], idleIf, idleIf] ++
    pass 3 [⟨5, epollOut, 0⟩] ++ [idleIf, sendIf 2]

def echoed : St := ((machine.guard (Meets TakesAll)).replay boot echoes).getD boot

theorem echoed_reachable : (machine.guard (Meets TakesAll)).Reachable echoed := by
  have start : (machine.guard (Meets TakesAll)).Reachable boot := .start boot_start
  exact start.replay_getD echoes

theorem echo_law_echoed :
    (dialogue 5 echoed.log).map (fun seg => (bytesIn seg, bytesOut seg)) =
      some ([104, 105], [104, 105]) ∧
    Always (Speaks EchoLaw) echoed.log :=
  ⟨by decide +kernel, echo_law echoed echoed_reachable⟩

/-- The socket takes one byte of "hi" and the client writes "x" next. -/
def shortened : St := (machine.replay connected
  (pass 2 [⟨5, epollIn, 0⟩] ++ [recvIf [104, 105], idleIf, idleIf] ++
    pass 3 [⟨5, epollOut, 0⟩] ++ [idleIf, sendIf 1, idleIf] ++
    pass 4 [⟨5, epollIn, 0⟩] ++ [recvIf [120], idleIf, idleIf] ++
    pass 5 [⟨5, epollOut, 0⟩] ++ [idleIf, sendIf 1])).getD connected

theorem short_send_skips : ∃ s, machine.Reachable s ∧ ¬ Always (Speaks EchoLaw) s.log := by
  refine ⟨shortened, connected_reachable.replay_getD _, fun always => ?_⟩
  have split : shortened.log = shortened.log.dropLast ++ .send 5 [120] (some 1) :: [] := by
    decide +kernel
  have before : dialogue 5 shortened.log.dropLast = some
      [.invoked 0 .recvdata 5, .recv 5 (some [104, 105]),
        .invoked 0 .senddata 5, .send 5 [104, 105] (some 1),
        .invoked 0 .recvdata 5, .recv 5 (some [120]), .invoked 0 .senddata 5] := by
    decide +kernel
  have law := always _ _ _ split 5 _ (by decide) before
  exact absurd law (by decide)

end JiajiaNetwork.Reactor
