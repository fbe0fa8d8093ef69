/- What the combined server sends back. On a connection it sends what it received. A datagram is
   answered with the whole buffer but its last byte, so that the answer has the text of the
   question only when the question has that length too. -/
import JiajiaNetwork.TcpUdp.Server

set_option autoImplicit false
set_option relaxedAutoImplicit false

namespace JiajiaNetwork.TcpUdp

open Lib

def Event.receivedOn (c : Nat) : Event → List Byte
  | .received connection bytes => if connection = c then bytes else []
  | _ => []

def Event.sentOn (c : Nat) : Event → List Byte
  | .sent connection bytes => if connection = c then bytes else []
  | _ => []

/-- A datagram with something in it that `recvfrom` returned. -/
def Event.question? : Event → Option Datagram
  | .receivedFrom d => if 0 < d.bytes.length then some d else none
  | _ => none

def Event.answer? : Event → Option Datagram
  | .sentTo d => some d
  | _ => none

/-- On every connection the bytes sent are those received; the datagrams sent are those received
that are not empty, each to its source. -/
structure EchoLaw (log : List Event) : Prop where
  tcp : ∀ c, log.flatMap (Event.sentOn c) = log.flatMap (Event.receivedOn c)
  udp : log.filterMap Event.answer? = log.filterMap Event.question?

/-- What `recvfrom` returns is empty or fills the buffer but its last byte. -/
def Whole (s : St) : Input → Prop
  | .main a => ∀ r ∈ s.ctl.next?, r.fd ≠ s.listenfd → r.fd = s.udpfd → ∀ bytes ∈ a.recv,
      bytes.length = 0 ∨ bytes.length = udpBufferSize - 1
  | _ => True

/-- The buffer behind a message is filled with zeros, so a longer part of it is another text. -/
theorem overlay_take_eq_iff {bytes : List Byte} {m n : Nat} (short : bytes.length ≤ m)
    (bound : m ≤ n) :
    (overlay bytes (List.replicate n 0)).take m = bytes ↔ bytes.length = m := by
  constructor
  · intro same
    have size := congrArg List.length same
    rw [List.length_take, overlay, List.length_append, List.length_drop,
      List.length_replicate] at size
    omega
  · rintro rfl
    exact overlay_take

section Laws

variable {log new : List Event} {d answer : Datagram} {c : Nat} {bytes : List Byte}

/-- New events that are even on each connection, and with as many answers as questions, keep the
law if the answers are the questions. -/
theorem echoLaw_append
    (tcp : ∀ c, new.flatMap (Event.sentOn c) = new.flatMap (Event.receivedOn c))
    (udp : (new.filterMap Event.answer?).length = (new.filterMap Event.question?).length) :
    EchoLaw (log ++ new) ↔
      EchoLaw log ∧ new.filterMap Event.answer? = new.filterMap Event.question? := by
  constructor
  · intro law
    have both := law.udp
    rw [List.filterMap_append, List.filterMap_append] at both
    obtain ⟨before, last⟩ := List.append_inj' both udp
    refine ⟨⟨fun x => ?_, before⟩, last⟩
    have whole := law.tcp x
    rw [List.flatMap_append, List.flatMap_append, tcp x] at whole
    exact List.append_cancel_right whole
  · rintro ⟨law, last⟩
    refine ⟨fun x => ?_, ?_⟩
    · rw [List.flatMap_append, List.flatMap_append, tcp x, law.tcp x]
    · rw [List.filterMap_append, List.filterMap_append, law.udp, last]

/-- Bytes that are received and sent keep the law as it is. -/
theorem echoLaw_tcp : EchoLaw (log ++ [.received c bytes, .sent c bytes]) ↔ EchoLaw log := by
  rw [echoLaw_append (fun x => by simp [Event.sentOn, Event.receivedOn]) rfl]
  exact and_iff_left rfl

/-- An answered datagram keeps the law if its answer is the datagram. -/
theorem echoLaw_udp (asked : 0 < d.bytes.length) :
    EchoLaw (log ++ [.receivedFrom d, .sentTo answer]) ↔ EchoLaw log ∧ answer = d := by
  have question : [Event.receivedFrom d, .sentTo answer].filterMap Event.question? = [d] := by
    simp [List.filterMap_cons, Event.question?, asked]
  have replied : [Event.receivedFrom d, .sentTo answer].filterMap Event.answer? = [answer] := rfl
  rw [echoLaw_append (fun x => rfl) (by rw [question, replied]; rfl), question, replied,
    List.singleton_inj]

/-- An empty datagram is not answered. -/
theorem echoLaw_empty (empty : d.bytes.length = 0) :
    EchoLaw (log ++ [.receivedFrom d]) ↔ EchoLaw log := by
  have question : [Event.receivedFrom d].filterMap Event.question? = [] := by
    simp [Event.question?, empty]
  have replied : [Event.receivedFrom d].filterMap Event.answer? = [] := rfl
  rw [echoLaw_append (fun x => rfl) (by rw [question, replied]), question, replied]
  exact and_iff_left rfl

end Laws

theorem udpBranch_echo {s t : St} {rest : List Report} {a : Answers}
    (fits : ∀ bytes ∈ a.recv, bytes.length ≤ udpBufferSize - 1)
    (run : udpBranch s rest a = some t) :
    EchoLaw t.log ↔ EchoLaw s.log ∧
      ∀ bytes ∈ a.recv, bytes.length = 0 ∨ bytes.length = udpBufferSize - 1 := by
  unfold udpBranch at run
  cases answer : a.recv with
  | none =>
    simp only [answer, Option.some.injEq] at run
    subst run
    simp
  | some bytes =>
    have short := fits bytes answer
    cases queue : s.datagrams with
    | nil => simp [answer, queue] at run
    | cons d later =>
      simp only [answer, queue, Option.some.injEq] at run
      subst run
      simp only [Option.mem_def, Option.some.injEq, forall_eq']
      by_cases asked : 0 < bytes.length
      · have some : bytes.length ≠ 0 := by omega
        have text := overlay_take_eq_iff (n := udpBufferSize) short (Nat.sub_le _ _)
        rw [if_pos asked, List.append_assoc, List.singleton_append, echoLaw_udp asked,
          Datagram.mk.injEq, and_iff_right rfl, text, or_iff_right some]
      · have empty : bytes.length = 0 := by omega
        rw [if_neg asked, List.append_nil, and_iff_left (.inl empty)]
        exact echoLaw_empty empty

theorem giveUp_log (s : St) (sockfd : Fd) : (giveUp s sockfd).log = s.log := by
  unfold giveUp
  split_ifs <;> rfl

theorem tcpBranch_echo {s t : St} {sockfd : Fd} {rest : List Report} {a : Answers}
    (run : tcpBranch s sockfd rest a = some t) : EchoLaw t.log ↔ EchoLaw s.log := by
  unfold tcpBranch at run
  cases answer : a.recv with
  | none =>
    simp only [answer, Option.some.injEq] at run
    rw [← run, giveUp_log]
  | some bytes =>
    simp only [answer] at run
    split_ifs at run with ended
    · rw [← Option.some.inj run, giveUp_log]
    · obtain ⟨x, -, rfl⟩ := Option.map_eq_some_iff.mp run
      rw [overlay_take]
      exact echoLaw_tcp

/-- A step keeps the law if it takes a whole datagram or none. -/
theorem step_echo {s t : St} {a : Input} (lawful : Lawful s a) (run : step s a = some t) :
    EchoLaw t.log ↔ EchoLaw s.log ∧ Whole s a := by
  cases a with
  | connects =>
    obtain rfl := Option.some.inj run
    exact (and_iff_left trivial).symm
  | sends d =>
    obtain rfl := Option.some.inj run
    exact (and_iff_left trivial).symm
  | arrives fd bytes =>
    obtain rfl := Option.some.inj run
    exact (and_iff_left trivial).symm
  | finishes fd =>
    obtain rfl := Option.some.inj run
    exact (and_iff_left trivial).symm
  | wait batch =>
    obtain rfl := Option.some.inj run
    exact (and_iff_left trivial).symm
  | waitFailed =>
    obtain rfl := Option.some.inj run
    exact (and_iff_left trivial).symm
  | main a =>
    have idle : ∀ {r}, s.ctl.next? = some r → (r.fd = s.listenfd ∨ r.fd ≠ s.udpfd) →
        Whole s (.main a) := by
      intro r next other r' next' unlisted udp
      rw [next] at next'
      obtain rfl := Option.some.inj next'
      rcases other with listening | apart
      · exact absurd listening unlisted
      · exact absurd udp apart
    simp only [step] at run
    unfold mainStep at run
    split at run
    · rename_i r rest ctl
      have next : s.ctl.next? = some r := by rw [ctl]; rfl
      unfold body at run
      split_ifs at run with listening udp readable
      · obtain rfl := Option.some.inj run
        rw [and_iff_left (idle next (.inl listening))]
        unfold acceptBranch
        split_ifs <;> rfl
      · have answered := lawful r next
        rw [Answered, if_neg listening, if_pos udp] at answered
        rw [udpBranch_echo ?_ run]
        · apply and_congr_right
          intro _
          constructor
          · intro whole r' next' _ _
            exact whole
          · intro whole
            exact whole r next listening udp
        · intro bytes received
          obtain ⟨d, -, rfl⟩ := answered bytes received
          exact List.length_take_le _ _
      · rw [tcpBranch_echo run, and_iff_left (idle next (.inr udp))]
      · obtain rfl := Option.some.inj run
        rw [and_iff_left (idle next (.inr udp))]
    · rename_i connfd rest ctl
      obtain rfl := Option.some.inj run
      have none : Whole s (.main a) := by
        intro r next
        rw [ctl] at next
        cases next
      rw [and_iff_left none]
      unfold St.addfd
      split_ifs <;> rfl
    · cases run
    · cases run

/-- The server echoes exactly when `recvfrom` never returns a datagram of another length than
the one that it answers with. -/
theorem echo_iff {steps : List (St × Input)} {s : St} (h : machine.Run steps s) :
    EchoLaw s.log ↔ ∀ p ∈ steps, Whole p.1 p.2 := by
  apply h.kept_iff (P := fun s => EchoLaw s.log)
  · rintro s ⟨listenfd, udpfd, -, -, -, rfl⟩
    exact ⟨fun _ => rfl, rfl⟩
  · intro s a t _ lawful run
    exact step_echo lawful run

theorem boot_reachable : machine.Reachable (boot 3 4) :=
  .start ⟨3, 4, by decide, by decide, by decide, rfl⟩

/-- A step that returns nothing of interest. -/
def quiet : Answers := ⟨-1, none, 0⟩

/-- A connection on 5 says "hi" and is answered; an empty datagram is not. -/
def echoed : St := (machine.replay (boot 3 4)
  [.connects, .wait [⟨3, epollIn⟩], .main { quiet with connfd := 5 }, .main quiet,
    .arrives 5 [104, 105], .sends ⟨⟨7, 1⟩, []⟩, .wait [⟨5, epollIn⟩, ⟨4, epollIn⟩],
    .main { quiet with recv := some [104, 105] }, .main { quiet with recv := some [] }]).getD
  (boot 3 4)

theorem echo_iff_echoed : ∃ steps, machine.Run steps echoed ∧
    (EchoLaw echoed.log ↔ ∀ p ∈ steps, Whole p.1 p.2) := by
  obtain ⟨steps, run⟩ := boot_reachable.replay_getD _
  exact ⟨steps, run, echo_iff run⟩

/-- The datagram "hi" is answered with "hi" and 1021 zeros. -/
theorem short_datagram_padded : ∃ s, machine.Reachable s ∧ ¬ EchoLaw s.log := by
  obtain ⟨s, reach, padded⟩ := boot_reachable.of_replay
    (p := fun s : St => decide (s.log.filterMap Event.answer? ≠ s.log.filterMap Event.question?))
    [.sends ⟨⟨7, 1⟩, [104, 105]⟩, .wait [⟨4, epollIn⟩],
      .main { quiet with recv := some [104, 105] }]
    (by decide +kernel)
  exact ⟨s, reach, fun law => of_decide_eq_true padded law.udp⟩

end JiajiaNetwork.TcpUdp
