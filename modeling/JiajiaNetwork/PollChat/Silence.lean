/- Who is sent anything by `chat_room_server.c`. Its broadcast edits the mask of the speaker, so the
   POLLOUT branch serves only clients that have said something themselves: who keeps silent is told
   nothing for as long as it stays. The refusal that a sixth client is sent is not counted, since
   that one is never a client of the table. -/
import JiajiaNetwork.PollChat.Coverage

set_option autoImplicit false
set_option relaxedAutoImplicit false

namespace JiajiaNetwork.PollChat

open Lib

/-- Something was read from the client on `fd`. -/
def Spoke (fd : Fd) (seg : List Event) : Prop := ∃ bytes, .received fd bytes ∈ seg

/-- What is sent goes to a client that has spoken since it was accepted. -/
def ToldSpeaker (pre : List Event) : Event → Prop
  | .sent fd _ => ∃ seg, tenure Event.life fd pre = some seg ∧ Spoke fd seg
  | _ => True

/-- Who asks for POLLOUT has spoken. -/
structure Outspoken (s : St) : Prop where
  asks : ∀ k fd e r, Client s k fd e r → ∃ seg, tenure Event.life fd s.log = some seg ∧
    (has e pollOut → Spoke fd seg)
  told : Always ToldSpeaker s.log

section Steps

variable {s t m : St} {i l : Int} {c fd : Fd} {e r : Mask} {new : List Event}

theorem Spoke.append {seg : List Event} (h : Spoke fd seg) (new : List Event) :
    Spoke fd (seg ++ new) := by
  obtain ⟨bytes, member⟩ := h
  exact ⟨bytes, List.mem_append_left new member⟩

/-- A step that logs nothing about the membership of a client. -/
theorem Outspoken.keeps (out : Outspoken s) (before : Client s l fd e r)
    (log : t.log = s.log ++ new) (apart : ∀ x ∈ new, Apart Event.life fd x) :
    ∃ seg, tenure Event.life fd t.log = some seg ∧ (has e pollOut → Spoke fd seg) := by
  obtain ⟨seg, on, spoke⟩ := out.asks l fd e r before
  exact ⟨seg ++ new, log ▸ tenure_append on apart, fun asks => (spoke asks).append new⟩

theorem told_append {log : List Event} (old : Always ToldSpeaker log)
    (unsent : ∀ f text, .sent f text ∉ new) : Always ToldSpeaker (log ++ new) := by
  refine always_append.mpr ⟨old, always_of_forall_mem ?_⟩
  intro e he pre
  cases e with
  | sent f text => exact absurd he (unsent f text)
  | _ => trivial

/-- Steps that keep the masks and send nothing. -/
theorem Outspoken.frame (out : Outspoken s) (new : List Event) (log : t.log = s.log ++ new)
    (unsent : ∀ f text, .sent f text ∉ new)
    (origin : ∀ k fd e r, Client t k fd e r →
      (∃ l r0, Client s l fd e r0) ∧ ∀ x ∈ new, Apart Event.life fd x) : Outspoken t where
  asks k fd e r client := by
    obtain ⟨⟨l, r0, before⟩, apart⟩ := origin k fd e r client
    exact out.keeps before log apart
  told := log ▸ told_append out.told unsent

theorem Outspoken.congr (out : Outspoken s) (slots : t.fds = s.fds := by rfl)
    (counter : t.userCounter = s.userCounter := by rfl) (log : t.log = s.log := by rfl) :
    Outspoken t := by
  apply out.frame [] (by simp [log]) (by simp)
  intro k fd e r client
  exact ⟨⟨k, r, client.congr slots.symm counter.symm⟩, by simp⟩

theorem Outspoken.emit (out : Outspoken s) {x : Event} (quiet : x.life = .neither)
    (unsent : ∀ f text, x ≠ .sent f text) : Outspoken (s.emit x) := by
  refine out.frame (t := s.emit x) [x] rfl (by simpa [eq_comm] using unsent) ?_
  intro k fd e r client
  refine ⟨⟨k, r, client.congr⟩, fun y hy => ?_⟩
  rw [List.mem_singleton.mp hy]
  exact apart_of_neither quiet

theorem Outspoken.refuse (inv : Inv s) (out : Outspoken s) (fresh : Fresh s c) :
    Outspoken (s.refuse i c) := by
  refine out.frame _ rfl (by simp) ?_
  intro k fd e r h
  have before : Client s k fd e r := h.congr
  have other := before.fresh inv fresh
  refine ⟨⟨k, r, before⟩, ?_⟩
  simp only [List.mem_cons, List.not_mem_nil, or_false]
  rintro x (rfl | rfl | rfl)
  · exact apart_accepted other
  · exact apart_of_neither rfl
  · exact apart_closed other

theorem Outspoken.enroll {addr : SockaddrIn} (inv : Inv s) (out : Outspoken s)
    (fresh : Fresh s c) : Outspoken (s.enroll i c addr) where
  asks k fd e r client := by
    rcases client.of_enroll with before | ⟨rfl, rfl, -⟩
    · refine out.keeps before rfl fun x hx => ?_
      rw [List.mem_singleton.mp hx]
      exact apart_accepted (before.fresh inv fresh)
    · exact ⟨[], tenure_opens rfl, fun asks => absurd asks not_out_initial⟩
  told := told_append out.told (by simp)

theorem Outspoken.remove {lastFd : Fd} {tail : List Event} (inv : Inv s) (out : Outspoken s)
    (client : Client s i c e r) (log : RemovalLog c lastFd tail) :
    Outspoken (s.remove i c lastFd tail) := by
  refine out.frame tail rfl ?_ ?_
  · cases log <;> simp
  · intro k fd e' r' stays
    obtain ⟨l, apart, before⟩ := Client.of_remove client stays
    have other : fd ≠ c := before.ne inv client apart
    refine ⟨⟨l, r', before⟩, fun x hx => ?_⟩
    have kinds : x = .copied c lastFd ∨ x = .closed c := by
      cases log <;> simpa [or_comm] using hx
    rcases kinds with rfl | rfl
    · exact apart_of_neither rfl
    · exact apart_closed other

/-- A broadcast may make its speaker ask for POLLOUT, and nobody else. -/
theorem Outspoken.heard {bytes : List Byte} (inv : Inv s) (out : Outspoken s)
    (client : Client s i c e r)
    (run : broadcast .chatRoomServer i c (s.emit (.received c bytes)) = some m) :
    Outspoken m := by
  have ready : Inv (s.emit (.received c bytes)) := inv.emit rfl
  have speaker : Client (s.emit (.received c bytes)) i c e r := client.congr
  have spread := spread_of_broadcast ready client.lower client.upper run
  obtain ⟨assigned, log, only⟩ := spread.log
  have extended : m.log = s.log ++ .received c bytes :: assigned := by
    simpa [St.emit] using log
  have quiet : ∀ x ∈ Event.received c bytes :: assigned, x.life = .neither := by
    intro x hx
    rcases List.mem_cons.mp hx with rfl | later
    · rfl
    · obtain ⟨f, source, rfl⟩ := only x later
      rfl
  constructor
  case asks =>
    intro k fd e' r' after
    obtain ⟨e0, before⟩ := after.of_spread ready spread
    have old : Client s k fd e0 r' := before.congr
    by_cases own : k = i
    · subst own
      obtain ⟨rfl, -, -⟩ := old.same client
      obtain ⟨seg, on, -⟩ := out.asks k fd e r client
      refine ⟨_, extended ▸ tenure_append on (apart_of_all_neither quiet), fun _ => ?_⟩
      exact ⟨bytes, List.mem_append_right seg List.mem_cons_self⟩
    · have slot := broadcast_slots ready speaker run k own
      have there : Client s k fd e' r' := ⟨old.lower, old.upper, slot.symm.trans after.slot⟩
      obtain ⟨-, rfl, -⟩ := old.same there
      exact out.keeps old extended (apart_of_all_neither quiet)
  case told =>
    rw [extended]
    apply told_append out.told
    intro f text member
    rcases List.mem_cons.mp member with read | later
    · cases read
    · obtain ⟨f', source, assigns⟩ := only _ later
      cases assigns

theorem Outspoken.flush (inv : Inv s) (out : Outspoken s) (client : Client s i c e r)
    (writes : Writes r) (text : List Byte) : Outspoken (s.flush i c e r text) := by
  obtain ⟨seg, on, spoke⟩ := out.asks i c e r client
  have heard := spoke (client.out inv writes.1)
  have quiet : ∀ x ∈ [Event.readPending c (s.users.cell c).writeBuf, .sent c text, .reset c],
      x.life = .neither := by simp [Event.life]
  constructor
  case asks =>
    intro k fd e' r' after
    rcases client.of_flush after with ⟨-, rfl, -, -⟩ | ⟨-, before⟩
    · exact ⟨_, tenure_append on (apart_of_all_neither quiet), fun _ => heard.append _⟩
    · exact out.keeps before rfl (apart_of_all_neither quiet)
  case told =>
    refine always_append.mpr ⟨out.told, ?_⟩
    have now : ∃ seg', tenure Event.life c
        (s.log ++ [.readPending c (s.users.cell c).writeBuf]) = some seg' ∧ Spoke c seg' :=
      ⟨_, tenure_append on (apart_of_all_neither (by simp [Event.life])), heard.append _⟩
    simpa [always_cons, ToldSpeaker] using now

theorem Outspoken.turn {a : Answers} (inv : Inv s) (out : Outspoken s)
    (turn : Turn .chatRoomServer s i a t) : Outspoken t := by
  cases turn with
  | idle => exact out.congr
  | refuse c addr _ fresh => exact out.refuse inv fresh
  | enroll c addr _ fresh _ => exact out.enroll inv fresh
  | hangup fd lastFd e r e' r' client _ _ => exact out.remove inv client .hangup
  | failed fd lastFd e r e' r' errno client _ _ _ _ =>
    have cleared : Outspoken (s.filled fd []) := out.congr
    exact cleared.remove (inv.filled fd []) (client_filled.mpr client) .failed
  | cleared fd e r _ _ _ => exact out.congr
  | heard fd e r bytes m client _ _ _ _ run =>
    have filled : Outspoken (s.filled fd bytes) := out.congr
    have spoken := filled.heard (inv.filled fd bytes) (client_filled.mpr client) run
    exact spoken.congr
  | nothing fd e r _ _ _ =>
    have read : Outspoken (s.emit (.readPending fd .null)) := out.emit rfl (by simp)
    exact read.congr
  | flushed fd e r client writes _ => exact out.flush inv client writes _

theorem Outspoken.move {a : Input} (inv : Inv s) (out : Outspoken s)
    (move : Move .chatRoomServer s a t) : Outspoken t := by
  cases move with
  | polled revents t _ polled =>
    refine out.frame [] (by simp [polled.log]) (by simp) ?_
    intro k fd e r client
    obtain ⟨r0, before, -⟩ := client.of_polled inv polled
    exact ⟨⟨k, r0, before⟩, by simp⟩
  | left => exact out.congr
  | passed i a _ _ => exact out.congr
  | turn i a fd e r t _ _ _ _ _ turn =>
    have examined : Outspoken (s.emit (.examined fd r)) := out.emit rfl (by simp)
    exact examined.turn (inv.emit rfl) turn

end Steps

theorem reachable_outspoken {s : St} (h : (machine .chatRoomServer).Reachable s) :
    Outspoken s := by
  apply h.invariant
  · rintro s ⟨listenfd, files, memory, -, -, rfl⟩
    refine ⟨fun k fd e r client => ?_, by simp [initial]⟩
    have lower := client.lower
    have upper : k ≤ 0 := client.upper
    omega
  · intro s a t reach out lawful run
    exact out.move (reachable_inv reach) (reachable_move reach lawful run)

/-- In every run of `chat_room_server.c` nothing is sent to a client that has not said anything
itself since it was accepted, apart from the text that refuses a sixth one. -/
theorem silent_never_told (s : St) (h : (machine .chatRoomServer).Reachable s) :
    Always ToldSpeaker s.log :=
  (reachable_outspoken h).told

/-- The client on 6 says "hi" and is sent what happens to be behind its own pointer. -/
def answered : St := ((machine .chatRoomServer).replay (joined .chatRoomServer)
  [reports [0, 0, pollIn], idleTurn, idleTurn, recvTurn [104, 105], idleTurn,
    reports [0, 0, pollOut], idleTurn, idleTurn,
    .turn ⟨none, .error eagain, [63]⟩]).getD (joined .chatRoomServer)

theorem answered_reachable : (machine .chatRoomServer).Reachable answered :=
  (joined_reachable .chatRoomServer).replay_getD _

theorem silent_never_told_answered :
    Event.sent 6 [63] ∈ answered.log ∧ Always ToldSpeaker answered.log :=
  ⟨by decide +kernel, silent_never_told answered answered_reachable⟩

end JiajiaNetwork.PollChat
