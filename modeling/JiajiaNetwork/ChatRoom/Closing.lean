/- Data and close at both ends of the chat. Server and client test POLLRDHUP before POLLIN, so
   bytes that one report announces together with the close are dropped; when no report does,
   everything that was sent is read before the connection is given up. -/
import JiajiaNetwork.ChatClient.Closing
import JiajiaNetwork.PollChat.Network

set_option autoImplicit false
set_option relaxedAutoImplicit false

namespace JiajiaNetwork.ChatRoom

open Lib

/-- When no call of `poll` finds a close together with unread bytes, a server has read all that
a client sent when it removes it because it closed, and the client has read and printed all
that the server sent when it leaves its loop because the server closed. -/
theorem close_drops_nothing (v : PollChat.Program) :
    (∀ n, ((PollChat.net v).guard PollChat.Separate).Reachable n → ∀ a m,
      (PollChat.net v).Lawful n a → (PollChat.net v).step n a = some m → ∀ fd,
        PollChat.Abandons n.server m.server fd → (n.streams fd).read = (n.streams fd).sent) ∧
    (∀ s, (ChatClient.machine.guard ChatClient.Separate).Reachable s → s.ctl = .hungUp →
      s.stream.read = s.stream.sent ∧ s.printed.flatten = s.stream.sent) := by
  constructor
  · intro n reach a m lawful run fd abandons
    exact PollChat.server_drains reach lawful run abandons
  · intro s reach left
    exact ChatClient.client_drains reach left

/-! Runs in which the data is read before the close is reported. -/

section Separated

open PollChat

/-- The client on 5 says "hi", which the server reads, and closes; its slot is up next. -/
def leaves : List NetInput :=
  joins.map .server ++ [.arrives 5 [104, 105]] ++
    [reports [0, pollIn, 0], idleTurn, recvTurn [104, 105], idleTurn, idleTurn].map .server ++
    [.finishes 5] ++ [reports [0, pollIn ||| pollRdhup, pollOut], idleTurn].map .server

def bootNet (v : Program) : Net := ⟨boot v, fun _ => .empty⟩

theorem bootNet_start (v : Program) :
    Start v (bootNet v).server ∧ (bootNet v).streams = fun _ => .empty :=
  ⟨⟨3, {0, 1, 2, 3}, _, by simp, by simp, rfl⟩, rfl⟩

def served : Net := (((net .testPoll).guard Separate).replay (bootNet .testPoll) leaves).getD
  (bootNet .testPoll)

theorem served_reachable : ((net .testPoll).guard Separate).Reachable served := by
  have start : ((net .testPoll).guard Separate).Reachable (bootNet .testPoll) :=
    .start (bootNet_start .testPoll)
  exact start.replay_getD leaves

/-- The state behind the removal. -/
def left : Net := ((net .testPoll).step served (.server idleTurn)).get (by decide +kernel)

end Separated

/-- The server says "hi", which the client reads, and closes. -/
def dismissed : ChatClient.St := ((ChatClient.machine.guard ChatClient.Separate).replay
  ChatClient.initial
  [.arrives [104, 105], .poll 0 ChatClient.pollIn, .turn ⟨some [104, 105], none, none⟩,
    .turn ⟨none, none, none⟩, .finishes,
    .poll 0 (ChatClient.pollIn ||| ChatClient.pollRdhup),
    .turn ⟨none, none, none⟩]).getD ChatClient.initial

theorem dismissed_reachable :
    (ChatClient.machine.guard ChatClient.Separate).Reachable dismissed := by
  have start : (ChatClient.machine.guard ChatClient.Separate).Reachable ChatClient.initial :=
    .start rfl
  exact start.replay_getD _

theorem close_drops_nothing_served :
    (served.streams 5).read = (served.streams 5).sent ∧
    dismissed.stream.read = dismissed.stream.sent ∧
    dismissed.printed.flatten = dismissed.stream.sent := by
  obtain ⟨server, client⟩ := close_drops_nothing .testPoll
  have abandons : PollChat.Abandons served.server left.server 5 :=
    ⟨by decide +kernel, PollChat.pollIn ||| PollChat.pollRdhup, by decide, by decide +kernel⟩
  constructor
  · exact server served served_reachable (.server PollChat.idleTurn) left (by decide +kernel)
      (Option.some_get _).symm 5 abandons
  · exact client dismissed dismissed_reachable (by decide +kernel)

/-! Runs in which one report announces both. -/

section Grouped

open PollChat

def groups : List NetInput :=
  joins.map .server ++ [.arrives 5 [104, 105], .finishes 5] ++
    [reports [0, pollIn ||| pollRdhup, 0], idleTurn].map .server

def grouped : Net := ((net .chatRoomServer).replay (bootNet .chatRoomServer) groups).getD
  (bootNet .chatRoomServer)

theorem grouped_reachable : (net .chatRoomServer).Reachable grouped := by
  have start : (net .chatRoomServer).Reachable (bootNet .chatRoomServer) :=
    .start (bootNet_start .chatRoomServer)
  exact start.replay_getD groups

def dropped : Net := ((net .chatRoomServer).step grouped (.server idleTurn)).get (by decide +kernel)

end Grouped

/-- The server's refusal and its close in one report. -/
def refused : ChatClient.St := (ChatClient.machine.replay ChatClient.initial
  [.arrives PollChat.tooManyUsers, .finishes,
    .poll 0 (ChatClient.pollIn ||| ChatClient.pollRdhup),
    .turn ⟨none, none, none⟩]).getD ChatClient.initial

/-- The server drops the "hi" of the client on 5, and the client drops the refusal. -/
theorem grouped_close_drops :
    (∃ n a m fd, (PollChat.net .chatRoomServer).Reachable n ∧
      (PollChat.net .chatRoomServer).Lawful n a ∧
      (PollChat.net .chatRoomServer).step n a = some m ∧
      PollChat.Abandons n.server m.server fd ∧ (n.streams fd).read ≠ (n.streams fd).sent) ∧
    ∃ s, ChatClient.machine.Reachable s ∧ s.ctl = .hungUp ∧ s.stream.read ≠ s.stream.sent := by
  constructor
  · have abandons : PollChat.Abandons grouped.server dropped.server 5 :=
      ⟨by decide +kernel, PollChat.pollIn ||| PollChat.pollRdhup, by decide, by decide +kernel⟩
    exact ⟨grouped, .server PollChat.idleTurn, dropped, 5, grouped_reachable, by decide +kernel,
      (Option.some_get _).symm, abandons, by decide +kernel⟩
  · have start : ChatClient.machine.Reachable ChatClient.initial := .start rfl
    exact ⟨refused, start.replay_getD _, by decide +kernel, by decide +kernel⟩

end JiajiaNetwork.ChatRoom
