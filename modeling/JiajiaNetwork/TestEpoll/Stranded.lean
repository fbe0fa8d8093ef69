/- Edge-triggered descriptors with something queued, in `test_tcp_udp_server.c` and in
   `test_epoll.c` with `lt`: an edge is pending for them if every handler empties its queue, and
   need not be if one does not. -/
import JiajiaNetwork.TcpUdp.Edges
import JiajiaNetwork.TestEpoll.Edges

set_option autoImplicit false
set_option relaxedAutoImplicit false

namespace JiajiaNetwork.TestEpoll

open Lib

/-- In both loops, when every handler empties the queue that it was called for or has a newer edge
pending, no edge-triggered descriptor with something queued is without an edge at `epoll_wait`. -/
theorem never_stranded {u : TcpUdp.St} {s : St}
    (tcpUdp : (TcpUdp.machine.guard TcpUdp.Drains).Reachable u)
    (lt : ((machine .lt).guard TakesAll).Reachable s) :
    (u.ctl.Calling → ∀ fd, (u.entries fd).isSome → 0 < u.queued fd → u.entries fd = some true) ∧
    (s.ctl.Calling → ∀ fd, ∀ e ∈ s.entries fd, e.enableEt = true → 0 < s.queued fd →
      e.edge = true) := by
  constructor
  · intro calling fd registered queued
    exact TcpUdp.queued_noticed tcpUdp calling registered queued
  · intro calling fd e entry triggered queued
    exact queued_noticed lt calling entry triggered queued

/-- A connection on 5 that has sent "hi", and a datagram. -/
def tidy : TcpUdp.St := ((TcpUdp.machine.guard TcpUdp.Drains).replay (TcpUdp.boot 3 4)
  [.connects, .wait [⟨3, epollIn⟩], .main ⟨5, none, 0⟩, .main ⟨-1, none, 0⟩,
    .arrives 5 [104, 105], .sends ⟨⟨7, 1⟩, [33]⟩, .wait [⟨4, epollIn⟩],
    .main ⟨-1, some [33], 0⟩]).getD (TcpUdp.boot 3 4)

theorem tidy_reachable : (TcpUdp.machine.guard TcpUdp.Drains).Reachable tidy := by
  have start : (TcpUdp.machine.guard TcpUdp.Drains).Reachable (TcpUdp.boot 3 4) :=
    .start ⟨3, 4, by decide, by decide, by decide, rfl⟩
  exact start.replay_getD _

/-- A connection that waits for `accept`. -/
def knocking : St := (((machine .lt).guard TakesAll).replay (boot 3) [.connects]).getD (boot 3)

theorem knocking_reachable : ((machine .lt).guard TakesAll).Reachable knocking := by
  have start : ((machine .lt).guard TakesAll).Reachable (boot 3) := .start ⟨3, by decide, rfl⟩
  exact start.replay_getD _

theorem never_stranded_tidy :
    tidy.entries 5 = some true ∧ ∀ e ∈ knocking.entries 3, e.enableEt = true → e.edge = true := by
  obtain ⟨tcpUdp, lt⟩ := never_stranded tidy_reachable knocking_reachable
  constructor
  · exact tcpUdp (by decide +kernel) 5 (by decide +kernel) (by decide +kernel)
  · intro e entry triggered
    exact lt (by decide +kernel) 3 e entry triggered (by decide +kernel)

/-- Two connections arrive at once, one is accepted, and nothing tells of the other. -/
theorem second_connection_stranded :
    (∃ s, TcpUdp.machine.Reachable s ∧ s.ctl.Calling ∧
      0 < s.queued s.listenfd ∧ s.entries s.listenfd = some false) ∧
    ∃ s, (machine .lt).Reachable s ∧ s.ctl.Calling ∧
      0 < s.queued s.listenfd ∧ ∃ e ∈ s.entries s.listenfd, e.enableEt = true ∧ e.edge = false := by
  constructor
  · have start : TcpUdp.machine.Reachable (TcpUdp.boot 3 4) :=
      .start ⟨3, 4, by decide, by decide, by decide, rfl⟩
    obtain ⟨s, reach, stranded⟩ := start.of_replay
      (p := fun s : TcpUdp.St => decide (s.ctl.Calling ∧ 0 < s.queued s.listenfd ∧
        s.entries s.listenfd = some false))
      [.connects, .connects, .wait [⟨3, epollIn⟩], .main ⟨5, none, 0⟩, .main ⟨-1, none, 0⟩]
      (by decide +kernel)
    exact ⟨s, reach, of_decide_eq_true stranded⟩
  · have start : (machine .lt).Reachable (boot 3) := .start ⟨3, by decide, rfl⟩
    obtain ⟨s, reach, stranded⟩ := start.of_replay
      (p := fun s : St => decide (s.ctl.Calling ∧ 0 < s.queued s.listenfd ∧
        ∃ e, e ∈ s.entries s.listenfd ∧ e.enableEt = true ∧ e.edge = false))
      [.connects, .connects, .wait [⟨3, epollIn⟩], .main ⟨5, none, 0⟩, .main ⟨-1, none, 0⟩]
      (by decide +kernel)
    exact ⟨s, reach, of_decide_eq_true stranded⟩

end JiajiaNetwork.TestEpoll
