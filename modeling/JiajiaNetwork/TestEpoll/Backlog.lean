/- The connections that wait for `accept` in `test_epoll.c`. The listening socket is edge-triggered
   and an edge lets one of them be accepted, so that each connection that comes while an edge is
   pending makes all later ones wait for one more. -/
import JiajiaNetwork.Lib.Backlog
import JiajiaNetwork.TestEpoll.Agreement

set_option autoImplicit false
set_option relaxedAutoImplicit false

namespace JiajiaNetwork.TestEpoll

open Lib

/-- How many of the events are about the listening socket. -/
def St.listening (s : St) (reports : List Report) : Nat := (reports.map Report.fd).count s.listenfd

def St.gauge (s : St) : Gauge where
  queued := s.backlog.length
  noticed := s.Pending s.listenfd
  ahead := s.listening s.ctl.ahead

/-- A connection is left behind when an edge is pending already, or when `accept` fails. -/
def missed (s : St) : Input → Nat
  | .connects => s.gauge.noticed.toNat
  | .main a =>
    match s.ctl with
    | .events (r :: _) => if r.fd = s.listenfd ∧ a.connfd < 0 then 1 else 0
    | .events [] | .adding _ _ | .draining _ _ | .left => 0
  | .arrives _ _ | .finishes _ | .wait _ | .waitFailed => 0

/-- The listening socket stays edge-triggered and is no connection, and those who wait came last. -/
structure Standing (s : St) : Prop where
  registered : ∃ e ∈ s.entries s.listenfd, e.enableEt = true
  closed : s.sockets s.listenfd = none
  draining : ∀ fd rest, s.ctl = .draining fd rest → fd ≠ s.listenfd
  newest : ∃ first, s.backlog = List.range' first s.backlog.length ∧
    first + s.backlog.length = s.arrived

section Steps

variable {v : Handler} {s t : St} {r : Report} {rest : List Report} {a : Answers} {fd : Fd}

theorem listening_cons : s.listening (r :: rest) =
    s.listening rest + if r.fd = s.listenfd then 1 else 0 := by
  simp [St.listening, List.count_cons]

/-- A step that neither adds to those who wait nor takes one. -/
theorem Standing.congr (standing : Standing s) (listenfd : t.listenfd = s.listenfd)
    (registered : ∃ e ∈ t.entries s.listenfd, e.enableEt = true)
    (sockets : t.sockets s.listenfd = none)
    (draining : ∀ fd rest, t.ctl = .draining fd rest → fd ≠ s.listenfd)
    (backlog : t.backlog = s.backlog)
    (arrived : t.arrived = s.arrived) : Standing t where
  registered := listenfd ▸ registered
  closed := listenfd ▸ sockets
  draining := listenfd ▸ draining
  newest := by
    rw [backlog, arrived]
    exact standing.newest

theorem Standing.connects (standing : Standing s) (run : step v s .connects = some t) :
    Standing t ∧ Gauge.Move s.gauge t.gauge s.gauge.noticed.toNat := by
  obtain rfl := Option.some.inj run
  obtain ⟨e, mem, triggered⟩ := standing.registered
  have entry : s.entries s.listenfd = some e := mem
  obtain ⟨first, queue, total⟩ := standing.newest
  refine ⟨⟨⟨{ e with edge := true }, ?_, triggered⟩, standing.closed, standing.draining, first, ?_,
    ?_⟩, ?_⟩
  · simp [raised, entry]
  · rw [List.length_append, List.length_singleton, List.range'_concat, ← queue, one_mul, total]
  · simp only [List.length_append, List.length_singleton]
    omega
  · refine .arrives (List.length_append ..) (decide_eq_true ?_) rfl
    exact ⟨{ e with edge := true }, by simp [raised, entry], rfl⟩

/-- A step that takes nothing from those who wait and leaves their edge. -/
theorem Standing.idle (standing : Standing s) (listenfd : t.listenfd = s.listenfd)
    (entries : t.entries s.listenfd = s.entries s.listenfd)
    (sockets : t.sockets s.listenfd = s.sockets s.listenfd)
    (draining : ∀ fd rest, t.ctl = .draining fd rest → fd ≠ s.listenfd)
    (backlog : t.backlog = s.backlog)
    (arrived : t.arrived = s.arrived) (ahead : s.listening t.ctl.ahead = s.listening s.ctl.ahead) :
    Standing t ∧ Gauge.Move s.gauge t.gauge 0 := by
  constructor
  · apply standing.congr listenfd _ _ draining backlog arrived
    · rw [entries]
      exact standing.registered
    · rw [sockets]
      exact standing.closed
  · refine .idle (congrArg List.length backlog) ?_ ?_
    · show decide (t.Pending t.listenfd) = decide (s.Pending s.listenfd)
      congr 1
      rw [St.Pending, listenfd, entries, St.Pending]
    · show (t.ctl.ahead.map Report.fd).count t.listenfd = _
      rw [listenfd]
      exact ahead

theorem Standing.change (standing : Standing s) (connection : Nat)
    (f : Channel Byte → Channel Byte) : Standing (s.change connection f) ∧
      Gauge.Move s.gauge (s.change connection f).gauge 0 := by
  refine standing.idle rfl ?_ rfl standing.draining rfl rfl rfl
  simp [St.change, standing.closed]

theorem Control.Calling.ahead {ctl : Control} (calling : ctl.Calling) : ctl.ahead = [] := by
  cases ctl with
  | events rest =>
    cases rest with
    | nil => rfl
    | cons r rest => exact calling.elim
  | adding connfd rest => exact calling.elim
  | draining sockfd rest => exact calling.elim
  | left => exact calling.elim

/-- The edge of the listening socket is used up if it is reported. -/
theorem Standing.wait (standing : Standing s) {batch : List Report}
    (lawful : Lawful s (.wait batch)) (run : step v s (.wait batch) = some t) :
    Standing t ∧ Gauge.Move s.gauge t.gauge 0 := by
  obtain ⟨calling, nodup, due⟩ := lawful
  obtain rfl := Option.some.inj run
  have before : s.gauge.ahead = 0 := by
    show s.listening s.ctl.ahead = 0
    rw [calling.ahead]
    rfl
  obtain ⟨e, registered, triggered⟩ := standing.registered
  have entry : s.entries s.listenfd = some e := registered
  by_cases mem : s.listenfd ∈ batch.map Report.fd
  · have used : (if s.listenfd ∈ batch.map Report.fd then reported (s.entries s.listenfd)
        else s.entries s.listenfd) = some { e with edge := false } := by
      rw [if_pos mem, entry]
      rfl
    constructor
    · refine standing.congr rfl ?_ standing.closed (by simp) rfl rfl
      exact ⟨_, used, triggered⟩
    · obtain ⟨r, hr, same⟩ := List.mem_map.mp mem
      obtain ⟨e', mem', edge⟩ := (due r hr).1
      rw [same, entry] at mem'
      obtain rfl := Option.some.inj mem'
      rw [if_pos triggered] at edge
      refine .reported rfl (decide_eq_true ⟨e, entry, edge⟩) (decide_eq_false ?_) ?_
      · rintro ⟨after, mem', still⟩
        obtain rfl := Option.some.inj (used.symm.trans mem')
        cases still
      · rw [before]
        exact List.count_eq_one_of_mem nodup mem
  · refine standing.idle rfl (if_neg mem) rfl (by simp) rfl rfl ?_
    rw [calling.ahead]
    exact List.count_eq_zero.mpr mem

theorem Standing.accept (standing : Standing s) (ctl : s.ctl = .events (r :: rest))
    (listening : r.fd = s.listenfd) (answered : a.connfd = -1 ∨ Fresh s a.connfd)
    (run : acceptBranch s rest a = some t) :
    Standing t ∧ Gauge.Move s.gauge t.gauge (if a.connfd < 0 then 1 else 0) := by
  have events : s.gauge.ahead = s.listening rest + 1 := by
    show s.listening s.ctl.ahead = _
    rw [ctl]
    exact listening_cons.trans (by rw [if_pos listening])
  rcases acceptBranch_cases answered run with ⟨fresh, c, later, queue, rfl⟩ | ⟨failed, rfl⟩
  · obtain ⟨first, numbered, total⟩ := standing.newest
    rw [queue, List.length_cons] at total
    rw [queue, List.length_cons, List.range'_succ] at numbered
    obtain ⟨-, left⟩ := List.cons.inj numbered
    rw [if_neg (Int.not_lt.mpr fresh.1)]
    refine ⟨⟨standing.registered, ?_, ?_, first + 1, left, ?_⟩, ?_⟩
    · exact (Function.update_of_ne fresh.2.1.symm ..).trans standing.closed
    · simp
    · show first + 1 + later.length = s.arrived
      omega
    · refine .taken ?_ rfl events.symm
      show later.length + 1 = s.backlog.length
      rw [queue, List.length_cons]
  · have negative : a.connfd < 0 := by
      rw [failed]
      decide
    rw [if_pos negative]
    exact ⟨standing.congr rfl standing.registered standing.closed (by simp) rfl rfl,
      .failed rfl rfl events.symm⟩

/-- `addfd` changes nothing for a descriptor that is registered. -/
theorem addfd_listenfd (standing : Standing s) (connfd : Fd) (enableEt : Bool) :
    (s.addfd connfd enableEt).entries s.listenfd = s.entries s.listenfd := by
  unfold St.addfd
  split_ifs with new
  · have apart : s.listenfd ≠ connfd := by
      rintro rfl
      obtain ⟨e, entry, -⟩ := standing.registered
      rw [new.2] at entry
      cases entry
    exact Function.update_of_ne apart ..
  · rfl

theorem addfd_frame (connfd : Fd) (enableEt : Bool) :
    (s.addfd connfd enableEt).listenfd = s.listenfd ∧
      (s.addfd connfd enableEt).sockets = s.sockets ∧
      (s.addfd connfd enableEt).backlog = s.backlog ∧
      (s.addfd connfd enableEt).arrived = s.arrived := by
  unfold St.addfd
  split_ifs <;> exact ⟨rfl, rfl, rfl, rfl⟩

theorem Standing.add (standing : Standing s) {connfd : Fd} {enableEt : Bool}
    (ctl : s.ctl = .adding connfd rest) :
    Standing { s.addfd connfd enableEt with ctl := .events rest } ∧
      Gauge.Move s.gauge { s.addfd connfd enableEt with ctl := .events rest }.gauge 0 := by
  obtain ⟨listenfd, sockets, backlog, arrived⟩ :=
    addfd_frame (s := s) connfd enableEt
  refine standing.idle listenfd (addfd_listenfd standing connfd enableEt) (congrFun sockets _)
    (by simp) backlog arrived ?_
  rw [ctl]
  rfl

/-- A connection is closed and the loop goes on, in the same place or with the next event. -/
theorem Standing.close (standing : Standing s) (other : fd ≠ s.listenfd) {ctl : Control}
    (draining : ∀ fd rest, ctl = .draining fd rest → fd ≠ s.listenfd)
    (ahead : s.listening ctl.ahead = s.listening s.ctl.ahead) :
    Standing { s.close fd with ctl } ∧ Gauge.Move s.gauge { s.close fd with ctl }.gauge 0 :=
  standing.idle rfl (Function.update_of_ne other.symm ..) (Function.update_of_ne other.symm ..)
    draining rfl rfl ahead

/-- `recv` returns bytes, and the loop goes on. -/
theorem Standing.read (standing : Standing s) {n : Nat} {ctl : Control}
    (taken : s.consume fd n = some t)
    (draining : ∀ fd rest, ctl = .draining fd rest → fd ≠ s.listenfd)
    (ahead : s.listening ctl.ahead = s.listening s.ctl.ahead) :
    Standing { t with ctl } ∧ Gauge.Move s.gauge { t with ctl }.gauge 0 := by
  obtain ⟨x, -, rfl⟩ := consume_eq taken
  exact standing.idle rfl rfl rfl draining rfl rfl ahead

theorem Standing.body (standing : Standing s) (ctl : s.ctl = .events (r :: rest))
    (answered : Answered s a s.ctl) (run : body v s r rest a = some t) :
    Standing t ∧ Gauge.Move s.gauge t.gauge (missed s (.main a)) := by
  rw [ctl, Answered] at answered
  rw [missed, ctl]
  unfold TestEpoll.body at run
  split_ifs at run answered with listening readable
  · have same : (if r.fd = s.listenfd ∧ a.connfd < 0 then 1 else 0) =
        if a.connfd < 0 then 1 else 0 := by simp [listening]
    simp only [same]
    exact standing.accept ctl listening answered run
  all_goals
    have others : s.listening rest = s.listening s.ctl.ahead := by
      rw [ctl]
      exact (listening_cons.trans (by rw [if_neg listening, Nat.add_zero])).symm
    simp only [listening, false_and, if_false]
  · cases v with
    | lt =>
      simp only [ltBranch] at run
      split_ifs at run with ended
      · obtain rfl := Option.some.inj run
        exact standing.close listening (by simp) others
      · obtain ⟨u, taken, rfl⟩ := Option.map_eq_some_iff.mp run
        exact standing.read taken (by simp) others
    | et =>
      obtain rfl := Option.some.inj run
      refine standing.idle rfl rfl rfl ?_ rfl rfl others
      intro fd later same
      obtain ⟨rfl, -⟩ := Control.draining.inj same
      exact listening
  · obtain rfl := Option.some.inj run
    exact standing.idle rfl rfl rfl (by simp) rfl rfl others

theorem Standing.drain (standing : Standing s) (ctl : s.ctl = .draining fd rest)
    (run : etTurn s fd rest a = some t) :
    Standing t ∧ Gauge.Move s.gauge t.gauge 0 := by
  have other := standing.draining fd rest ctl
  have left : s.listening (Control.events rest).ahead = s.listening s.ctl.ahead := by
    rw [ctl]
    rfl
  unfold etTurn at run
  split at run
  · split_ifs at run
    · obtain rfl := Option.some.inj run
      exact standing.idle rfl rfl rfl (by simp) rfl rfl left
    · obtain rfl := Option.some.inj run
      exact standing.close other (by simp) left
  · split_ifs at run
    · obtain rfl := Option.some.inj run
      exact standing.close other standing.draining rfl
    · obtain ⟨x, -, rfl⟩ := consume_eq run
      exact standing.idle rfl rfl rfl standing.draining rfl rfl rfl

theorem Standing.step {input : Input} (standing : Standing s) (lawful : Lawful s input)
    (run : step v s input = some t) :
    Standing t ∧ Gauge.Move s.gauge t.gauge (missed s input) := by
  cases input with
  | connects => exact standing.connects run
  | arrives connection bytes =>
    obtain rfl := Option.some.inj run
    exact standing.change connection (·.send bytes)
  | finishes connection =>
    obtain rfl := Option.some.inj run
    exact standing.change connection (·.finish)
  | wait batch => exact standing.wait lawful run
  | waitFailed =>
    obtain rfl := Option.some.inj run
    have calling : s.ctl.Calling := lawful
    refine standing.idle rfl rfl rfl (by simp) rfl rfl ?_
    rw [calling.ahead]
    rfl
  | main a =>
    have answered : Answered s a s.ctl := lawful
    simp only [TestEpoll.step, mainStep] at run
    cases ctl : s.ctl with
    | left => simp [ctl] at run
    | adding connfd rest =>
      simp only [ctl, Option.some.injEq] at run
      subst run
      rw [missed, ctl]
      exact standing.add ctl
    | draining fd rest =>
      rw [ctl] at run
      rw [missed, ctl]
      exact standing.drain ctl run
    | events batch =>
      cases batch with
      | nil => simp [ctl] at run
      | cons r rest =>
        rw [ctl] at run
        exact standing.body ctl answered run

end Steps

theorem boot_standing {s : St} (h : Start s) : Standing s := by
  obtain ⟨listenfd, -, rfl⟩ := h
  exact ⟨⟨⟨true, false⟩, by simp [boot], rfl⟩, rfl, by simp [boot], 0, rfl, rfl⟩

theorem reachable_standing {v : Handler} {s : St} (h : (machine v).Reachable s) : Standing s := by
  apply h.invariant (fun s => boot_standing)
  exact fun s a t _ standing lawful run => (standing.step lawful run).1

theorem gauged (v : Handler) : Gauged (machine v) St.gauge missed where
  start := by
    rintro s ⟨listenfd, -, rfl⟩
    simp [St.gauge, St.Pending, St.listening, boot, Control.ahead]
  step s a t h lawful run := ((reachable_standing h).step lawful run).2

/-- With either handler and at every moment, those who wait for `accept` are the last ones that
connected, as many as there are edges pending or reported and not handled, and as many as the
steps so far left behind: nobody is accepted before that many others have come. -/
theorem newest_wait {v : Handler} {s : St} {steps : List (St × Input)}
    (h : (machine v).Run steps s) (c : Nat) :
    c ∈ s.backlog ↔ c < s.arrived ∧ s.arrived ≤ c + ((if s.Pending s.listenfd then 1 else 0) +
      s.listening s.ctl.ahead + (steps.map fun p => missed p.1 p.2).sum) := by
  obtain ⟨first, numbered, total⟩ := (reachable_standing h.reachable).newest
  have accounts : s.backlog.length = (decide (s.Pending s.listenfd)).toNat +
      s.listening s.ctl.ahead + (steps.map fun p => missed p.1 p.2).sum := (gauged v).accounts h
  have pending : (decide (s.Pending s.listenfd)).toNat = if s.Pending s.listenfd then 1 else 0 := by
    by_cases edge : s.Pending s.listenfd <;> simp [edge]
  rw [pending] at accounts
  rw [← accounts, numbered, List.mem_range'_1, List.length_range']
  omega

/-- Three connections come at once, of which the first is accepted. -/
def crowded : St := ((machine .lt).replay (boot 3) [.connects, .connects, .connects,
  .wait [⟨3, epollIn⟩], .main ⟨4, none, 0⟩, .main ⟨-1, none, 0⟩]).getD (boot 3)

theorem newest_wait_crowded : crowded.backlog = [1, 2] ∧ ∃ steps,
    (machine .lt).Run steps crowded ∧ (2 ∈ crowded.backlog ↔ 2 < crowded.arrived ∧
      crowded.arrived ≤ 2 + ((if crowded.Pending crowded.listenfd then 1 else 0) +
        crowded.listening crowded.ctl.ahead + (steps.map fun p => missed p.1 p.2).sum)) := by
  have start : (machine .lt).Reachable (boot 3) := .start ⟨3, by decide, rfl⟩
  obtain ⟨steps, run⟩ : (machine .lt).Reachable crowded := start.replay_getD _
  exact ⟨by decide +kernel, steps, run, newest_wait run 2⟩

end JiajiaNetwork.TestEpoll
