/- `lt` on blocking sockets. What an event tells of is still there when the event is handled, so
   that neither `accept` nor `recv` has to wait and the loop waits in `epoll_wait` only. -/
import JiajiaNetwork.TestEpoll.Backlog

set_option autoImplicit false
set_option relaxedAutoImplicit false

namespace JiajiaNetwork.TestEpoll

open Lib

/-- A connection waits for `accept` or is behind one descriptor. -/
structure Apart (s : St) : Prop where
  numbered : ∀ fd, ∀ x ∈ s.sockets fd, x.connection < s.arrived
  accepted : ∀ fd, ∀ x ∈ s.sockets fd, x.connection ∉ s.backlog
  single : ∀ fd fd', ∀ x ∈ s.sockets fd, ∀ y ∈ s.sockets fd',
    x.connection = y.connection → fd = fd'

structure Prompt (s : St) : Prop where
  attentive : Attentive s
  apart : Apart s
  outside : ∀ fd rest, s.ctl ≠ .draining fd rest

section Steps

variable {s t : St} {r : Report} {rest : List Report} {a : Answers} {fd : Fd}

/-- Sockets are closed at most, and nobody is added to those who wait. -/
theorem Apart.fewer (apart : Apart s) (sockets : ∀ fd, ∀ x ∈ t.sockets fd, x ∈ s.sockets fd)
    (backlog : t.backlog = s.backlog) (arrived : t.arrived = s.arrived) : Apart t where
  numbered fd x opened := arrived ▸ apart.numbered fd x (sockets fd x opened)
  accepted fd x opened := backlog ▸ apart.accepted fd x (sockets fd x opened)
  single fd fd' x opened y opened' :=
    apart.single fd fd' x (sockets fd x opened) y (sockets fd' y opened')

theorem Apart.connects (apart : Apart s) (backlog : t.backlog = s.backlog ++ [s.arrived])
    (arrived : t.arrived = s.arrived + 1) (sockets : t.sockets = s.sockets) : Apart t where
  numbered fd x opened := by
    rw [sockets] at opened
    have lower := apart.numbered fd x opened
    omega
  accepted fd x opened := by
    rw [sockets] at opened
    have lower := apart.numbered fd x opened
    rw [backlog, List.mem_append, List.mem_singleton, not_or]
    exact ⟨apart.accepted fd x opened, by omega⟩
  single := sockets ▸ apart.single

theorem Apart.accept (apart : Apart s) (standing : Standing s)
    (answered : a.connfd = -1 ∨ Fresh s a.connfd) (run : acceptBranch s rest a = some t) :
    Apart t := by
  rcases acceptBranch_cases answered run with ⟨-, c, later, queue, rfl⟩ | ⟨-, rfl⟩
  · obtain ⟨first, numbered, total⟩ := standing.newest
    have nodup : (c :: later).Nodup := by
      rw [← queue, numbered]
      exact List.nodup_range'
    have waits : c ∈ s.backlog := by
      rw [queue]
      exact List.mem_cons_self
    have lower : c < s.arrived := by
      rw [numbered, List.mem_range'_1] at waits
      omega
    have old : ∀ fd, ∀ x ∈ s.sockets fd, x.connection ≠ c := by
      rintro fd x opened rfl
      exact apart.accepted fd x opened waits
    constructor
    case numbered =>
      intro fd x opened
      rcases mem_accepted opened with ⟨-, rfl⟩ | ⟨-, before⟩
      · exact lower
      · exact apart.numbered fd x before
    case accepted =>
      intro fd x opened
      rcases mem_accepted opened with ⟨-, rfl⟩ | ⟨-, before⟩
      · exact (List.nodup_cons.mp nodup).1
      · intro mem
        exact apart.accepted fd x before (by rw [queue]; exact List.mem_cons_of_mem c mem)
    case single =>
      intro fd fd' x opened y opened' same
      rcases mem_accepted opened with ⟨rfl, rfl⟩ | ⟨-, before⟩
      · rcases mem_accepted opened' with ⟨rfl, -⟩ | ⟨-, before'⟩
        · rfl
        · exact absurd same.symm (old fd' y before')
      · rcases mem_accepted opened' with ⟨-, rfl⟩ | ⟨-, before'⟩
        · exact absurd same (old fd x before)
        · exact apart.single fd fd' x before y before' same
  · exact apart.fewer (fun _ _ => id) rfl rfl

/-- The descriptor of the event at hand comes once in the batch. -/
theorem Attentive.fd_ne (attentive : Attentive s) (ctl : s.ctl = .events (r :: rest)) :
    ∀ r' ∈ rest, r'.fd ≠ r.fd := by
  intro r' later same
  have distinct := attentive.distinct
  rw [ctl] at distinct
  exact (List.nodup_cons.mp distinct).1 (same ▸ List.mem_map_of_mem later)

theorem Prompt.close (prompt : Prompt s) (ctl : s.ctl = .events (r :: rest)) :
    Prompt { s.close r.fd with ctl := .events rest } where
  attentive := by
    refine prompt.attentive.goto rfl rfl (rest_touching ctl) (rest_ahead ctl) ?_ (by simp)
    intro r' later x opened
    have other := prompt.attentive.fd_ne ctl r' later
    simpa [St.close, other] using opened
  apart := by
    refine prompt.apart.fewer (fun fd x opened => ?_) rfl rfl
    have other : fd ≠ r.fd := by
      rintro rfl
      simp [St.close] at opened
    simpa [St.close, other] using opened
  outside := by simp

/-- Bytes of one connection are taken, and the events that are left are about others. -/
theorem Prompt.read (prompt : Prompt s) (ctl : s.ctl = .events (r :: rest)) {n : Nat}
    (taken : s.consume r.fd n = some t) : Prompt { t with ctl := .events rest } := by
  obtain ⟨y, opened, rfl⟩ := consume_eq taken
  refine ⟨⟨?_, ?_, by simp⟩, prompt.apart.fewer (fun _ _ => id) rfl rfl, by simp⟩
  · exact prompt.attentive.distinct.sublist (rest_touching ctl)
  · intro r' later readable other
    obtain ⟨x, mem, ready⟩ := prompt.attentive.ahead r' (rest_ahead ctl r' later) readable other
    have apart : x.connection ≠ y.connection := by
      intro same
      exact prompt.attentive.fd_ne ctl r' later (prompt.apart.single r'.fd r.fd x mem y opened same)
    exact ⟨x, mem, by simpa [apart] using ready⟩

/-- The loop goes on to what is left of the batch. -/
theorem Prompt.goto (prompt : Prompt s) {ctl : Control}
    (touching : ctl.touching.Sublist s.ctl.touching) (ahead : ∀ r ∈ ctl.ahead, r ∈ s.ctl.ahead)
    (outside : ∀ fd rest, ctl ≠ .draining fd rest) : Prompt { s with ctl } where
  attentive := prompt.attentive.goto rfl rfl touching ahead (fun _ _ _ => id) outside
  apart := prompt.apart.fewer (fun _ _ => id) rfl rfl
  outside := outside

theorem Prompt.body (prompt : Prompt s) (standing : Standing s)
    (ctl : s.ctl = .events (r :: rest)) (answered : Answered s a s.ctl)
    (run : body .lt s r rest a = some t) : Prompt t := by
  rw [ctl, Answered] at answered
  unfold TestEpoll.body at run
  split_ifs at run answered with listening readable
  · refine ⟨prompt.attentive.accept ctl answered run, prompt.apart.accept standing answered run, ?_⟩
    rcases acceptBranch_cases answered run with ⟨-, c, later, -, rfl⟩ | ⟨-, rfl⟩
    · simp
    · simp
  · simp only [ltBranch] at run
    split_ifs at run with ended
    · obtain rfl := Option.some.inj run
      exact prompt.close ctl
    · obtain ⟨u, taken, rfl⟩ := Option.map_eq_some_iff.mp run
      exact prompt.read ctl taken
  · obtain rfl := Option.some.inj run
    exact prompt.goto (rest_touching ctl) (rest_ahead ctl) (by simp)

theorem Prompt.add (prompt : Prompt s) {connfd : Fd} (ctl : s.ctl = .adding connfd rest) :
    Prompt { s.addfd connfd (Handler.lt = .et) with ctl := .events rest } := by
  obtain ⟨listenfd, sockets, backlog, arrived⟩ := addfd_frame (s := s) connfd (Handler.lt = .et)
  have streams : (s.addfd connfd (Handler.lt = .et)).streams = s.streams := by
    unfold St.addfd
    split_ifs <;> rfl
  refine ⟨prompt.attentive.goto listenfd streams ?_ ?_ ?_ (by simp), ?_, by simp⟩
  · rw [ctl]
    exact List.Sublist.refl _
  · rw [ctl]
    exact fun _ => id
  · exact fun r' _ x opened => sockets ▸ opened
  · exact prompt.apart.fewer (fun fd x opened => sockets ▸ opened) backlog arrived

theorem Prompt.step {input : Input} (prompt : Prompt s) (standing : Standing s)
    (lawful : Lawful s input) (run : step .lt s input = some t) : Prompt t := by
  cases input with
  | connects =>
    obtain rfl := Option.some.inj run
    exact ⟨prompt.attentive.keeps rfl rfl rfl fun _ => id, prompt.apart.connects rfl rfl rfl,
      prompt.outside⟩
  | arrives connection bytes =>
    obtain rfl := Option.some.inj run
    exact ⟨prompt.attentive.change connection fun x ready => ready.send bytes,
      prompt.apart.fewer (fun _ _ => id) rfl rfl, prompt.outside⟩
  | finishes connection =>
    obtain rfl := Option.some.inj run
    exact ⟨prompt.attentive.change connection fun x _ => Ready.finish,
      prompt.apart.fewer (fun _ _ => id) rfl rfl, prompt.outside⟩
  | wait batch =>
    obtain rfl := Option.some.inj run
    obtain ⟨-, distinct, truthful⟩ := lawful
    refine ⟨⟨distinct, ?_, by simp⟩, prompt.apart.fewer (fun _ _ => id) rfl rfl, by simp⟩
    intro r hr readable other
    have some := (truthful r hr).2.mp readable
    rw [St.readable, if_neg other, Option.any_eq_true] at some
    obtain ⟨x, opened, ready⟩ := some
    exact ⟨x, opened, of_decide_eq_true ready⟩
  | waitFailed =>
    obtain rfl := Option.some.inj run
    exact ⟨.idle rfl rfl, prompt.apart.fewer (fun _ _ => id) rfl rfl, by simp⟩
  | main a =>
    simp only [TestEpoll.step, mainStep] at run
    cases ctl : s.ctl with
    | left => simp [ctl] at run
    | adding connfd rest =>
      simp only [ctl, Option.some.injEq] at run
      subst run
      exact prompt.add ctl
    | draining fd rest => exact absurd ctl (prompt.outside fd rest)
    | events batch =>
      cases batch with
      | nil => simp [ctl] at run
      | cons r rest =>
        rw [ctl] at run
        exact prompt.body standing ctl lawful run

end Steps

theorem reachable_prompt {s : St} (h : (machine .lt).Reachable s) : Prompt s := by
  apply h.invariant
  · rintro s ⟨listenfd, -, rfl⟩
    exact ⟨.idle rfl rfl, ⟨fun _ _ => by simp [boot], fun _ _ => by simp [boot],
      fun _ _ _ => by simp [boot]⟩, by simp [boot]⟩
  · exact fun s a t reach prompt lawful run => prompt.step (reachable_standing reach) lawful run

/-- In every run with `lt`, a connection waits when `accept` is called, and bytes or the end of the
stream when `recv` is. -/
theorem lt_never_waits {s : St} (h : (machine .lt).Reachable s) {r : Report} {rest : List Report}
    (ctl : s.ctl = .events (r :: rest)) :
    if r.fd = s.listenfd then s.backlog ≠ []
    else has r.events epollIn → ∃ x ∈ s.sockets r.fd, Ready (s.streams x.connection) := by
  split_ifs with listening
  · obtain ⟨steps, run⟩ := h
    have accounts := (gauged .lt).accounts run
    have ahead : s.gauge.ahead = s.listening rest + 1 := by
      show s.listening s.ctl.ahead = _
      rw [ctl]
      exact listening_cons.trans (by rw [if_pos listening])
    have queued : s.backlog.length = s.gauge.noticed.toNat + s.gauge.ahead + _ := accounts
    rw [ahead] at queued
    exact List.ne_nil_of_length_pos (by omega)
  · intro readable
    have mem : r ∈ s.ctl.ahead := by
      rw [ctl]
      exact List.mem_cons_self
    exact (reachable_prompt h).attentive.ahead r mem readable listening

/-- Two connections are made; one byte arrives on the first one and both are told of. -/
def told : St := ((machine .lt).replay (boot 3) [.connects, .wait [⟨3, epollIn⟩],
  .main ⟨5, none, 0⟩, .main ⟨-1, none, 0⟩, .connects, .arrives 0 [104],
  .wait [⟨5, epollIn⟩, ⟨3, epollIn⟩]]).getD (boot 3)

theorem lt_never_waits_told : (∃ x ∈ told.sockets 5, Ready (told.streams x.connection)) ∧
    ∃ s, (machine .lt).Reachable s ∧ s.ctl.next?.map Report.fd = some 3 ∧ s.backlog ≠ [] := by
  have start : (machine .lt).Reachable (boot 3) := .start ⟨3, by decide, rfl⟩
  have reach : (machine .lt).Reachable told := start.replay_getD _
  have first := lt_never_waits reach (r := ⟨5, epollIn⟩) rfl
  rw [if_neg (by decide +kernel)] at first
  have next : (machine .lt).Reachable (((machine .lt).replay told
    [.main ⟨-1, some [104], 0⟩]).getD told) := reach.replay_getD _
  have second := lt_never_waits next (r := ⟨3, epollIn⟩) rfl
  rw [if_pos (by decide +kernel)] at second
  exact ⟨first (by decide), _, next, by decide +kernel, second⟩

end JiajiaNetwork.TestEpoll
