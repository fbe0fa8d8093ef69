/- What waits at the listening socket and at the datagram socket of `test_tcp_udp_server.c`. Both
   are edge-triggered, and an edge lets one connection or one datagram be taken. -/
import JiajiaNetwork.Lib.Backlog
import JiajiaNetwork.TcpUdp.Edges

set_option autoImplicit false
set_option relaxedAutoImplicit false

namespace JiajiaNetwork.TcpUdp

open Lib

/-- The two descriptors that are registered before the loop. -/
inductive Queue
  | connections
  | datagrams
  deriving DecidableEq

def St.fdOf (s : St) : Queue → Fd
  | .connections => s.listenfd
  | .datagrams => s.udpfd

def St.lengthOf (s : St) : Queue → Nat
  | .connections => s.backlog
  | .datagrams => s.datagrams.length

/-- How many of the events that are left are about the descriptor. -/
def aheadOf (reports : List Report) (fd : Fd) : Nat := (reports.map Report.fd).count fd

def St.gauge (k : Queue) (s : St) : Gauge where
  queued := s.lengthOf k
  noticed := s.entries (s.fdOf k) = some true
  ahead := aheadOf s.ctl.ahead (s.fdOf k)

/-- The handler of an event leaves something behind when its call fails, or when it leaves the `for`
loop with an event of the queue still to come. -/
def missedBy (k : Queue) (s : St) (r : Report) (rest : List Report) (a : Answers) : Nat :=
  if r.fd = s.fdOf k then if taken s r a = 0 then 1 else 0
  else if has r.events epollIn ∧ Breaks s r a then aheadOf rest (s.fdOf k)
  else 0

/-- So does an arrival while an edge is pending, which raises no other one. -/
def missed (k : Queue) (s : St) : Input → Nat
  | .connects => if k = .connections then (s.gauge k).noticed.toNat else 0
  | .sends _ => if k = .datagrams then (s.gauge k).noticed.toNat else 0
  | .main a =>
    match s.ctl with
    | .events (r :: rest) => missedBy k s r rest a
    | .events [] | .adding _ _ | .left => 0
  | .arrives _ _ | .finishes _ | .wait _ | .waitFailed => 0

/-- The two descriptors stay registered and are none of the connections. -/
structure Standing (s : St) : Prop where
  distinct : s.listenfd ≠ s.udpfd
  registered : ∀ k, (s.entries (s.fdOf k)).isSome
  closed : ∀ k, s.sockets (s.fdOf k) = none

section Steps

variable {s t : St} {k : Queue} {r : Report} {rest : List Report} {a : Answers} {fd : Fd}

theorem aheadOf_cons : aheadOf (r :: rest) fd = aheadOf rest fd + if r.fd = fd then 1 else 0 := by
  simp [aheadOf, List.count_cons]

/-- The event at hand and those behind it. -/
theorem gauge_ahead (ctl : s.ctl = .events (r :: rest)) :
    (s.gauge k).ahead = aheadOf rest (s.fdOf k) + if r.fd = s.fdOf k then 1 else 0 := by
  show aheadOf s.ctl.ahead (s.fdOf k) = _
  rw [ctl]
  exact aheadOf_cons

theorem gauge_ahead_of_ne (ctl : s.ctl = .events (r :: rest)) (other : r.fd ≠ s.fdOf k) :
    (s.gauge k).ahead = aheadOf rest (s.fdOf k) := by
  rw [gauge_ahead ctl, if_neg other, Nat.add_zero]

theorem fdOf_congr (listenfd : t.listenfd = s.listenfd) (udpfd : t.udpfd = s.udpfd) :
    t.fdOf k = s.fdOf k := by
  cases k with
  | connections => exact listenfd
  | datagrams => exact udpfd

theorem Standing.congr (standing : Standing s) (listenfd : t.listenfd = s.listenfd)
    (udpfd : t.udpfd = s.udpfd)
    (entries : ∀ k, (s.entries (s.fdOf k)).isSome → (t.entries (s.fdOf k)).isSome)
    (sockets : ∀ k, t.sockets (s.fdOf k) = s.sockets (s.fdOf k)) : Standing t := by
  refine ⟨listenfd ▸ udpfd ▸ standing.distinct, fun k => ?_, fun k => ?_⟩
  · rw [fdOf_congr listenfd udpfd]
    exact entries k (standing.registered k)
  · rw [fdOf_congr listenfd udpfd, sockets]
    exact standing.closed k

theorem raise_isSome (s : St) (fd x : Fd) :
    ((s.raise fd).entries x).isSome = (s.entries x).isSome := by
  by_cases same : x = fd
  · subst same
    simp [St.raise]
  · rw [raise_of_ne same]

theorem Standing.raise (standing : Standing s) (fd : Fd) : Standing (s.raise fd) :=
  standing.congr rfl rfl (fun k some => by rw [raise_isSome]; exact some) fun _ => rfl

/-- An arrival at a queue. -/
theorem Standing.arrives (standing : Standing s) (here : s.fdOf k = fd)
    (more : t.lengthOf k = s.lengthOf k + 1) (ctl : t.ctl = s.ctl) (fds : t.fdOf k = s.fdOf k)
    (entries : t.entries = s.entries) :
    Gauge.Move (s.gauge k) ((t.raise fd).gauge k) (s.gauge k).noticed.toNat := by
  obtain ⟨edge, entry⟩ := Option.isSome_iff_exists.mp (standing.registered k)
  refine .arrives more ?_ ?_
  · have pending : (t.raise fd).entries (t.fdOf k) = some true := by
      rw [fds, ← here]
      simp [St.raise, entries, entry]
    exact decide_eq_true pending
  · show aheadOf t.ctl.ahead (t.fdOf k) = _
    rw [ctl, fds]
    rfl

/-- An arrival elsewhere. -/
theorem idle_raise (apart : s.fdOf k ≠ fd) : Gauge.Move (s.gauge k) ((s.raise fd).gauge k) 0 := by
  refine .idle rfl ?_ rfl
  show decide ((s.raise fd).entries (s.fdOf k) = some true) = _
  rw [raise_of_ne apart]
  rfl

theorem Standing.unsent (standing : Standing s) (sending : Sending s fd) : s.fdOf k ≠ fd := by
  rintro rfl
  obtain ⟨x, opened, -⟩ := sending
  rw [standing.closed k] at opened
  cases opened

theorem Standing.change (standing : Standing s) (sending : Sending s fd)
    (f : Channel Byte → Channel Byte) : Standing (s.change fd f) := by
  refine standing.congr rfl rfl (fun _ => id) fun k => ?_
  exact Function.update_of_ne (standing.unsent sending) ..

theorem Standing.queued (standing : Standing s) : s.queued (s.fdOf k) = s.lengthOf k := by
  cases k with
  | connections => exact if_pos rfl
  | datagrams => exact (if_neg standing.distinct.symm).trans (if_pos rfl)

/-- The edges of the descriptors reported are used up. -/
theorem Standing.wait (standing : Standing s) {batch : List Report}
    (lawful : Lawful s (.wait batch)) (run : step s (.wait batch) = some t) :
    Standing t ∧ Gauge.Move (s.gauge k) (t.gauge k) 0 := by
  obtain ⟨calling, nodup, due⟩ := lawful
  obtain rfl := Option.some.inj run
  have before : (s.gauge k).ahead = 0 := by
    show aheadOf s.ctl.ahead _ = 0
    rw [calling.ahead]
    rfl
  constructor
  · refine standing.congr rfl rfl (fun k some => ?_) fun _ => rfl
    simp only
    split_ifs
    · simpa using some
    · exact some
  · by_cases mem : s.fdOf k ∈ batch.map Report.fd
    · obtain ⟨r, hr, same⟩ := List.mem_map.mp mem
      have edge : s.entries (s.fdOf k) = some true := same ▸ (due r hr).edge
      have used : (if s.fdOf k ∈ batch.map Report.fd then (s.entries (s.fdOf k)).map fun _ => false
          else s.entries (s.fdOf k)) = some false := by
        rw [if_pos mem, edge]
        rfl
      refine .reported rfl (decide_eq_true edge) (decide_eq_false fun still => ?_) ?_
      · cases used.symm.trans still
      · rw [before]
        exact List.count_eq_one_of_mem nodup mem
    · refine .idle rfl ?_ ?_
      · show decide ((if s.fdOf k ∈ batch.map Report.fd then _ else s.entries (s.fdOf k)) =
          some true) = _
        rw [if_neg mem]
        rfl
      · rw [before]
        exact List.count_eq_zero.mpr mem

/-- A handler that goes on to the next event. -/
theorem Takes.move (takes : Takes s t r rest a) (ctl : s.ctl = .events (r :: rest))
    (before : Standing s) (after : Standing t) (fds : t.fdOf k = s.fdOf k)
    (others : r.fd ≠ s.fdOf k → t.lengthOf k = s.lengthOf k)
    (one : r.fd = s.fdOf k → taken s r a ≤ 1) (goes : has r.events epollIn → ¬ Breaks s r a) :
    Gauge.Move (s.gauge k) (t.gauge k) (missedBy k s r rest a) := by
  have noticed : (t.gauge k).noticed = (s.gauge k).noticed := by
    show decide (t.entries (t.fdOf k) = some true) = _
    rw [takes.entries, fds]
    rfl
  have events := gauge_ahead (k := k) ctl
  have left : (t.gauge k).ahead = aheadOf rest (s.fdOf k) := by
    show aheadOf t.ctl.ahead (t.fdOf k) = _
    rw [takes.ahead, fds]
  unfold missedBy
  by_cases own : r.fd = s.fdOf k
  · rw [if_pos own] at events ⊢
    have balance : t.lengthOf k + taken s r a = s.lengthOf k := by
      have sum := takes.rest
      rw [own, before.queued, ← fds, after.queued] at sum
      exact sum
    have bound := one own
    split_ifs with none
    · rw [none, Nat.add_zero] at balance
      exact .failed balance noticed (by rw [left, events])
    · have single : taken s r a = 1 := by omega
      rw [single] at balance
      exact .taken balance noticed (by rw [left, events])
  · rw [if_neg own] at events ⊢
    rw [if_neg fun breaks => goes breaks.1 breaks.2]
    exact .idle (others own) noticed (by rw [left, events, Nat.add_zero])

theorem Standing.acceptBranch (standing : Standing s)
    (answered : a.connfd = -1 ∨ Fresh s a.connfd) : Standing (acceptBranch s rest a) := by
  unfold TcpUdp.acceptBranch
  split_ifs with accepted
  · refine standing.congr rfl rfl (fun _ => id) fun k => ?_
    have apart : s.fdOf k ≠ a.connfd := by
      rcases answered with failed | fresh
      · rw [failed] at accepted
        exact absurd accepted (by decide)
      · cases k with
        | connections => exact fresh.2.1.symm
        | datagrams => exact fresh.2.2.1.symm
    exact Function.update_of_ne apart ..
  · exact standing.congr rfl rfl (fun _ => id) fun _ => rfl

theorem Standing.accepts (standing : Standing s) (ctl : s.ctl = .events (r :: rest))
    (listening : r.fd = s.listenfd) (answered : a.connfd = -1 ∨ Fresh s a.connfd) :
    Standing (TcpUdp.acceptBranch s rest a) ∧ Gauge.Move (s.gauge k)
      ((TcpUdp.acceptBranch s rest a).gauge k) (missedBy k s r rest a) := by
  have after : Standing (TcpUdp.acceptBranch s rest a) := standing.acceptBranch answered
  refine ⟨after, (acceptBranch_takes listening answered).move ctl standing after ?_ ?_ ?_ ?_⟩
  · unfold TcpUdp.acceptBranch
    split_ifs
    · exact fdOf_congr rfl rfl
    · exact fdOf_congr rfl rfl
  · intro other
    cases k with
    | connections => exact absurd listening other
    | datagrams =>
      unfold TcpUdp.acceptBranch
      split_ifs <;> rfl
  · intro _
    rw [taken, if_pos listening]
    split_ifs <;> omega
  · exact fun _ breaks => breaks.apart.1 listening

theorem Standing.receives (standing : Standing s) (ctl : s.ctl = .events (r :: rest))
    (apart : r.fd ≠ s.listenfd) (udp : r.fd = s.udpfd) (run : udpBranch s rest a = some t) :
    Standing t ∧ Gauge.Move (s.gauge k) (t.gauge k) (missedBy k s r rest a) := by
  have takes := udpBranch_takes apart udp run
  obtain ⟨listenfd, udpfd, sockets, backlog⟩ : t.listenfd = s.listenfd ∧ t.udpfd = s.udpfd ∧
      t.sockets = s.sockets ∧ t.backlog = s.backlog := by
    unfold udpBranch at run
    split at run
    · obtain rfl := Option.some.inj run
      exact ⟨rfl, rfl, rfl, rfl⟩
    · split at run
      · cases run
      · obtain rfl := Option.some.inj run
        exact ⟨rfl, rfl, rfl, rfl⟩
  have after : Standing t := by
    refine standing.congr listenfd udpfd (fun k => ?_) fun k => congrFun sockets _
    rw [takes.entries]
    exact id
  refine ⟨after, takes.move ctl standing after (fdOf_congr listenfd udpfd) ?_ ?_ ?_⟩
  · intro other
    cases k with
    | connections => exact backlog
    | datagrams => exact absurd udp other
  · intro _
    rw [taken, if_neg apart, if_pos udp]
    split_ifs <;> omega
  · exact fun _ breaks => breaks.apart.2 udp

/-- `giveUp` forgets the events that are left. -/
theorem Standing.quits (standing : Standing s) (others : ∀ j, s.fdOf j ≠ fd) :
    Standing (giveUp s fd) ∧ Gauge.Move (s.gauge k) ((giveUp s fd).gauge k) (s.gauge k).ahead := by
  unfold giveUp
  split_ifs
  · exact ⟨standing.congr rfl rfl (fun _ => id) fun _ => rfl, .forgotten rfl rfl rfl⟩
  · have entries : ∀ j, (s.close fd).entries (s.fdOf j) = s.entries (s.fdOf j) :=
      fun j => Function.update_of_ne (others j) ..
    refine ⟨standing.congr rfl rfl (fun j => ?_) fun j => Function.update_of_ne (others j) .., ?_⟩
    · show _ → ((s.close fd).entries (s.fdOf j)).isSome
      rw [entries]
      exact id
    · refine .forgotten rfl ?_ rfl
      show decide ((s.close fd).entries (s.fdOf k) = some true) = _
      rw [entries]
      rfl

theorem Standing.serves (standing : Standing s) (ctl : s.ctl = .events (r :: rest))
    (apart : r.fd ≠ s.listenfd) (unbound : r.fd ≠ s.udpfd) (readable : has r.events epollIn)
    (answered : ∀ bytes ∈ a.recv, ∃ x ∈ s.sockets r.fd, x.stream.Yields bytes)
    (run : tcpBranch s r.fd rest a = some t) :
    Standing t ∧ Gauge.Move (s.gauge k) (t.gauge k) (missedBy k s r rest a) := by
  have others : ∀ j, s.fdOf j ≠ r.fd := by
    intro j
    cases j with
    | connections => exact apart.symm
    | datagrams => exact unbound.symm
  -- what is left of the batch is forgotten
  have breaks : (a.recv.getD []).length = 0 →
      missedBy k s r rest a = (s.gauge k).ahead := by
    intro none
    rw [missedBy, if_neg (others k).symm, if_pos ⟨readable, ⟨apart, unbound⟩, none⟩,
      gauge_ahead_of_ne ctl (others k).symm]
  cases answer : a.recv with
  | none =>
    have none : (a.recv.getD []).length = 0 := by simp [answer]
    simp only [tcpBranch, answer, Option.some.injEq] at run
    subst run
    have failed : Standing { s with errno := a.errno } :=
      standing.congr rfl rfl (fun _ => id) fun _ => rfl
    obtain ⟨after, move⟩ := failed.quits (k := k) others
    rw [breaks none]
    exact ⟨after, move⟩
  | some bytes =>
    by_cases ended : bytes.length = 0
    · have none : (a.recv.getD []).length = 0 := by simp [answer, ended]
      simp only [tcpBranch, answer, if_pos ended, Option.some.injEq] at run
      subst run
      rw [breaks none]
      exact standing.quits others
    · have takes := tcpBranch_takes apart unbound answer ended (answered bytes answer) run
      obtain ⟨x, opened, -⟩ := answered bytes answer
      have socket : s.sockets r.fd = some x := opened
      simp only [tcpBranch, answer, if_neg ended, socket, Option.map_some, Option.some.injEq] at run
      subst run
      have after := standing.congr (t := { s.change r.fd (·.consume bytes.length) with
          ctl := .events rest
          log := s.log ++ [.received x.connection bytes, .sent x.connection
            ((overlay bytes (List.replicate tcpBufferSize 0)).take bytes.length)] })
        rfl rfl (fun _ => id) fun j => Function.update_of_ne (others j) ..
      refine ⟨after, takes.move ctl standing after (fdOf_congr rfl rfl) ?_ ?_ ?_⟩
      · intro _
        cases k <;> rfl
      · exact fun own => absurd own (others k).symm
      · intro _ stops
        have none := stops.none
        rw [answer] at none
        exact ended none

theorem Standing.body (standing : Standing s) (ctl : s.ctl = .events (r :: rest))
    (answered : Answered s r a) (run : body s r rest a = some t) :
    Standing t ∧ Gauge.Move (s.gauge k) (t.gauge k) (missedBy k s r rest a) := by
  unfold TcpUdp.body at run
  unfold Answered at answered
  split_ifs at run answered with listening udp readable
  · obtain rfl := Option.some.inj run
    exact standing.accepts ctl listening answered
  · exact standing.receives ctl listening udp run
  · exact standing.serves ctl listening udp readable (fun bytes got => (answered bytes got).2) run
  · obtain rfl := Option.some.inj run
    refine ⟨standing.congr rfl rfl (fun _ => id) fun _ => rfl, ?_⟩
    have own : r.fd ≠ s.fdOf k := by
      cases k with
      | connections => exact listening
      | datagrams => exact udp
    rw [missedBy, if_neg own, if_neg fun breaks => readable breaks.1]
    exact .idle rfl rfl (gauge_ahead_of_ne ctl own).symm

/-- `addfd` changes nothing for a descriptor that is registered. -/
theorem Standing.addfd (standing : Standing s) {connfd : Fd} (ctl : s.ctl = .adding connfd rest) :
    Standing { s.addfd connfd with ctl := .events rest } ∧
      Gauge.Move (s.gauge k) ({ s.addfd connfd with ctl := .events rest }.gauge k) 0 := by
  have ahead : (s.gauge k).ahead = aheadOf rest (s.fdOf k) := by
    show aheadOf s.ctl.ahead (s.fdOf k) = _
    rw [ctl]
    rfl
  unfold St.addfd
  split_ifs with closed registered
  · exact ⟨standing.congr rfl rfl (fun _ => id) fun _ => rfl, .idle rfl rfl ahead.symm⟩
  · exact ⟨standing.congr rfl rfl (fun _ => id) fun _ => rfl, .idle rfl rfl ahead.symm⟩
  · have apart : ∀ j, s.fdOf j ≠ connfd := by
      rintro j rfl
      exact registered (standing.registered j)
    have entries : ∀ j, Function.update s.entries connfd (some (s.readable connfd)) (s.fdOf j) =
        s.entries (s.fdOf j) := fun j => Function.update_of_ne (apart j) ..
    refine ⟨standing.congr rfl rfl (fun j => ?_) fun _ => rfl, .idle rfl ?_ ahead.symm⟩
    · simp only [entries]
      exact id
    · show decide (Function.update s.entries connfd _ (s.fdOf k) = some true) = _
      rw [entries]
      rfl

theorem Standing.step {input : Input} (standing : Standing s) (lawful : Lawful s input)
    (run : step s input = some t) :
    Standing t ∧ Gauge.Move (s.gauge k) (t.gauge k) (missed k s input) := by
  cases input with
  | connects =>
    obtain rfl := Option.some.inj run
    have after : Standing { s with backlog := s.backlog + 1 } :=
      standing.congr rfl rfl (fun _ => id) fun _ => rfl
    refine ⟨after.raise _, ?_⟩
    cases k with
    | connections => exact standing.arrives rfl rfl rfl rfl rfl
    | datagrams => exact idle_raise (k := .datagrams) standing.distinct.symm
  | sends d =>
    obtain rfl := Option.some.inj run
    have after : Standing { s with datagrams := s.datagrams ++ [d] } :=
      standing.congr rfl rfl (fun _ => id) fun _ => rfl
    refine ⟨after.raise _, ?_⟩
    cases k with
    | connections => exact idle_raise (k := .connections) standing.distinct
    | datagrams => exact standing.arrives rfl (List.length_append ..) rfl rfl rfl
  | arrives fd bytes =>
    obtain rfl := Option.some.inj run
    have after := standing.change lawful (·.send bytes)
    exact ⟨after.raise fd, idle_raise (s := s.change fd (·.send bytes)) (standing.unsent lawful)⟩
  | finishes fd =>
    obtain rfl := Option.some.inj run
    have after := standing.change lawful (·.finish)
    exact ⟨after.raise fd, idle_raise (s := s.change fd (·.finish)) (standing.unsent lawful)⟩
  | wait batch => exact standing.wait lawful run
  | waitFailed =>
    obtain rfl := Option.some.inj run
    have calling : s.ctl.Calling := lawful
    refine ⟨standing.congr rfl rfl (fun _ => id) fun _ => rfl, .idle rfl rfl ?_⟩
    show aheadOf [] (s.fdOf k) = aheadOf s.ctl.ahead (s.fdOf k)
    rw [calling.ahead]
  | main a =>
    have answered : ∀ r ∈ s.ctl.next?, Answered s r a := lawful
    simp only [TcpUdp.step, mainStep] at run
    cases ctl : s.ctl with
    | left => simp [ctl] at run
    | adding connfd rest =>
      simp only [ctl, Option.some.injEq] at run
      subst run
      rw [missed, ctl]
      exact standing.addfd ctl
    | events batch =>
      cases batch with
      | nil => simp [ctl] at run
      | cons r rest =>
        rw [ctl] at run
        rw [missed, ctl]
        exact standing.body ctl (answered r (by rw [ctl]; rfl)) run

end Steps

theorem boot_standing {s : St} (h : Start s) : Standing s := by
  obtain ⟨listenfd, udpfd, -, -, distinct, rfl⟩ := h
  refine ⟨distinct, fun k => ?_, fun _ => rfl⟩
  cases k <;> simp [St.fdOf, boot]

theorem reachable_standing {s : St} (h : machine.Reachable s) : Standing s := by
  apply h.invariant (fun s => boot_standing)
  intro s a t _ standing lawful run
  exact (standing.step (k := .connections) lawful run).1

theorem gauged (k : Queue) : Gauged machine (St.gauge k) (missed k) where
  start := by
    rintro s ⟨listenfd, udpfd, -, -, -, rfl⟩
    cases k <;> simp [St.gauge, St.lengthOf, St.fdOf, boot, aheadOf, Control.ahead]
  step s a t h lawful run := ((reachable_standing h).step lawful run).2

/-- In every run, what waits at the two sockets are as many connections or datagrams as there are
edges pending or reported and not handled, and as many as the steps so far left behind; those wait
for ever, or others in their place. -/
theorem left_behind_for_ever {s : St} {steps : List (St × Input)} (h : machine.Run steps s)
    (k : Queue) :
    s.lengthOf k = (if s.entries (s.fdOf k) = some true then 1 else 0) +
      aheadOf s.ctl.ahead (s.fdOf k) + (steps.map fun p => missed k p.1 p.2).sum ∧
    ∀ later t, (machine.after s).Run later t → s.ctl.Calling → s.entries (s.fdOf k) ≠ some true →
      s.lengthOf k ≤ t.lengthOf k := by
  constructor
  · have accounts : s.lengthOf k = (decide (s.entries (s.fdOf k) = some true)).toNat +
        aheadOf s.ctl.ahead (s.fdOf k) + missedIn (missed k) steps := (gauged k).accounts h
    rw [accounts, missedIn]
    by_cases pending : s.entries (s.fdOf k) = some true <;> simp [pending]
  · intro later t more calling quiet
    have fewer := (gauged k).never_fewer h more
    have noticed : (s.gauge k).noticed = false := decide_eq_false quiet
    have ahead : (s.gauge k).ahead = 0 := by
      show aheadOf s.ctl.ahead _ = 0
      rw [calling.ahead]
      rfl
    rw [noticed, ahead] at fewer
    exact fewer

/-- Two datagrams at once, of which one is answered. -/
def lagging : St := (machine.replay (boot 3 4)
  [.sends ⟨⟨7, 1⟩, [33]⟩, .sends ⟨⟨7, 1⟩, [34]⟩, .wait [⟨4, epollIn⟩],
    .main ⟨-1, some [33], 0⟩]).getD (boot 3 4)

instance (s₀ s : St) (a : Input) : Decidable ((machine.after s₀).Lawful s a) :=
  inferInstanceAs (Decidable (Lawful s a))

/-- The next one makes the server answer the one before. -/
theorem left_behind_for_ever_lagging : ∃ t, machine.Reachable t ∧ t.log.length = 4 ∧
    lagging.lengthOf .datagrams ≤ t.lengthOf .datagrams := by
  have start : machine.Reachable (boot 3 4) :=
    .start ⟨3, 4, by decide, by decide, by decide, rfl⟩
  obtain ⟨steps, run⟩ : machine.Reachable lagging := start.replay_getD _
  have again : (machine.after lagging).Reachable lagging := .start rfl
  obtain ⟨t, ⟨later, more⟩, answered⟩ := again.of_replay (p := fun t : St => t.log.length == 4)
    [.sends ⟨⟨7, 1⟩, [35]⟩, .wait [⟨4, epollIn⟩], .main ⟨-1, some [34], 0⟩] (by decide +kernel)
  have behind := (left_behind_for_ever run .datagrams).2 later t more
  exact ⟨t, ⟨_, run.append more⟩, eq_of_beq answered,
    behind (by decide +kernel) (by decide +kernel)⟩

end JiajiaNetwork.TcpUdp
