/- Batches of the combined server. Each step of the `for` loop handles the first of the events
   that are left; a connection that `recv` finds at its end or broken leaves the loop, and the
   events behind it are never handled. -/
import JiajiaNetwork.Lib.History
import JiajiaNetwork.TcpUdp.Echo
import JiajiaNetwork.TcpUdp.Edges

set_option autoImplicit false
set_option relaxedAutoImplicit false

namespace JiajiaNetwork.TcpUdp

open Lib Machine

/-- The events that a step brings from `epoll_wait`. -/
def fetched? : St × Input → Option (List Report)
  | (_, .wait batch) => some batch
  | _ => none

/-- The event whose branch a step executes. -/
def handled? : St × Input → Option Report
  | (s, .main _) => s.ctl.next?
  | _ => none

def lastBatch (steps : List (St × Input)) : List Report := (lastMark fetched? steps).getD []

/-- The events handled since the last `epoll_wait`. -/
def handled (steps : List (St × Input)) : List Report :=
  (sinceLast fetched? steps).filterMap handled?

/-- Before the next `epoll_wait` every event of the batch is handled, once and in order. -/
def BatchHandled (steps : List (St × Input)) (s : St) : Prop :=
  s.ctl.Calling → handled steps = lastBatch steps

/-- A connection at its end or broken is the last event of its batch. -/
def BreaksLast (s : St) : Input → Prop
  | .main a => ∀ r ∈ s.ctl.next?, has r.events epollIn → Breaks s r a → s.ctl.ahead.tail = []
  | _ => True

/-- The events handled and those ahead make up the batch. -/
def BatchKept (steps : List (St × Input)) (s : St) : Prop :=
  handled steps ++ s.ctl.ahead = lastBatch steps

section Steps

variable {steps : List (St × Input)} {s t : St} {r : Report} {rest : List Report} {a : Answers}

theorem batchHandled_of_kept (kept : BatchKept steps s) : BatchHandled steps s := by
  intro calling
  rw [BatchKept, calling.ahead, List.append_nil] at kept
  exact kept

theorem lastBatch_plain {p : St × Input} (plain : fetched? p = none) :
    lastBatch (steps ++ [p]) = lastBatch steps := by
  rw [lastBatch, lastMark_plain plain, lastBatch]

theorem handled_plain {p : St × Input} (plain : fetched? p = none) :
    handled (steps ++ [p]) = handled steps ++ (handled? p).toList := by
  rw [handled, sinceLast_plain plain, List.filterMap_append, handled]
  cases one : handled? p <;> simp [one]

theorem handled_wait {batch : List Report} : handled (steps ++ [(s, .wait batch)]) = [] := by
  have fresh : fetched? (s, .wait batch) = some batch := rfl
  rw [handled, sinceLast_mark fresh, List.filterMap_nil]

theorem lastBatch_wait {batch : List Report} :
    lastBatch (steps ++ [(s, .wait batch)]) = batch := by
  have fresh : fetched? (s, .wait batch) = some batch := rfl
  rw [lastBatch, lastMark_mark fresh, Option.getD_some]

/-- The body leaves the loop for a connection at its end or broken, and only for it. -/
theorem body_ahead (run : body s r rest a = some t) :
    (has r.events epollIn ∧ Breaks s r a ∧ t.ctl = .events []) ∨
      (¬ (has r.events epollIn ∧ Breaks s r a) ∧ t.ctl.ahead = rest) := by
  unfold body at run
  split_ifs at run with listening udp readable
  · obtain rfl := Option.some.inj run
    refine .inr ⟨fun breaks => breaks.2.apart.1 listening, ?_⟩
    unfold acceptBranch
    split_ifs <;> rfl
  · refine .inr ⟨fun breaks => breaks.2.apart.2 udp, ?_⟩
    unfold udpBranch at run
    split at run
    · obtain rfl := Option.some.inj run
      rfl
    · split at run
      · cases run
      · obtain rfl := Option.some.inj run
        rfl
  · unfold tcpBranch at run
    split at run
    · rename_i failed
      obtain rfl := Option.some.inj run
      exact .inl ⟨readable, ⟨⟨listening, udp⟩, by simp [failed]⟩, (giveUp_frame _ _).2.2⟩
    · rename_i bytes received
      split_ifs at run with ended
      · obtain rfl := Option.some.inj run
        exact .inl ⟨readable, ⟨⟨listening, udp⟩, by simp [received, ended]⟩,
          (giveUp_frame _ _).2.2⟩
      · obtain ⟨x, -, rfl⟩ := Option.map_eq_some_iff.mp run
        refine .inr ⟨fun breaks => ended ?_, rfl⟩
        simpa [received] using breaks.2.none
  · obtain rfl := Option.some.inj run
    exact .inr ⟨fun breaks => readable breaks.1, rfl⟩

/-- A step that neither fetches nor handles anything keeps the account. -/
theorem BatchKept.idle (kept : BatchKept steps s) {p : St × Input} (plain : fetched? p = none)
    (none : handled? p = none) (ahead : t.ctl.ahead = s.ctl.ahead) :
    BatchKept (steps ++ [p]) t := by
  rw [BatchKept, handled_plain plain, none, Option.toList_none, List.append_nil, ahead,
    lastBatch_plain plain]
  exact kept

/-- One event of the batch is handled. The account is kept by going on with the next one, or by
leaving the loop with none ahead. -/
theorem BatchKept.main (kept : BatchKept steps s) (run : mainStep s a = some t) :
    (BreaksLast s (.main a) → BatchKept (steps ++ [(s, .main a)]) t) ∧
      (BatchHandled (steps ++ [(s, .main a)]) t → BreaksLast s (.main a)) := by
  have plain : fetched? (s, .main a) = none := rfl
  unfold mainStep at run
  split at run
  · rename_i r rest ctl
    have next : s.ctl.next? = some r := by rw [ctl]; rfl
    have one : handled? (s, .main a) = some r := next
    have split : handled steps ++ r :: rest = lastBatch steps := by
      rw [← kept, ctl]
      rfl
    have more : handled (steps ++ [(s, .main a)]) = handled steps ++ [r] := by
      rw [handled_plain plain, one, Option.toList_some]
    have tail : s.ctl.ahead.tail = rest := by rw [ctl]; rfl
    rcases body_ahead run with ⟨readable, breaks, left⟩ | ⟨stays, ahead⟩
    · constructor
      · intro last
        obtain rfl : rest = [] := tail ▸ last r next readable breaks
        rw [BatchKept, more, left, lastBatch_plain plain, ← split]
        exact List.append_nil _
      · intro all r' _ _ _
        have calling : t.ctl.Calling := by rw [left]; trivial
        have whole := all calling
        rw [more, lastBatch_plain plain, ← split] at whole
        rw [tail]
        exact (List.cons.inj (List.append_cancel_left whole)).2.symm
    · constructor
      · intro _
        rw [BatchKept, more, ahead, lastBatch_plain plain, ← split, List.append_assoc,
          List.singleton_append]
      · intro _ r' next' readable breaks
        obtain rfl : r = r' := Option.some.inj (next.symm.trans next')
        exact absurd ⟨readable, breaks⟩ stays
  · rename_i connfd rest ctl
    obtain rfl := Option.some.inj run
    have none : s.ctl.next? = none := by rw [ctl]; rfl
    have ahead : s.ctl.ahead = rest := by rw [ctl]; rfl
    constructor
    · intro _
      exact kept.idle plain none ahead.symm
    · intro _ r' next'
      rw [none] at next'
      cases next'
  · cases run
  · cases run

end Steps

/-- The events of every batch are handled exactly when each connection at its end or broken is
the last event of its batch. -/
theorem batch_handled_iff {steps : List (St × Input)} {s : St} (h : machine.Run steps s) :
    Throughout BatchHandled steps s ↔ ∀ p ∈ steps, BreaksLast p.1 p.2 := by
  apply h.throughout_iff (J := BatchKept)
  · rintro s ⟨listenfd, udpfd, -, -, -, rfl⟩
    rfl
  · intro steps s kept
    exact batchHandled_of_kept kept
  · intro steps s a t _ kept lawful run
    cases a with
    | connects =>
      obtain rfl := Option.some.inj run
      exact ⟨fun _ => kept.idle rfl rfl rfl, fun _ => trivial⟩
    | sends d =>
      obtain rfl := Option.some.inj run
      exact ⟨fun _ => kept.idle rfl rfl rfl, fun _ => trivial⟩
    | arrives fd bytes =>
      obtain rfl := Option.some.inj run
      exact ⟨fun _ => kept.idle rfl rfl rfl, fun _ => trivial⟩
    | finishes fd =>
      obtain rfl := Option.some.inj run
      exact ⟨fun _ => kept.idle rfl rfl rfl, fun _ => trivial⟩
    | wait batch =>
      obtain rfl := Option.some.inj run
      refine ⟨fun _ => ?_, fun _ => trivial⟩
      rw [BatchKept, handled_wait, lastBatch_wait]
      rfl
    | waitFailed =>
      obtain rfl := Option.some.inj run
      have calling : s.ctl.Calling := lawful
      exact ⟨fun _ => kept.idle rfl rfl calling.ahead.symm, fun _ => trivial⟩
    | main a => exact kept.main run

/-- A connection on 5 has ended and a datagram waits. -/
def ended : St := (machine.replay (boot 3 4)
  [.connects, .wait [⟨3, epollIn⟩], .main { quiet with connfd := 5 }, .main quiet, .finishes 5,
    .sends ⟨⟨7, 1⟩, [104, 105]⟩]).getD (boot 3 4)

/-- The same when the datagram is handled first and the connection is closed then. -/
def closedLast : St := (machine.replay ended
  [.wait [⟨4, epollIn⟩, ⟨5, epollIn⟩], .main { quiet with recv := some [104, 105] },
    .main { quiet with recv := some [] }]).getD ended

theorem ended_reachable : machine.Reachable ended := boot_reachable.replay_getD _

theorem batch_handled_iff_closedLast : ∃ steps, machine.Run steps closedLast ∧
    (Throughout BatchHandled steps closedLast ↔ ∀ p ∈ steps, BreaksLast p.1 p.2) := by
  obtain ⟨steps, run⟩ := ended_reachable.replay_getD _
  exact ⟨steps, run, batch_handled_iff run⟩

/-- The connection is closed first: the datagram behind it is left with no edge pending. -/
theorem datagram_forgotten : ∃ steps s, machine.Run steps s ∧ ¬ Throughout BatchHandled steps s ∧
    s.ctl.Calling ∧ s.datagrams ≠ [] ∧ s.entries s.udpfd = some false := by
  obtain ⟨pre, run⟩ := ended_reachable
  have first := run.step (a := .wait [⟨5, epollIn⟩, ⟨4, epollIn⟩]) (by decide +kernel) rfl
  have second := first.step (a := .main { quiet with recv := some [] }) (by decide +kernel) rfl
  refine ⟨_, _, second, ?_, by decide +kernel, by decide +kernel, by decide +kernel⟩
  intro all
  have whole := all.2 (by decide +kernel)
  rw [handled_plain rfl, lastBatch_plain rfl, handled_wait, lastBatch_wait] at whole
  exact absurd (congrArg List.length whole) (by decide +kernel)

end JiajiaNetwork.TcpUdp
