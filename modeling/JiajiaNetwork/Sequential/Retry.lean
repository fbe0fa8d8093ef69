/- What a failed `accept` does to the two servers. The non-blocking one tries again, so that apart
   from its reports of EAGAIN it does what the blocking one does when no `accept` fails; the
   blocking one has closed its listening socket then and never serves anybody again. -/
import JiajiaNetwork.Sequential.InTurn

set_option autoImplicit false
set_option relaxedAutoImplicit false

namespace JiajiaNetwork.Sequential

open Lib Machine

/-- A failed `accept` was reported, by the server that closes its socket then. -/
def Closed (v : Program) (s : St) : Prop :=
  v = .testBlocking ∧ ∃ errno, .failed errno ∈ s.log

/-- The listening socket is closed exactly behind a failed `accept` of `test_blocking.c`. -/
structure Listens (v : Program) (s : St) : Prop where
  closed : s.listening = false ↔ Closed v s
  idle : s.listening = false → s.ctl = .accepting

section Steps

variable {v w : Program} {s t : St} {a : Input}

/-- An event other than a failure, and not on a closed socket. -/
theorem Listens.event (listens : Listens v s) (listening : s.listening = true) {e : Event}
    (other : ∀ errno, e ≠ .failed errno) (log : t.log = s.log ++ [e])
    (same : t.listening = s.listening) : Listens v t where
  closed := by
    have open_ : ¬ Closed v s := fun closed => by
      rw [listens.closed.mpr closed] at listening
      cases listening
    rw [same, listening]
    refine iff_of_false (by simp) ?_
    rintro ⟨blocking, errno, failed⟩
    rw [log] at failed
    rcases List.mem_append.mp failed with old | new
    · exact open_ ⟨blocking, errno, old⟩
    · exact other errno (List.mem_singleton.mp new).symm
  idle := by
    rw [same, listening]
    exact nofun

theorem Listens.congr (listens : Listens v s) (log : t.log = s.log)
    (same : t.listening = s.listening) (ctl : t.ctl = s.ctl) : Listens v t where
  closed := by rw [Closed, log, same, listens.closed, Closed]
  idle := by
    rw [same, ctl]
    exact listens.idle

theorem Listens.failed (listens : Listens v s) (ctl : s.ctl = .accepting) (errno : Errno) :
    Listens v (acceptFailed v s errno) := by
  cases v with
  | testBlocking =>
    exact ⟨iff_of_true rfl ⟨rfl, errno, by simp [acceptFailed, St.emit]⟩, fun _ => ctl⟩
  | testNoblocking =>
    have never : ∀ t, ¬ Closed .testNoblocking t := by
      rintro t ⟨blocking, -⟩
      cases blocking
    have listening : s.listening = true := by
      rw [← Bool.not_eq_false]
      exact fun shut => never s (listens.closed.mp shut)
    refine ⟨iff_of_false ?_ (never _), fun _ => ctl⟩
    simpa [acceptFailed, St.emit] using listening

theorem Listens.step (listens : Listens v s) (lawful : Lawful v s a)
    (run : step v s a = some t) : Listens v t := by
  cases a with
  | connects =>
    obtain rfl := Option.some.inj run
    exact listens.congr rfl rfl rfl
  | arrives id bytes =>
    obtain rfl := Option.some.inj run
    exact listens.congr rfl rfl rfl
  | finishes id =>
    obtain rfl := Option.some.inj run
    exact listens.congr rfl rfl rfl
  | accept failure =>
    cases failure with
    | none =>
      obtain ⟨ctl, listening, waits⟩ := lawful
      obtain ⟨id, rest, queue⟩ := List.exists_cons_of_ne_nil waits
      simp only [Sequential.step, ctl, queue, Option.some.injEq] at run
      subst run
      exact listens.event (e := .accepted id) listening (by simp) rfl rfl
    | some errno =>
      obtain ⟨ctl, -, -⟩ := lawful
      simp only [Sequential.step, ctl, Option.some.injEq] at run
      subst run
      exact listens.failed ctl errno
  | recv answer =>
    cases ctl : s.ctl with
    | accepting => simp [Sequential.step, ctl] at run
    | receiving id =>
      have listening : s.listening = true := by
        rw [← Bool.not_eq_false]
        intro shut
        rw [listens.idle shut] at ctl
        cases ctl
      simp only [Sequential.step, ctl] at run
      cases answer with
      | error errno =>
        obtain rfl := Option.some.inj run
        exact listens.event (e := .closed id (some errno)) listening (by simp) rfl rfl
      | ok bytes =>
        cases bytes with
        | nil =>
          obtain rfl := Option.some.inj run
          exact listens.event (e := .closed id none) listening (by simp) rfl rfl
        | cons b bytes =>
          obtain ⟨text, -, same⟩ := Option.bind_eq_some_iff.mp run
          obtain rfl := Option.some.inj same
          exact listens.event (e := .got id (b :: bytes).length text) listening (by simp) rfl rfl

theorem reachable_listens (h : (machine v).Reachable s) : Listens v s := by
  apply h.invariant
  · rintro s rfl
    exact ⟨by simp [initial, Closed], fun _ => rfl⟩
  · exact fun s a t _ listens lawful run => listens.step lawful run

/-- Nobody is accepted on a closed socket. -/
theorem deaf_step (shut : s.listening = false) (ctl : s.ctl = .accepting) (lawful : Lawful v s a)
    (run : step v s a = some t) :
    t.listening = false ∧ t.ctl = .accepting ∧ acceptedIds t.log = acceptedIds s.log := by
  cases a with
  | connects =>
    have listening : s.listening = true := lawful
    rw [shut] at listening
    cases listening
  | arrives id bytes =>
    obtain rfl := Option.some.inj run
    exact ⟨shut, ctl, rfl⟩
  | finishes id =>
    obtain rfl := Option.some.inj run
    exact ⟨shut, ctl, rfl⟩
  | accept failure =>
    cases failure with
    | none =>
      have listening := lawful.2.1
      rw [shut] at listening
      cases listening
    | some errno =>
      simp only [Sequential.step, ctl, Option.some.injEq] at run
      subst run
      cases v with
      | testBlocking => exact ⟨rfl, ctl, by simp [acceptFailed, St.emit, acceptedIds]⟩
      | testNoblocking => exact ⟨shut, ctl, by simp [acceptFailed, St.emit, acceptedIds]⟩
  | recv answer =>
    have answered : Answered s answer := lawful
    rw [Answered, ctl] at answered
    exact answered.elim

theorem run_once (lawful : Lawful v s a) (run : step v s a = some t) :
    ((machine v).after s).Run [(s, a)] t :=
  Run.step (M := (machine v).after s) (.start rfl) lawful run

/-- A server that listens can accept one more connection as soon as it is through with the one
that is open. -/
theorem hears_accepting (listening : s.listening = true) (ctl : s.ctl = .accepting) : ∃ later t,
    ((machine v).after s).Run later t ∧ acceptedIds t.log ≠ acceptedIds s.log := by
  let waiting : St := { s with queue := s.queue ++ [s.next], next := s.next + 1 }
  have connected : ((machine v).after s).Run [(s, .connects)] waiting := run_once listening rfl
  have waits : waiting.queue ≠ [] := by simp [waiting]
  obtain ⟨id, rest, queue⟩ := List.exists_cons_of_ne_nil waits
  have accepted : step v waiting (.accept none) =
      some { waiting.emit (.accepted id) with ctl := .receiving id, queue := rest } := by
    have here : waiting.ctl = .accepting := ctl
    simp only [Sequential.step, here, queue]
  have lawful : Lawful v waiting (.accept none) := ⟨ctl, listening, waits⟩
  refine ⟨_, _, connected.append (run_once lawful accepted), ?_⟩
  simp [waiting, St.emit, acceptedIds]

theorem hears_again (listening : s.listening = true) : ∃ later t,
    ((machine v).after s).Run later t ∧ acceptedIds t.log ≠ acceptedIds s.log := by
  cases ctl : s.ctl with
  | accepting => exact hears_accepting listening ctl
  | receiving id =>
    let done : St := { s.emit (.closed id (some eagain)) with ctl := .accepting }
    have lawful : Lawful v s (.recv (.error eagain)) := by
      show Answered s (.error eagain)
      rw [Answered, ctl]
      exact nofun
    have run : step v s (.recv (.error eagain)) = some done := by
      simp [Sequential.step, ctl, receive, done]
    obtain ⟨later, t, more, new⟩ := hears_accepting (v := v) (s := done) listening rfl
    refine ⟨_, t, (run_once lawful run).append more, ?_⟩
    simpa [done, St.emit, acceptedIds] using new

end Steps

/-- A server accepts nobody any more exactly if it is `test_blocking.c` and an `accept` has failed,
whatever the reason; it goes on calling `accept` on the closed descriptor then. -/
theorem deaf_iff_failed (v : Program) (s : St) (h : (machine v).Reachable s) :
    (∀ later t, ((machine v).after s).Run later t → acceptedIds t.log = acceptedIds s.log) ↔
      v = .testBlocking ∧ ∃ errno, .failed errno ∈ s.log := by
  have listens := reachable_listens h
  constructor
  · intro deaf
    by_contra open_
    have listening : s.listening = true := by
      rw [← Bool.not_eq_false]
      exact fun shut => open_ (listens.closed.mp shut)
    obtain ⟨later, t, more, new⟩ := hears_again (v := v) listening
    exact new (deaf later t more)
  · intro closed later t more
    have shut := listens.closed.mpr closed
    have reached : ((machine v).after s).Reachable t := ⟨later, more⟩
    have kept : t.listening = false ∧ t.ctl = .accepting ∧
        acceptedIds t.log = acceptedIds s.log := by
      refine reached.invariant (I := fun t => t.listening = false ∧ t.ctl = .accepting ∧
        acceptedIds t.log = acceptedIds s.log) ?_ ?_
      · rintro _ rfl
        exact ⟨shut, listens.idle shut, rfl⟩
      · rintro t a u - ⟨shut, ctl, same⟩ lawful run
        obtain ⟨shut', ctl', same'⟩ := deaf_step shut ctl lawful run
        exact ⟨shut', ctl', same'.trans same⟩
    exact kept.2.2

/-! The two programs compared. -/

/-- No `accept` fails. -/
def Unfailing (_ : St) : Input → Prop
  | .accept (some _) => False
  | _ => True

/-- An `accept` fails only because no connection waits. -/
def Retrying (_ : St) : Input → Prop
  | .accept (some errno) => errno = eagain
  | _ => True

/-- The state without the reports of EAGAIN. -/
def retried (s : St) : St := { s with log := s.log.filter fun e => e ≠ .failed eagain }

section Equivalence

variable {v w : Program} {s t : St} {a : Input}

/-- Apart from failures of `accept`, the two programs take the same steps, and the reports of
EAGAIN play no part in them. -/
theorem step_retried (succeeds : Unfailing s a) (run : step v s a = some t) :
    step w (retried s) a = some (retried t) := by
  cases a with
  | connects =>
    obtain rfl := Option.some.inj run
    rfl
  | arrives id bytes =>
    obtain rfl := Option.some.inj run
    rfl
  | finishes id =>
    obtain rfl := Option.some.inj run
    rfl
  | accept failure =>
    cases failure with
    | some errno => exact succeeds.elim
    | none =>
      cases ctl : s.ctl with
      | receiving id => simp [Sequential.step, ctl] at run
      | accepting =>
        cases queue : s.queue with
        | nil => simp [Sequential.step, ctl, queue] at run
        | cons id rest =>
          simp only [Sequential.step, ctl, queue, Option.some.injEq] at run
          subst run
          simp [Sequential.step, retried, ctl, queue, St.emit]
  | recv answer =>
    cases ctl : s.ctl with
    | accepting => simp [Sequential.step, ctl] at run
    | receiving id =>
      simp only [Sequential.step, ctl] at run
      have here : (retried s).ctl = .receiving id := ctl
      simp only [Sequential.step, here]
      cases answer with
      | error errno =>
        obtain rfl := Option.some.inj run
        simp [receive, retried, St.emit]
      | ok bytes =>
        cases bytes with
        | nil =>
          obtain rfl := Option.some.inj run
          simp [receive, retried, St.emit]
        | cons b bytes =>
          obtain ⟨text, string, same⟩ := Option.bind_eq_some_iff.mp run
          obtain rfl := Option.some.inj same
          simp [receive, string, retried, St.emit]

theorem lawful_retried (succeeds : Unfailing s a) (lawful : Lawful v s a) :
    Lawful w (retried s) a := by
  cases a with
  | connects => exact lawful
  | arrives id bytes => exact lawful
  | finishes id => exact lawful
  | accept failure =>
    cases failure with
    | none => exact lawful
    | some errno => exact succeeds.elim
  | recv answer => exact lawful

theorem blocking_in_nonblocking : Simulates ((machine .testBlocking).guard Unfailing)
    ((machine .testNoblocking).guard Retrying) retried where
  start := by
    rintro s rfl
    rfl
  step s a t _ lawful run := by
    refine .inr ⟨a, ⟨lawful_retried lawful.2 lawful.1, ?_⟩, step_retried lawful.2 run⟩
    have succeeds := lawful.2
    unfold Unfailing at succeeds
    unfold Retrying
    split
    · exact succeeds.elim
    · trivial

theorem nonblocking_in_blocking : Simulates ((machine .testNoblocking).guard Retrying)
    ((machine .testBlocking).guard Unfailing) retried where
  start := by
    rintro s rfl
    rfl
  step s a t _ lawful run := by
    by_cases succeeds : Unfailing s a
    · refine .inr ⟨a, ⟨lawful_retried succeeds lawful.1, ?_⟩, step_retried succeeds run⟩
      exact succeeds
    · left
      have failure : ∃ errno, a = .accept (some errno) := by
        unfold Unfailing at succeeds
        split at succeeds
        · exact ⟨_, rfl⟩
        · exact absurd trivial succeeds
      obtain ⟨errno, rfl⟩ := failure
      obtain rfl : errno = eagain := lawful.2
      have next : step .testNoblocking s (.accept (some eagain)) = some t := run
      simp only [Sequential.step, lawful.1.1, Option.some.injEq, acceptFailed] at next
      subst next
      simp [retried, St.emit, List.filter_append]

theorem unfailing_log (h : ((machine .testBlocking).guard Unfailing).Reachable s) :
    retried s = s := by
  refine h.invariant (I := fun s => retried s = s) ?_ ?_
  · rintro s rfl
    rfl
  · intro s a t _ same lawful run
    have next := step_retried (w := .testBlocking) lawful.2 run
    rw [same] at next
    exact Option.some.inj (next.symm.trans run)

end Equivalence

/-- Without failures other than EAGAIN the two servers pass through the same states, apart from
the reports of EAGAIN. -/
theorem same_but_for_retries (s : St) :
    ((machine .testBlocking).guard Unfailing).Reachable s ↔
      ∃ t, ((machine .testNoblocking).guard Retrying).Reachable t ∧ retried t = s := by
  constructor
  · intro h
    refine ⟨s, ?_, unfailing_log h⟩
    have reached := blocking_in_nonblocking.reachable h
    rwa [unfailing_log h] at reached
  · rintro ⟨t, h, rfl⟩
    exact nonblocking_in_blocking.reachable h

/-- An interrupted `accept` makes `test_blocking.c` deaf. -/
theorem deaf_iff_failed_interrupted : ∃ s, (machine .testBlocking).Reachable s ∧
    ∀ later t, ((machine .testBlocking).after s).Run later t →
      acceptedIds t.log = acceptedIds s.log := by
  have start : (machine .testBlocking).Reachable initial := .start rfl
  have failed := start.step (a := .accept (some 4)) (by decide) rfl
  exact ⟨_, failed, (deaf_iff_failed .testBlocking _ failed).mpr ⟨rfl, 4, by decide⟩⟩

end JiajiaNetwork.Sequential
