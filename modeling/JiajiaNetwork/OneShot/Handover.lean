/- The record through which the main thread hands a socket to a new worker. It belongs to the
   block that creates the worker and is filled again for the next event; a worker that reads it
   later serves whichever socket it finds there. -/
import JiajiaNetwork.OneShot.Ownership

set_option autoImplicit false
set_option relaxedAutoImplicit false

namespace JiajiaNetwork.OneShot

open Lib

/-- Each worker serves the connection whose event caused its creation, and no two workers are
between reading their record and giving up the same socket. -/
structure OneWorker (s : St) : Prop where
  own : ∀ thread, ∀ w ∈ s.workers thread, ∀ arg, w.stage.arg? = some arg →
    arg.sockfd = w.event.fd ∧ s.kernel.connection? arg.sockfd = some w.event.connection
  alone : ∀ thread other, ∀ w ∈ s.workers thread, ∀ v ∈ s.workers other, ∀ arg arg',
    w.stage.arg? = some arg → v.stage.arg? = some arg' → arg.sockfd = arg'.sockfd →
    thread = other

/-- A worker reads its record while the main thread is still in the block that created it. -/
def InTime (s : St) : Input → Prop
  | .worker thread _ _ =>
    ∀ w ∈ s.workers thread, w.stage = .started → s.ctl.block? = some thread
  | _ => True

/-- While the main thread is in the block, the record is the one for the worker created there. -/
structure Prepared (s : St) : Prop where
  filled : ∀ event rest, s.ctl = .filled event rest → s.record = some ⟨s.epollfd, event.fd⟩
  created : ∀ thread, s.ctl.block? = some thread →
    ∃ w ∈ s.workers thread, s.record = some ⟨s.epollfd, w.event.fd⟩

theorem Prepared.outside {s : St} (filled : ∀ event rest, s.ctl ≠ .filled event rest)
    (created : s.ctl.block? = none) : Prepared s where
  filled event rest ctl := absurd ctl (filled event rest)
  created thread block := by
    rw [created] at block
    cases block

theorem Prepared.mainStep {s t : St} (prepared : Prepared s) {connfd : Fd} {thread : Nat}
    (run : mainStep s connfd thread = some t) : Prepared t := by
  unfold OneShot.mainStep at run
  split at run
  · split_ifs at run with listening readable
    · obtain rfl := Option.some.inj run
      exact .outside (by simp) rfl
    · obtain rfl := Option.some.inj run
      constructor
      · intro event rest ctl
        obtain ⟨rfl, -⟩ := Control.filled.inj ctl
        rfl
      · intro thread block
        cases block
    · obtain rfl := Option.some.inj run
      exact .outside (by simp) rfl
  · obtain rfl := Option.some.inj run
    exact .outside (by simp) rfl
  · rename_i event rest ctl
    obtain rfl := Option.some.inj run
    constructor
    · intro event' rest' other
      cases other
    · intro other block
      obtain rfl := Option.some.inj block
      exact ⟨⟨event, .started⟩, by simp, prepared.filled event rest ctl⟩
  · obtain rfl := Option.some.inj run
    exact .outside (by simp) rfl
  · cases run
  · cases run

/-- A worker does not change its event, and nothing of the main thread. -/
theorem workerStep_frame {s t : St} {thread : Nat} {w : Worker} {stale : Fds} {answer : Answer}
    (hw : w ∈ s.workers thread) (run : workerStep s thread w stale answer = some t) :
    t.ctl = s.ctl ∧ t.record = s.record ∧ t.epollfd = s.epollfd ∧
      ∀ other, ∀ v ∈ s.workers other, ∃ v' ∈ t.workers other, v'.event = v.event := by
  have goto : ∀ stage other, ∀ v ∈ s.workers other,
      ∃ v' ∈ (s.goto thread w stage).workers other, v'.event = v.event := by
    intro stage other v hv
    by_cases same : other = thread
    · subst same
      obtain rfl := Option.mem_unique hv hw
      exact ⟨{ v with stage }, by simp [St.goto], rfl⟩
    · exact ⟨v, by simpa [St.goto, same] using hv, rfl⟩
  have stays : ∀ other, ∀ v ∈ s.workers other, ∃ v' ∈ s.workers other, v'.event = v.event :=
    fun other v hv => ⟨v, hv, rfl⟩
  unfold workerStep at run
  split at run
  · obtain rfl := Option.some.inj run
    exact ⟨rfl, rfl, rfl, goto _⟩
  · obtain rfl := Option.some.inj run
    cases answer with
    | received bytes =>
      simp only [recvStep]
      split_ifs
      · exact ⟨rfl, rfl, rfl, goto _⟩
      · exact ⟨rfl, rfl, rfl, stays⟩
    | eagain => exact ⟨rfl, rfl, rfl, goto _⟩
    | failed => exact ⟨rfl, rfl, rfl, stays⟩
  · obtain rfl := Option.some.inj run
    exact ⟨rfl, rfl, rfl, goto _⟩
  · obtain rfl := Option.some.inj run
    exact ⟨rfl, rfl, rfl, goto _⟩
  · cases run

theorem reachable_prepared {s : St} (h : machine.Reachable s) : Prepared s := by
  apply h.invariant
  · rintro s ⟨listenfd, epollfd, -, -, -, rfl⟩
    exact .outside (by simp [boot]) rfl
  · intro s a t _ prepared lawful run
    cases a with
    | arrives fd bytes =>
      obtain rfl := Option.some.inj run
      exact ⟨prepared.filled, prepared.created⟩
    | finishes fd =>
      obtain rfl := Option.some.inj run
      exact ⟨prepared.filled, prepared.created⟩
    | wait batch =>
      obtain rfl := Option.some.inj run
      exact .outside (by simp) rfl
    | waitFailed =>
      obtain rfl := Option.some.inj run
      exact .outside (by simp) rfl
    | main connfd thread => exact prepared.mainStep run
    | worker thread stale answer =>
      obtain ⟨w, hw, next⟩ := Option.bind_eq_some_iff.mp run
      obtain ⟨ctl, record, epollfd, events⟩ := workerStep_frame hw next
      constructor
      · intro event rest filled
        rw [record, epollfd]
        exact prepared.filled event rest (ctl ▸ filled)
      · intro other block
        obtain ⟨v, hv, own⟩ := prepared.created other (ctl ▸ block)
        obtain ⟨v', hv', same⟩ := events other v hv
        rw [record, epollfd]
        exact ⟨v', hv', same ▸ own⟩

/-- A worker that reads the record in time finds its own socket there. -/
theorem received_of_inTime {s : St} (h : (machine.guard InTime).Reachable s) :
    (machine.guard Received).Reachable s := by
  apply h.guard_mono
  intro s a reach _ inTime
  cases a with
  | worker thread stale answer =>
    intro w hw started
    obtain ⟨v, hv, own⟩ := (reachable_prepared reach.of_guard).created thread (inTime w hw started)
    obtain rfl := Option.mem_unique hv hw
    rw [own, Option.getD_some]
  | arrives fd bytes => trivial
  | finishes fd => trivial
  | wait batch => trivial
  | waitFailed => trivial
  | main connfd thread => trivial

/-- When every worker reads its record before the main thread leaves the block, each socket is
served by the one worker that was created for it. -/
theorem one_worker {s : St} (h : (machine.guard InTime).Reachable s) : OneWorker s := by
  have owned := reachable_owned (received_of_inTime h)
  -- a worker that has read its record holds its socket
  have holds : ∀ thread, ∀ w ∈ s.workers thread, ∀ arg, w.stage.arg? = some arg →
      arg.sockfd = w.event.fd ∧ w.stage ≠ .finished := by
    intro thread w hw arg found
    refine ⟨?_, ?_⟩
    · rw [owned.arg thread w hw arg found]
    · intro finished
      rw [finished] at found
      cases found
  constructor
  · intro thread w hw arg found
    obtain ⟨mine, going⟩ := holds thread w hw arg found
    rw [mine]
    exact ⟨rfl, owned.serves thread w hw going⟩
  · intro thread other w hw v hv arg arg' found found' same
    obtain ⟨mine, going⟩ := holds thread w hw arg found
    obtain ⟨theirs, going'⟩ := holds other v hv arg' found'
    have first : At s w.event.fd (.thread thread) := ⟨w, hw, rfl, going⟩
    have second : At s w.event.fd (.thread other) :=
      ⟨v, hv, by rw [← theirs, ← same, mine], going'⟩
    exact Place.thread.inj (owned.placed.unique _ _ _ first second)

instance (s : St) : (a : Input) → Decidable (InTime s a)
  | .worker thread _ _ => inferInstanceAs (Decidable (∀ w, w ∈ s.workers thread → _))
  | .arrives _ _ | .finishes _ | .wait _ | .waitFailed | .main _ _ => isTrue trivial

instance (s : St) (a : Input) : Decidable ((machine.guard InTime).Lawful s a) :=
  inferInstanceAs (Decidable (Lawful s a ∧ InTime s a))

/-- Connections on 5 and 6, with input on both. -/
def crowd : List Input :=
  joins 5 0 0 ++ joins 6 1 0 ++
    [.arrives 5 [104], .arrives 6 [105], .wait [⟨5, epollIn, 0⟩, ⟨6, epollIn, 1⟩]]

/-- The main thread lets each worker read its record before it takes the next event. -/
def inTurn : St := ((machine.guard InTime).replay (boot 3 4) (crowd ++
  [.main (-1) 0, .main (-1) 0, .worker 0 ⟨0, 0⟩ .failed, .main (-1) 1,
    .main (-1) 1, .main (-1) 1, .worker 1 ⟨0, 0⟩ .failed])).getD (boot 3 4)

theorem inTurn_reachable : (machine.guard InTime).Reachable inTurn := by
  have start : (machine.guard InTime).Reachable (boot 3 4) := .start boot_start
  exact start.replay_getD _

theorem one_worker_inTurn :
    ((inTurn.workers 0).map Worker.stage = some (.serving ⟨4, 5⟩) ∧
      (inTurn.workers 1).map Worker.stage = some (.serving ⟨4, 6⟩)) ∧ OneWorker inTurn :=
  ⟨by decide +kernel, one_worker inTurn_reachable⟩

/-- The main thread has filled the record again before the first worker reads it. -/
def crossed : St := (machine.replay (boot 3 4) (crowd ++
  [.main (-1) 0, .main (-1) 0, .main (-1) 1, .main (-1) 1,
    .worker 0 ⟨0, 0⟩ .failed, .main (-1) 1, .worker 1 ⟨0, 0⟩ .failed])).getD (boot 3 4)

/-- The worker created for 5 serves 6, and so does the one created for 6. -/
theorem record_reused : ∃ s, machine.Reachable s ∧ ¬ OneWorker s := by
  have start : machine.Reachable (boot 3 4) := .start boot_start
  refine ⟨crossed, start.replay_getD _, ?_⟩
  have first : (crossed.workers 0).map (fun w => (w.event.fd, w.stage)) =
      some (5, .serving ⟨4, 6⟩) := by decide +kernel
  obtain ⟨w, hw, read⟩ := Option.map_eq_some_iff.mp first
  obtain ⟨event, stage⟩ := Prod.mk.inj read
  intro one
  have own := (one.own 0 w hw ⟨4, 6⟩ (by rw [stage]; rfl)).1
  rw [event] at own
  exact absurd own (by decide)

end JiajiaNetwork.OneShot
