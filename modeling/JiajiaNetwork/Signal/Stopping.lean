/- When the loop of `test_signal.c` is left: for a `SIGTERM` or `SIGINT` byte, for a failure of
   `epoll_wait`, and, against the comment at `SA_RESTART`, for any signal that interrupts it. -/
import JiajiaNetwork.Signal.Server

set_option autoImplicit false
set_option relaxedAutoImplicit false

namespace JiajiaNetwork.Signal

open Lib

/-- The bytes on which the `switch` stops the server. -/
def Stops (c : Byte) : Prop := promoted c = sigterm ∨ promoted c = sigint

instance (c : Byte) : Decidable (Stops c) := inferInstanceAs (Decidable (_ ∨ _))

def Told (s : St) : Prop := ∃ c ∈ s.pipe.read, Stops c

instance (s : St) : Decidable (Told s) := inferInstanceAs (Decidable (∃ c ∈ s.pipe.read, _))

/-- The loop is left only behind a byte that stops the server, or when `epoll_wait` has failed by
itself. -/
def StopsWhenTold (s : St) : Prop :=
  s.ctl = .left → Told s ∨ ∃ errno ∈ s.failed, errno ≠ eintr

/-- A signal is delivered while the loop is in `epoll_wait`. -/
def Interrupts (s : St) : Input → Prop
  | .signal _ _ => s.ctl = .waiting
  | _ => False

/-- The bytes that `recv` has returned and the `switch` has not seen. -/
def Control.unexamined : Control → List Byte
  | .scanning signals _ => signals
  | _ => []

structure Scanned (s : St) : Prop where
  read : s.pipe.read = s.examined ++ s.ctl.unexamined
  told : s.stopServer = true ↔ ∃ c ∈ s.examined, Stops c
  waits : s.ctl = .waiting → s.stopServer = false

section Steps

variable {s t : St} {a : Answers} {r : Report} {rest : List Report}

/-- A step that reads no byte and examines none. -/
theorem Scanned.keeps (scanned : Scanned s) (read : t.pipe.read = s.pipe.read)
    (examined : t.examined = s.examined) (stopServer : t.stopServer = s.stopServer)
    (unexamined : t.ctl.unexamined = s.ctl.unexamined)
    (waits : t.ctl = .waiting → s.stopServer = false) : Scanned t where
  read := by
    rw [read, examined, unexamined]
    exact scanned.read
  told := by
    rw [examined, stopServer]
    exact scanned.told
  waits ctl := by
    rw [stopServer]
    exact waits ctl

theorem sigHandler_frame (s : St) (sig : Int) (sent : Bool) :
    (s.sigHandler sig sent).ctl = s.ctl ∧ (s.sigHandler sig sent).pipe.read = s.pipe.read ∧
      (s.sigHandler sig sent).examined = s.examined ∧
      (s.sigHandler sig sent).stopServer = s.stopServer ∧
      (s.sigHandler sig sent).failed = s.failed := by
  unfold St.sigHandler
  split_ifs <;> exact ⟨rfl, rfl, rfl, rfl, rfl⟩

theorem addfd_frame (s : St) (fd : Fd) :
    (s.addfd fd).pipe = s.pipe ∧ (s.addfd fd).examined = s.examined ∧
      (s.addfd fd).stopServer = s.stopServer ∧ (s.addfd fd).handled = s.handled ∧
      (s.addfd fd).listenfd = s.listenfd ∧ (s.addfd fd).pipefd = s.pipefd := by
  unfold St.addfd
  split_ifs <;> exact ⟨rfl, rfl, rfl, rfl, rfl, rfl⟩

theorem Scanned.sigHandler (scanned : Scanned s) (sig : Int) (sent : Bool) :
    Scanned (s.sigHandler sig sent) := by
  obtain ⟨ctl, read, examined, stopServer, -⟩ := sigHandler_frame s sig sent
  refine scanned.keeps read examined stopServer (by rw [ctl]) ?_
  rw [ctl]
  exact scanned.waits

theorem Scanned.pipeBranch (scanned : Scanned s) (ctl : s.ctl = .events (r :: rest))
    (answered : ∀ bytes ∈ a.recv, bytes.length ≤ signalsSize ∧ s.pipe.Yields bytes) :
    Scanned (pipeBranch s rest a) := by
  have idle : s.ctl.unexamined = [] := by rw [ctl]; rfl
  unfold Signal.pipeBranch
  cases answer : a.recv with
  | none => exact scanned.keeps rfl rfl rfl idle.symm nofun
  | some bytes =>
    simp only
    split_ifs with empty
    · exact scanned.keeps rfl rfl rfl idle.symm nofun
    · obtain ⟨-, yields⟩ := answered bytes answer
      have read := scanned.read
      rw [idle, List.append_nil] at read
      refine ⟨?_, scanned.told, nofun⟩
      show (s.pipe.consume bytes.length).read = s.examined ++ bytes
      rw [yields.read, read]

/-- The `switch` sets `stop_server` for the bytes that stop the server. -/
theorem Scanned.examine (scanned : Scanned s) {c : Byte} {signals : List Byte}
    (ctl : s.ctl = .scanning (c :: signals) rest) :
    Scanned { s.examine c with ctl := .scanning signals rest } where
  read := by
    have read := scanned.read
    rw [ctl] at read
    show s.pipe.read = (s.examined ++ [c]) ++ signals
    rw [read, List.append_assoc]
    rfl
  told := by
    show (s.stopServer || promoted c == sigterm || promoted c == sigint) = true ↔
      ∃ x ∈ s.examined ++ [c], Stops x
    simp only [Bool.or_eq_true, beq_iff_eq, scanned.told, List.mem_append, List.mem_singleton,
      or_and_right, exists_or, exists_eq_left, or_assoc, Stops]
  waits := nofun

theorem Scanned.main (scanned : Scanned s) (answered : Answered s a s.ctl)
    (run : mainStep s a = some t) : Scanned t := by
  unfold mainStep at run
  split at run
  · rename_i ctl
    obtain rfl := Option.some.inj run
    refine scanned.keeps rfl rfl rfl ?_ ?_
    · simp only
      split_ifs <;> rw [ctl] <;> rfl
    · intro waiting
      simp only at waiting
      split_ifs at waiting with stop
      exact Bool.eq_false_iff.mpr stop
  · rename_i ctl
    obtain rfl := Option.some.inj run
    exact scanned.keeps rfl rfl rfl (by rw [ctl]; rfl) nofun
  · rename_i r rest ctl
    obtain rfl := Option.some.inj run
    rw [ctl, Answered] at answered
    have idle : s.ctl.unexamined = [] := by rw [ctl]; rfl
    unfold body
    split_ifs at answered ⊢ with listening piped
    · unfold acceptBranch
      split_ifs
      · exact scanned.keeps rfl rfl rfl idle.symm nofun
      · exact scanned.keeps rfl rfl rfl idle.symm nofun
    · exact scanned.pipeBranch ctl answered
    · exact scanned.keeps rfl rfl rfl idle.symm nofun
  · rename_i connfd rest ctl
    obtain rfl := Option.some.inj run
    obtain ⟨pipe, examined, stopServer, -⟩ := addfd_frame s connfd
    exact scanned.keeps (congrArg Channel.read pipe) examined stopServer (by rw [ctl]; rfl) nofun
  · rename_i rest ctl
    obtain rfl := Option.some.inj run
    exact scanned.keeps rfl rfl rfl (by rw [ctl]; rfl) nofun
  · rename_i c signals rest ctl
    obtain rfl := Option.some.inj run
    exact scanned.examine ctl
  · cases run
  · cases run

end Steps

theorem reachable_scanned {s : St} (h : machine.Reachable s) : Scanned s := by
  apply h.invariant
  · rintro s ⟨listenfd, pipefd, -, -, -, rfl⟩
    exact ⟨rfl, by simp [boot], nofun⟩
  · intro s a t _ scanned lawful run
    cases a with
    | connects =>
      obtain rfl := Option.some.inj run
      exact scanned.keeps rfl rfl rfl rfl scanned.waits
    | arrives fd =>
      obtain rfl := Option.some.inj run
      exact scanned.keeps rfl rfl rfl rfl scanned.waits
    | signal sig sent =>
      have handled := scanned.sigHandler sig sent
      have ctl := (sigHandler_frame s sig sent).1
      simp only [machine, step] at run
      split_ifs at run with waiting
      · obtain rfl := Option.some.inj run
        exact handled.keeps rfl rfl rfl (by rw [ctl, waiting]; rfl) nofun
      · obtain rfl := Option.some.inj run
        exact handled
    | wait batch =>
      obtain rfl := Option.some.inj run
      exact scanned.keeps rfl rfl rfl (by rw [lawful.1]; rfl) nofun
    | waitFailed errno =>
      obtain rfl := Option.some.inj run
      exact scanned.keeps rfl rfl rfl (by rw [lawful.1]; rfl) nofun
    | main a => exact scanned.main lawful run

/-- Behind the loop nothing changes what was read and how `epoll_wait` failed. -/
theorem left_stays {s t : St} {a : Input} (left : s.ctl = .left) (lawful : machine.Lawful s a)
    (run : machine.step s a = some t) :
    t.ctl = .left ∧ t.pipe.read = s.pipe.read ∧ t.failed = s.failed := by
  cases a with
  | connects =>
    obtain rfl := Option.some.inj run
    exact ⟨left, rfl, rfl⟩
  | arrives fd =>
    obtain rfl := Option.some.inj run
    exact ⟨left, rfl, rfl⟩
  | signal sig sent =>
    obtain ⟨ctl, read, -, -, failed⟩ := sigHandler_frame s sig sent
    simp only [machine, step, left, reduceCtorEq, if_false, Option.some.injEq] at run
    subst run
    exact ⟨ctl.trans left, read, failed⟩
  | wait batch => exact absurd (left.symm.trans lawful.1) nofun
  | waitFailed errno => exact absurd (left.symm.trans lawful.1) nofun
  | main a => simp [machine, step, mainStep, left] at run

/-- While the loop is in `epoll_wait`, no byte that stops it has been read. -/
theorem Scanned.not_told {s : St} (scanned : Scanned s) (waiting : s.ctl = .waiting) :
    ¬ Told s := by
  have read := scanned.read
  rw [waiting] at read
  change s.pipe.read = s.examined ++ [] at read
  rw [Told, read, List.append_nil, ← scanned.told, scanned.waits waiting]
  exact Bool.false_ne_true

/-- At the test of `stop_server`, every byte that was read has been examined. -/
theorem Scanned.told_iff {s : St} (scanned : Scanned s) (testing : s.ctl = .testing) :
    s.stopServer = true ↔ Told s := by
  have read := scanned.read
  rw [testing] at read
  change s.pipe.read = s.examined ++ [] at read
  rw [scanned.told, Told, read, List.append_nil]

/-- A step of the loop leaves it only at the test of `stop_server`. -/
theorem left_of_main {s t : St} {a : Answers} (run : mainStep s a = some t)
    (left : t.ctl = .left) : s.ctl = .testing ∧ s.stopServer = true ∧ t.pipe = s.pipe := by
  unfold mainStep at run
  split at run
  · rename_i ctl
    obtain rfl := Option.some.inj run
    simp only at left
    split_ifs at left with stop
    exact ⟨ctl, stop, rfl⟩
  · obtain rfl := Option.some.inj run
    cases left
  · obtain rfl := Option.some.inj run
    unfold body acceptBranch pipeBranch at left
    split_ifs at left
    split at left
    · cases left
    · split_ifs at left
  · obtain rfl := Option.some.inj run
    cases left
  · obtain rfl := Option.some.inj run
    cases left
  · obtain rfl := Option.some.inj run
    cases left
  · cases run
  · cases run

theorem step_stops {s t : St} {a : Input} (reach : machine.Reachable s)
    (lawful : machine.Lawful s a) (run : machine.step s a = some t) :
    StopsWhenTold t ↔ StopsWhenTold s ∧ ¬ Interrupts s a := by
  have scanned := reachable_scanned reach
  by_cases left : s.ctl = .left
  · obtain ⟨ctl, read, failed⟩ := left_stays left lawful run
    have quiet : ¬ Interrupts s a := by
      unfold Interrupts
      split
      · rw [left]
        exact nofun
      · exact id
    rw [and_iff_left quiet]
    simp only [StopsWhenTold, Told, ctl, left, read, failed]
  have before : StopsWhenTold s := fun ctl => absurd ctl left
  rw [and_iff_right before]
  cases a with
  | connects =>
    obtain rfl := Option.some.inj run
    exact iff_of_true before id
  | arrives fd =>
    obtain rfl := Option.some.inj run
    exact iff_of_true before id
  | signal sig sent =>
    obtain ⟨ctl, read, -⟩ := sigHandler_frame s sig sent
    simp only [machine, step] at run
    split_ifs at run with waiting
    · obtain rfl := Option.some.inj run
      refine iff_of_false ?_ (not_not.mpr waiting)
      intro stops
      rcases stops rfl with told | ⟨errno, failed, other⟩
      · apply scanned.not_told waiting
        obtain ⟨c, mem, stop⟩ := told
        exact ⟨c, read ▸ mem, stop⟩
      · exact other (Option.some.inj failed).symm
    · obtain rfl := Option.some.inj run
      refine iff_of_true ?_ waiting
      intro gone
      exact absurd (ctl ▸ gone) left
  | wait batch =>
    obtain rfl := Option.some.inj run
    exact iff_of_true nofun id
  | waitFailed errno =>
    obtain rfl := Option.some.inj run
    exact iff_of_true (fun _ => .inr ⟨errno, rfl, lawful.2⟩) id
  | main a =>
    refine iff_of_true ?_ id
    intro gone
    obtain ⟨testing, stop, pipe⟩ := left_of_main run gone
    obtain ⟨c, mem, stops⟩ := (scanned.told_iff testing).mp stop
    exact .inl ⟨c, pipe ▸ mem, stops⟩

/-- The server stops only when told to in exactly the runs in which no signal is delivered during
`epoll_wait`. -/
theorem stops_when_told_iff {steps : List (St × Input)} {s : St} (h : machine.Run steps s) :
    StopsWhenTold s ↔ ∀ p ∈ steps, ¬ Interrupts p.1 p.2 := by
  apply h.kept_iff (P := StopsWhenTold) (C := fun s a => ¬ Interrupts s a)
  · rintro s ⟨listenfd, pipefd, -, -, -, rfl⟩
    exact nofun
  · intro s a t reach lawful run
    exact step_stops reach lawful run

theorem boot_reachable : machine.Reachable (boot 3 4) :=
  .start ⟨3, 4, by decide, by decide, by decide, rfl⟩

/-- A step that returns nothing of interest. -/
def quiet : Answers := ⟨-1, none⟩

/-- `SIGTERM` is delivered before `epoll_wait` is called, and the server stops for it. -/
def stopped : St := (machine.replay (boot 3 4)
  [.signal 15 true, .main quiet, .wait [⟨4, epollIn⟩], .main { quiet with recv := some [15] },
    .main quiet, .main quiet, .main quiet, .main quiet]).getD (boot 3 4)

theorem stops_when_told_iff_stopped : stopped.ctl = .left ∧ ∃ steps, machine.Run steps stopped ∧
    (StopsWhenTold stopped ↔ ∀ p ∈ steps, ¬ Interrupts p.1 p.2) := by
  obtain ⟨steps, run⟩ := boot_reachable.replay_getD _
  exact ⟨by decide +kernel, steps, run, stops_when_told_iff run⟩

/-- `SIGHUP` is delivered during `epoll_wait`. -/
theorem hangup_stops : ∃ s, machine.Reachable s ∧ ¬ StopsWhenTold s := by
  obtain ⟨s, reach, stopped⟩ := boot_reachable.of_replay
    (p := fun s : St => decide (s.ctl = .left ∧ ¬ Told s ∧ s.failed = some eintr))
    [.main quiet, .signal 1 true] (by decide +kernel)
  refine ⟨s, reach, ?_⟩
  obtain ⟨left, silent, failed⟩ := of_decide_eq_true stopped
  intro stops
  rcases stops left with told | ⟨errno, mem, other⟩
  · exact silent told
  · exact other (Option.some.inj (mem.symm.trans failed))

end JiajiaNetwork.Signal
