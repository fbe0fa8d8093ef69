/- The bytes of the signals in `test_signal.c`: each is examined and decodes to its signal, if every
   `recv` from `pipefd[0]` empties the pipe. A burst that is longer than the buffer of `recv` leaves
   bytes behind of which no edge tells. -/
import JiajiaNetwork.Lib.Edge
import JiajiaNetwork.Signal.Stopping

set_option autoImplicit false
set_option relaxedAutoImplicit false

namespace JiajiaNetwork.Signal

open Lib

/-- An edge is pending for the descriptor. -/
def St.Pending (s : St) (fd : Fd) : Prop := s.entries fd = some true

/-- The descriptor is `pipefd[0]`, with bytes that no `recv` has taken. -/
def St.Waiting (s : St) (fd : Fd) : Prop := fd = s.pipefd ∧ s.pipe.unread ≠ []

/-- The events of the batch that are not handled yet. -/
def Control.ahead : Control → List Report
  | .events rest | .adding _ rest | .scanning _ rest => rest
  | .testing | .waiting | .left => []

/-- The event that the next step handles. -/
def Control.next? : Control → Option Report
  | .events rest => rest.head?
  | _ => none

def Report.Readable (r : Report) : Prop := has r.events epollIn

instance : DecidablePred Report.Readable := fun r =>
  inferInstanceAs (Decidable (has r.events epollIn))

def readableFds (rest : List Report) : List Fd := keysOf Report.fd Report.Readable rest

/-- A `recv` from `pipefd[0]` takes everything that is there, or a newer edge is pending. -/
def TakesAll (s : St) : Input → Prop
  | .main a => ∀ r ∈ s.ctl.next?, r.fd = s.pipefd → has r.events epollIn →
      s.Pending s.pipefd ∨ s.pipe.unread.length ≤ (a.recv.getD []).length
  | _ => True

instance (s : St) (fd : Fd) : Decidable (s.Pending fd) :=
  inferInstanceAs (Decidable (s.entries fd = some true))

instance (s : St) : (a : Input) → Decidable (TakesAll s a)
  | .main _ => inferInstanceAs (Decidable (∀ r, r ∈ s.ctl.next? → _ → _ → _ ∨ _))
  | .connects | .arrives _ | .signal _ _ | .wait _ | .waitFailed _ => isTrue trivial

instance (s : St) (a : Input) : Decidable ((machine.guard TakesAll).Lawful s a) :=
  inferInstanceAs (Decidable (Lawful s a ∧ TakesAll s a))

structure Watched (s : St) : Prop where
  covered : Covered s.Waiting s.Pending (readableFds s.ctl.ahead)
  apart : s.listenfd ≠ s.pipefd
  registered : (s.entries s.pipefd).isSome
  decoded : s.pipe.sent.map promoted = s.handled

section Steps

variable {s t : St} {a : Answers} {r : Report} {rest : List Report}

theorem raise_pending {fd fd' : Fd} (pending : s.Pending fd) : (s.raise fd').Pending fd := by
  show Function.update s.entries fd' _ fd = some true
  by_cases same : fd = fd'
  · subst same
    rw [Function.update_self, show s.entries fd = some true from pending]
    rfl
  · rw [Function.update_of_ne same]
    exact pending

/-- A step that keeps the pipe and loses no edge. -/
theorem Watched.keeps (watched : Watched s) (fds : t.listenfd = s.listenfd ∧ t.pipefd = s.pipefd)
    (pipe : t.pipe = s.pipe) (handled : t.handled = s.handled)
    (pending : ∀ fd, s.Pending fd → t.Pending fd)
    (registered : (t.entries s.pipefd).isSome = (s.entries s.pipefd).isSome)
    (covered : Covered s.Waiting s.Pending (readableFds t.ctl.ahead)) : Watched t where
  covered := by
    apply covered.arrives _ pending
    intro fd waiting
    left
    rw [St.Waiting, fds.2, pipe] at waiting
    exact waiting
  apart := by
    rw [fds.1, fds.2]
    exact watched.apart
  registered := by
    rw [fds.2, registered]
    exact watched.registered
  decoded := by
    rw [pipe, handled]
    exact watched.decoded

theorem Watched.goto (watched : Watched s) {ctl : Control}
    (covered : Covered s.Waiting s.Pending (readableFds ctl.ahead)) :
    Watched { s with ctl := ctl } :=
  watched.keeps ⟨rfl, rfl⟩ rfl rfl (fun _ => id) rfl covered

theorem Watched.raise (watched : Watched s) (fd : Fd) : Watched (s.raise fd) := by
  refine watched.keeps ⟨rfl, rfl⟩ rfl rfl (fun _ => raise_pending) ?_ watched.covered
  show ((Function.update s.entries fd ((s.entries fd).map fun _ => true)) s.pipefd).isSome = _
  by_cases same : s.pipefd = fd
  · subst same
    simp
  · rw [Function.update_of_ne same]

/-- The byte of a signal decodes to it. -/
theorem promoted_firstByte {sig : Int}
    (known : sig = sighup ∨ sig = sigchld ∨ sig = sigterm ∨ sig = sigint) :
    promoted (firstByte sig) = sig := by
  rcases known with rfl | rfl | rfl | rfl <;> decide

theorem Watched.sigHandler (watched : Watched s) {sig : Int} (sent : Bool)
    (known : sig = sighup ∨ sig = sigchld ∨ sig = sigterm ∨ sig = sigint) :
    Watched (s.sigHandler sig sent) := by
  unfold St.sigHandler
  split_ifs
  · have raised := watched.raise s.pipefd
    refine ⟨?_, raised.apart, raised.registered, ?_⟩
    · apply raised.covered.arrives _ fun _ => id
      rintro fd ⟨rfl, -⟩
      right
      obtain ⟨edge, entry⟩ := Option.isSome_iff_exists.mp watched.registered
      show (Function.update s.entries s.pipefd _) s.pipefd = some true
      rw [Function.update_self, entry]
    · show (s.pipe.sent ++ [firstByte sig]).map promoted = s.handled ++ [sig]
      rw [List.map_append, watched.decoded, List.map_singleton, promoted_firstByte known]
  · exact watched

/-- The edges of the descriptors that are returned are used up. -/
theorem Watched.wait (watched : Watched s) {batch : List Report} (waiting : s.ctl = .waiting)
    (due : ∀ r ∈ batch, Due s r) : Watched (s.epollReturns (.ok batch)) := by
  refine ⟨?_, watched.apart, ?_, watched.decoded⟩
  · have covered := watched.covered
    rw [waiting] at covered
    apply Covered.reported covered
    · exact fun fd => id
    · rintro fd ⟨rfl, unread⟩ pending
      by_cases mem : s.pipefd ∈ batch.map Report.fd
      · obtain ⟨r, hr, piped⟩ := List.mem_map.mp mem
        exact .inr (mem_keysOf.mpr ⟨r, hr, ((due r hr).2 piped).mpr unread, piped⟩)
      · left
        show (if s.pipefd ∈ batch.map Report.fd then _ else s.entries s.pipefd) = some true
        rw [if_neg mem]
        exact pending
  · show (if s.pipefd ∈ batch.map Report.fd then _ else s.entries s.pipefd).isSome = true
    split_ifs
    · rw [Option.isSome_map]
      exact watched.registered
    · exact watched.registered

/-- An event of another descriptor is handled. -/
theorem Watched.skip (watched : Watched s) (ctl : s.ctl = .events (r :: rest))
    (other : r.fd = s.pipefd → ¬ has r.events epollIn) :
    Covered s.Waiting s.Pending (readableFds rest) := by
  have covered := watched.covered
  rw [ctl] at covered
  by_cases piped : r.fd = s.pipefd
  · change Covered _ _ (readableFds (r :: rest)) at covered
    rwa [readableFds, keysOf_skip (show ¬ r.Readable from other piped)] at covered
  · apply Covered.handled covered keysOf_cons
    · exact fun waiting => absurd waiting.1 piped
    · exact fun fd _ => ⟨id, id⟩

theorem Watched.pipeBranch (watched : Watched s) (ctl : s.ctl = .events (r :: rest))
    (piped : r.fd = s.pipefd)
    (all : s.Pending s.pipefd ∨ s.pipe.unread.length ≤ (a.recv.getD []).length) :
    Watched (pipeBranch s rest a) := by
  have covered := watched.covered
  rw [ctl] at covered
  -- nothing is taken, so nothing was there or a newer edge is pending
  have idle : (a.recv.getD []).length = 0 →
      Watched { s with ctl := .events rest } := by
    intro empty
    apply watched.goto
    apply Covered.handled covered keysOf_cons
    · rintro ⟨-, unread⟩
      rw [St.Pending, piped]
      refine all.resolve_right ?_
      rw [empty]
      exact fun none => unread (List.length_eq_zero_iff.mp (Nat.le_zero.mp none))
    · exact fun fd _ => ⟨id, id⟩
  unfold Signal.pipeBranch
  cases answer : a.recv with
  | none => exact idle (by rw [answer]; rfl)
  | some bytes =>
    rw [answer, Option.getD_some] at all idle
    simp only
    split_ifs with empty
    · exact idle empty
    · refine ⟨?_, watched.apart, watched.registered, watched.decoded⟩
      have left : (s.pipe.consume bytes.length).unread = s.pipe.unread.drop bytes.length :=
        Channel.unread_consume _
      apply Covered.handled covered keysOf_cons
      · rintro ⟨-, unread⟩
        rw [St.Pending, piped]
        refine all.resolve_right fun taken => unread ?_
        rw [left]
        exact List.drop_eq_nil_of_le taken
      · refine fun fd _ => ⟨?_, id⟩
        rintro ⟨here, unread⟩
        refine ⟨here, fun none => unread ?_⟩
        rw [left, none, List.drop_nil]

theorem Watched.main (watched : Watched s) (all : TakesAll s (.main a))
    (run : mainStep s a = some t) : Watched t := by
  have covered := watched.covered
  unfold mainStep at run
  split at run
  · rename_i ctl
    obtain rfl := Option.some.inj run
    rw [ctl] at covered
    apply watched.goto
    split_ifs <;> exact covered
  · rename_i ctl
    obtain rfl := Option.some.inj run
    rw [ctl] at covered
    exact watched.goto covered
  · rename_i r rest ctl
    obtain rfl := Option.some.inj run
    unfold body
    split_ifs with listening piped
    · have left := watched.skip ctl fun piped => absurd (listening.symm.trans piped) watched.apart
      unfold acceptBranch
      split_ifs <;> exact watched.keeps ⟨rfl, rfl⟩ rfl rfl (fun _ => id) rfl left
    · exact watched.pipeBranch ctl piped.1 (all r (by rw [ctl]; rfl) piped.1 piped.2)
    · exact watched.goto (watched.skip ctl fun same readable => piped ⟨same, readable⟩)
  · rename_i connfd rest ctl
    obtain rfl := Option.some.inj run
    obtain ⟨pipe, -, -, handled, listenfd, pipefd⟩ := addfd_frame s connfd
    rw [ctl] at covered
    have added : ∀ fd, (s.entries fd).isSome → (s.addfd connfd).entries fd = s.entries fd := by
      intro fd registered
      unfold St.addfd
      split_ifs with absent
      · by_cases same : fd = connfd
        · subst same
          rw [absent.2] at registered
          cases registered
        · exact Function.update_of_ne same _ _
      · rfl
    refine watched.keeps ⟨listenfd, pipefd⟩ pipe handled ?_ ?_ covered
    · intro fd pending
      rw [St.Pending]
      refine (added fd ?_).trans pending
      rw [show s.entries fd = some true from pending]
      rfl
    · exact congrArg Option.isSome (added s.pipefd watched.registered)
  · rename_i rest ctl
    obtain rfl := Option.some.inj run
    rw [ctl] at covered
    exact watched.goto covered
  · rename_i c signals rest ctl
    obtain rfl := Option.some.inj run
    rw [ctl] at covered
    exact watched.keeps ⟨rfl, rfl⟩ rfl rfl (fun _ => id) rfl covered
  · cases run
  · cases run

end Steps

theorem boot_watched {listenfd pipefd : Fd} (apart : listenfd ≠ pipefd) :
    Watched (boot listenfd pipefd) := by
  refine ⟨?_, apart, by simp [boot], rfl⟩
  rintro fd ⟨-, unread⟩
  exact absurd rfl unread

theorem reachable_watched {s : St} (h : (machine.guard TakesAll).Reachable s) : Watched s := by
  apply h.invariant
  · rintro s ⟨listenfd, pipefd, -, -, apart, rfl⟩
    exact boot_watched apart
  · intro s a t _ watched lawful run
    obtain ⟨promised, all⟩ := lawful
    cases a with
    | connects =>
      obtain rfl := Option.some.inj run
      have raised := watched.raise s.listenfd
      exact raised.keeps ⟨rfl, rfl⟩ rfl rfl (fun _ => id) rfl raised.covered
    | arrives fd =>
      obtain rfl := Option.some.inj run
      exact watched.raise fd
    | signal sig sent =>
      have handled := watched.sigHandler sent promised
      have ctl := (sigHandler_frame s sig sent).1
      change step s (.signal sig sent) = some t at run
      unfold step at run
      split_ifs at run with waiting
      · obtain rfl := Option.some.inj run
        have covered := handled.covered
        rw [ctl, waiting] at covered
        exact handled.keeps ⟨rfl, rfl⟩ rfl rfl (fun _ => id) rfl covered
      · obtain rfl := Option.some.inj run
        exact handled
    | wait batch =>
      obtain rfl := Option.some.inj run
      exact watched.wait promised.1 promised.2.2
    | waitFailed errno =>
      obtain rfl := Option.some.inj run
      have covered := watched.covered
      rw [promised.1] at covered
      exact watched.keeps ⟨rfl, rfl⟩ rfl rfl (fun _ => id) rfl covered
    | main a => exact watched.main all run

/-- When every `recv` from `pipefd[0]` empties the pipe or has a newer edge pending, no signal is
missed: at the test of `stop_server` with no edge pending there, every byte sent has been examined,
they decode to the signals handled, and the server is to stop if it was told to. -/
theorem no_signal_missed {s : St} (h : (machine.guard TakesAll).Reachable s)
    (testing : s.ctl = .testing) (quiet : ¬ s.Pending s.pipefd) :
    s.examined = s.pipe.sent ∧ s.pipe.sent.map promoted = s.handled ∧
      (s.stopServer = true ↔ ∃ sig ∈ s.handled, sig = sigterm ∨ sig = sigint) := by
  have watched := reachable_watched h
  have scanned := reachable_scanned h.of_guard
  have unread : s.pipe.unread = [] := by
    by_contra unread
    have covered := watched.covered
    rw [testing] at covered
    exact quiet (covered.settled ⟨rfl, unread⟩)
  have examined : s.examined = s.pipe.sent := by
    have read := scanned.read
    rw [testing] at read
    change s.pipe.read = s.examined ++ [] at read
    rw [List.append_nil] at read
    rw [← read, ← s.pipe.read_append_unread, unread, List.append_nil]
  refine ⟨examined, watched.decoded, ?_⟩
  rw [scanned.told, examined, ← watched.decoded]
  simp only [List.mem_map, exists_exists_and_eq_and, Stops]

/-- `SIGHUP` and `SIGTERM` are delivered while the loop handles a connection. -/
def terminated : St := ((machine.guard TakesAll).replay (boot 3 4)
  [.connects, .main quiet, .wait [⟨3, epollIn⟩], .signal 1 true, .main { quiet with connfd := 5 },
    .signal 15 true, .main quiet, .main quiet, .main quiet, .wait [⟨4, epollIn⟩],
    .main { quiet with recv := some [1, 15] }, .main quiet, .main quiet, .main quiet,
    .main quiet]).getD (boot 3 4)

theorem terminated_reachable : (machine.guard TakesAll).Reachable terminated := by
  have start : (machine.guard TakesAll).Reachable (boot 3 4) :=
    .start ⟨3, 4, by decide, by decide, by decide, rfl⟩
  exact start.replay_getD _

theorem no_signal_missed_terminated :
    terminated.examined = [1, 15] ∧ terminated.stopServer = true := by
  obtain ⟨examined, decoded, stop⟩ := no_signal_missed terminated_reachable (by decide +kernel)
    (by decide +kernel)
  have handled : terminated.handled = [1, 15] := by decide +kernel
  refine ⟨?_, stop.mpr ⟨15, by rw [handled]; decide, .inl rfl⟩⟩
  rw [examined]
  decide +kernel

/-! A burst of signals before `epoll_wait` is called. -/

theorem hangups (n : Nat) : ∃ s, machine.Reachable s ∧ s.ctl = .testing ∧ s.stopServer = false ∧
    (s.listenfd = 3 ∧ s.pipefd = 4) ∧ (s.entries 4).isSome ∧ s.pipe.read = [] ∧
    s.pipe.sent = List.replicate n 1 ∧ s.examined = [] := by
  induction n with
  | zero => exact ⟨boot 3 4, boot_reachable, rfl, rfl, ⟨rfl, rfl⟩, by decide, rfl, rfl, rfl⟩
  | succ n ih =>
    obtain ⟨s, reach, testing, stop, ⟨listenfd, pipefd⟩, entry, read, sent, examined⟩ := ih
    have run : machine.step s (.signal 1 true) = some (s.sigHandler 1 true) := by
      simp [machine, step, testing]
    have lawful : machine.Lawful s (.signal 1 true) := Or.inl rfl
    refine ⟨s.sigHandler 1 true, reach.step lawful run, testing, stop, ⟨listenfd, pipefd⟩, ?_,
      read, ?_, examined⟩
    · show (Function.update s.entries s.pipefd _ 4).isSome = true
      rw [pipefd, Function.update_self, Option.isSome_map]
      exact entry
    · show s.pipe.sent ++ [firstByte 1] = _
      rw [sent, List.replicate_succ']
      rfl

/-- The inner loop runs over bytes that do not stop the server. -/
theorem scans (signals : List Byte) (go_on : ∀ c ∈ signals, ¬ Stops c) :
    ∀ s, machine.Reachable s → s.ctl = .scanning signals [] → ∃ t, machine.Reachable t ∧
      t.ctl = .testing ∧ t.stopServer = s.stopServer ∧ t.pipe = s.pipe ∧
      t.examined = s.examined ++ signals ∧ t.handled = s.handled ∧ t.pipefd = s.pipefd ∧
      t.entries = s.entries := by
  induction signals with
  | nil =>
    intro s reach ctl
    have first : machine.step s (.main quiet) = some { s with ctl := .events [] } := by
      simp [machine, step, mainStep, ctl]
    have lawful : machine.Lawful s (.main quiet) := by
      show Answered s quiet s.ctl
      rw [ctl]
      trivial
    have done := reach.step lawful first
    have last : machine.Lawful { s with ctl := .events [] } (.main quiet) := trivial
    exact ⟨_, done.step last rfl, rfl, rfl, rfl, (List.append_nil _).symm, rfl, rfl, rfl⟩
  | cons c signals ih =>
    intro s reach ctl
    have next : machine.step s (.main quiet) =
        some { s.examine c with ctl := .scanning signals [] } := by
      simp [machine, step, mainStep, ctl]
    have lawful : machine.Lawful s (.main quiet) := by
      show Answered s quiet s.ctl
      rw [ctl]
      trivial
    have done := reach.step lawful next
    obtain ⟨t, reach', testing, stop, pipe, examined, frame⟩ :=
      ih (fun x mem => go_on x (List.mem_cons_of_mem c mem)) _ done rfl
    have silent := go_on c List.mem_cons_self
    refine ⟨t, reach', testing, ?_, pipe, ?_, frame⟩
    · rw [stop]
      show (s.stopServer || promoted c == sigterm || promoted c == sigint) = s.stopServer
      rw [Bool.or_assoc, show (promoted c == sigterm || promoted c == sigint) = false by
        simpa [Stops] using silent, Bool.or_false]
    · rw [examined]
      exact List.append_assoc _ _ _

/-- `recv` returns the first bytes of those that wait, as many as the buffer holds. -/
theorem fills {s : St} (reach : machine.Reachable s) (ctl : s.ctl = .waiting)
    (apart : s.pipefd ≠ s.listenfd) (pending : s.Pending s.pipefd)
    (many : signalsSize ≤ s.pipe.unread.length) : ∃ t, machine.Reachable t ∧
      t.ctl = .scanning (s.pipe.unread.take signalsSize) [] ∧ t.stopServer = s.stopServer ∧
      t.pipe.sent = s.pipe.sent ∧ t.examined = s.examined ∧ t.handled = s.handled ∧
      t.pipefd = s.pipefd ∧ ¬ t.Pending s.pipefd := by
  have unread : s.pipe.unread ≠ [] := by
    rintro none
    rw [none] at many
    exact absurd many (by decide)
  have readable : has epollIn epollIn := by decide
  have due : machine.Lawful s (.wait [⟨s.pipefd, epollIn⟩]) := by
    refine ⟨ctl, List.nodup_singleton _, ?_⟩
    intro r hr
    obtain rfl := List.mem_singleton.mp hr
    exact ⟨pending, fun _ => iff_of_true readable unread⟩
  have length : (s.pipe.unread.take signalsSize).length = signalsSize := List.length_take_of_le many
  let a : Answers := ⟨-1, some (s.pipe.unread.take signalsSize)⟩
  have answered : machine.Lawful (s.epollReturns (.ok [⟨s.pipefd, epollIn⟩])) (.main a) := by
    show if s.pipefd = s.listenfd then _ else _
    rw [if_neg apart]
    rintro bytes returned
    obtain rfl := Option.some.inj returned
    refine ⟨Nat.le_of_eq length, List.take_prefix _ _, ?_⟩
    intro none
    rw [none] at length
    exact absurd length (by decide)
  have run : machine.step (s.epollReturns (.ok [⟨s.pipefd, epollIn⟩])) (.main a) =
      some { s.epollReturns (.ok [⟨s.pipefd, epollIn⟩]) with
        ctl := .scanning (s.pipe.unread.take signalsSize) []
        pipe := s.pipe.consume signalsSize } := by
    simp [machine, step, mainStep, St.epollReturns, body, apart, readable, pipeBranch, a, length,
      show signalsSize ≠ 0 by decide]
  refine ⟨_, (reach.step due rfl).step answered run, rfl, rfl, rfl, rfl, rfl, rfl, ?_⟩
  show (if s.pipefd ∈ [s.pipefd] then (s.entries s.pipefd).map fun _ => false else _) ≠ some true
  rw [if_pos List.mem_cons_self, show s.entries s.pipefd = some true from pending]
  decide

/-- A `SIGTERM` behind 1024 times `SIGHUP`: its byte stays in the pipe, and no edge is pending. -/
theorem burst_missed : ∃ s, machine.Reachable s ∧ s.ctl = .testing ∧ ¬ s.Pending s.pipefd ∧
    s.examined ≠ s.pipe.sent ∧ sigterm ∈ s.handled ∧ s.stopServer = false := by
  obtain ⟨s, reach, testing, stop, ⟨listenfd, pipefd⟩, entry, read, sent, examined⟩ :=
    hangups signalsSize
  -- the last signal, and the call of `epoll_wait`
  let u := s.sigHandler sigterm true
  have known : machine.Lawful s (.signal sigterm true) := Or.inr (Or.inr (Or.inl rfl))
  have run : machine.step s (.signal sigterm true) = some u := by
    simp [machine, step, testing, u]
  have queued : u.pipe.sent = List.replicate signalsSize 1 ++ [15] := by
    show s.pipe.sent ++ [firstByte sigterm] = _
    rw [sent]
    rfl
  have unread : u.pipe.unread = List.replicate signalsSize 1 ++ [15] := by
    rw [Channel.unread, queued, show u.pipe.read = [] from read, List.length_nil, List.drop_zero]
  have pending : u.Pending u.pipefd := by
    obtain ⟨edge, registered⟩ := Option.isSome_iff_exists.mp entry
    show Function.update s.entries s.pipefd _ s.pipefd = some true
    rw [pipefd, Function.update_self, registered]
  have calls : machine.step u (.main quiet) = some { u with ctl := .waiting } := by
    simp [machine, step, mainStep, show u.ctl = .testing from testing,
      show u.stopServer = false from stop]
  have lawful : machine.Lawful u (.main quiet) := by
    show Answered u quiet u.ctl
    rw [show u.ctl = .testing from testing]
    trivial
  have waiting := (reach.step known run).step lawful calls
  obtain ⟨v, reach', ctl, stop', sent', examined', handled', pipefd', idle⟩ := fills waiting rfl
    (show s.pipefd ≠ s.listenfd by rw [pipefd, listenfd]; decide) pending
    (by rw [show ({ u with ctl := .waiting } : St).pipe = u.pipe from rfl, unread]; simp)
  have taken : ({ u with ctl := .waiting } : St).pipe.unread.take signalsSize =
      List.replicate signalsSize 1 := by
    rw [show ({ u with ctl := .waiting } : St).pipe = u.pipe from rfl, unread]
    exact List.take_left' List.length_replicate
  rw [taken] at ctl
  have go_on : ∀ c ∈ List.replicate signalsSize (1 : Byte), ¬ Stops c := by
    intro c mem
    rw [List.eq_of_mem_replicate mem]
    decide
  obtain ⟨w, last, testing', stop'', pipe, seen, handled'', pipefd'', entries⟩ :=
    scans _ go_on v reach' ctl
  refine ⟨w, last, testing', ?_, ?_, ?_, ?_⟩
  · rw [St.Pending, entries, pipefd'', pipefd']
    exact idle
  · intro same
    have before : v.examined = [] := examined'.trans examined
    have after : w.pipe.sent = List.replicate signalsSize 1 ++ [15] := by
      rw [pipe, sent']
      exact queued
    rw [seen, before, after, List.nil_append] at same
    exact absurd (List.self_eq_append_right.mp same) (List.cons_ne_nil 15 [])
  · rw [handled'', handled']
    exact List.mem_append_right _ (List.mem_singleton_self _)
  · rw [stop'', stop']
    exact stop

end JiajiaNetwork.Signal
