/- What the timed connects leave open. `unblock_connect` closes its socket on every path but the one
   on which `connect` fails at once; `timeout_connect` closes it on none. -/
import JiajiaNetwork.Lib.Flags
import JiajiaNetwork.TimedConnect.Client

set_option autoImplicit false
set_option relaxedAutoImplicit false

namespace JiajiaNetwork.TimedConnect

open Lib Descriptors

/-- A connected socket with the file status flags that it was created with. -/
structure Connected (a : Answers) (fd : Fd) (x : Socket) : Prop where
  established : x.connection = .established
  created : a.socket = some (fd, x.flags)

/-- A function that returns does so with the descriptor of a connected socket, or with -1 and
without a socket left open. -/
def Tidy (s : St) (a : Answers) : Outcome → Prop
  | .returns ret t => Opens (Connected a) s.sockets ret t.sockets
  | .aborts => True
  | .fault => False

/-- A function returns -1 and leaves a socket open, or goes beyond an array. -/
def Breaks (s : St) : Outcome → Prop
  | .returns ret t =>
    ret = -1 ∧ ∃ fd x, s.sockets fd = none ∧ t.sockets = s.sockets.install fd x
  | .aborts => False
  | .fault => True

/-- `connect` succeeds, or it goes on for a descriptor that fits into an `fd_set`. -/
def Awaits (fd : Fd) : Except Int Unit → Prop
  | .ok _ => True
  | .error errno => errno = einprogress ∧ fd < fdSetsize

section Paths

variable {s t : St} {a : Answers} {fd : Fd} {x : Socket} {flags : Flags} {message : Message}

/-- `x` got its flags by a change of `flags`. -/
def Altered (flags : Flags) (x : Socket) : Prop :=
  (flags &&& setflMask) ||| (x.flags &&& ~~~setflMask) = flags

theorem tidy_close (fresh : s.sockets fd = none) (here : t.sockets = s.sockets.install fd x) :
    Tidy s a (.returns (-1) ((t.say message).close fd)) := by
  refine opens_failed_iff.mpr ?_
  show t.sockets.close fd = s.sockets
  rw [here, close_install fresh]

theorem breaks_open (fresh : s.sockets fd = none) (here : t.sockets = s.sockets.install fd x) :
    Breaks s (.returns (-1) t) := ⟨rfl, fd, x, fresh, here⟩

theorem Breaks.not_tidy {out : Outcome} (breaks : Breaks s out) : ¬ Tidy s a out := by
  cases out with
  | returns ret t =>
    obtain ⟨rfl, fd, x, fresh, here⟩ := breaks
    intro tidy
    exact install_ne fresh (here.symm.trans (opens_failed_iff.mp tidy))
  | aborts => exact breaks.elim
  | fault => exact id

/-- An outcome that is tidy under a condition and breaks otherwise. -/
theorem tidy_iff_of_cases {out : Outcome} {P : Prop}
    (h : P ∧ Tidy s a out ∨ ¬ P ∧ Breaks s out) : Tidy s a out ↔ P := by
  rcases h with ⟨kept, tidy⟩ | ⟨broken, breaks⟩
  · exact iff_of_true tidy kept
  · exact iff_of_false breaks.not_tidy broken

theorem tidy_connected (nonneg : 0 ≤ fd) (fresh : s.sockets fd = none)
    (here : t.sockets = s.sockets.install fd x) (connected : Connected a fd x) :
    Tidy s a (.returns fd t) := by
  show Opens (Connected a) s.sockets fd t.sockets
  rw [here]
  exact opens_install nonneg fresh connected

/-- The flags are put back behind a connection that was made. -/
theorem tidy_setfl (nonneg : 0 ≤ fd) (fresh : s.sockets fd = none)
    (created : a.socket = some (fd, flags)) (here : t.sockets = s.sockets.install fd x)
    (altered : Altered flags x) (established : x.connection = .established) :
    Tidy s a (.returns fd ((t.say message).setfl fd flags)) := by
  apply tidy_connected nonneg fresh
  · show t.sockets.alter fd _ = _
    rw [here, alter_install]
  · exact ⟨established, by rw [created, altered]⟩

theorem tidy_checkError (nonneg : 0 ≤ fd) (fresh : s.sockets fd = none)
    (created : a.socket = some (fd, flags)) (here : t.sockets = s.sockets.install fd x)
    (altered : Altered flags x) (done : x.error = 0 → x.connection = .established) :
    Tidy s a (checkError t fd flags a) := by
  unfold checkError St.soError
  cases a.getsockopt with
  | false => exact tidy_close fresh here
  | true =>
    simp only [if_true, here, install_apply, Option.map_some]
    split_ifs with failed
    · exact tidy_close fresh alter_install
    · exact tidy_setfl nonneg fresh created alter_install altered (done (not_not.mp failed))

/-- While `select` waits the socket stays open with its flags. Once its connection is settled, it
has an error or is connected. -/
theorem proceed_sockets {progress : Progress} (here : t.sockets = s.sockets.install fd x)
    (error : ∀ error, progress = .fails error → error ≠ 0) :
    ∃ y : Socket, (t.proceed fd progress).sockets = s.sockets.install fd y ∧ y.flags = x.flags ∧
      (progress ≠ .waits → y.error = 0 → x.error = 0 → y.connection = .established) := by
  cases progress with
  | waits => exact ⟨x, here, rfl, fun settled => absurd rfl settled⟩
  | succeeds =>
    refine ⟨{ x with connection := .established }, ?_, rfl, fun _ _ _ => rfl⟩
    show t.sockets.alter fd _ = _
    rw [here, alter_install]
  | fails e =>
    refine ⟨{ x with connection := .refused, error := e }, ?_, rfl, ?_⟩
    · show t.sockets.alter fd _ = _
      rw [here, alter_install]
    · exact fun _ none => absurd none (error e rfl)

/-- A set of descriptors that is too small for the socket is the only way to go wrong. -/
theorem awaitConnection_cases (nonneg : 0 ≤ fd) (fresh : s.sockets fd = none)
    (created : a.socket = some (fd, flags)) (here : t.sockets = s.sockets.install fd x)
    (altered : Altered flags x) (clean : x.error = 0) (answered : Answered s a)
    (pending : a.connect = .error einprogress) :
    fd < fdSetsize ∧ Tidy s a (awaitConnection t fd flags a) ∨
      ¬ fd < fdSetsize ∧ Breaks s (awaitConnection t fd flags a) := by
  unfold awaitConnection
  by_cases room : fd < fdSetsize
  · rw [CArray.set_eq_some _ _ nonneg room]
    refine .inl ⟨room, ?_⟩
    obtain ⟨y, here, same, done⟩ := proceed_sockets here answered.error
    cases reports : a.select with
    | none => exact tidy_close fresh here
    | some ready =>
      have inside : 0 ≤ fd ∧ fd < fd + 1 := ⟨nonneg, Int.lt_succ fd⟩
      simp only [select]
      split_ifs with count
      · exact tidy_close fresh here
      · rw [CArray.get_eq_some _ nonneg room]
        simp only [if_pos inside, CArray.put_cell_same, Bool.true_and]
        cases set : ready fd with
        | false => exact tidy_close fresh here
        | true =>
          have settled := answered.settled pending _ created ready reports set
          refine tidy_checkError nonneg fresh created here ?_ fun none => done settled none clean
          rw [Altered, same]
          exact altered
  · have beyond : a.writefds.set fd true = none := if_neg fun bounds => room bounds.2
    rw [beyond]
    exact .inr ⟨room, trivial⟩

/-- In nonblocking mode the socket keeps what `fdopt` restores. -/
theorem setnoblocking_sockets (here : t.sockets = s.sockets.install fd x) :
    (t.setnoblocking fd).1 = x.flags ∧ ∃ y : Socket, Altered x.flags y ∧ y.error = x.error ∧
      (t.setnoblocking fd).2.sockets = s.sockets.install fd y := by
  have old : t.getfl fd = x.flags := by
    rw [St.getfl, here, install_apply]
    rfl
  refine ⟨old, ⟨_, x.connection, x.error, x.sndtimeo⟩,
    restore_masked _ (x.flags ||| oNonblock) _, rfl, ?_⟩
  show t.sockets.alter fd _ = _
  rw [here, alter_install, old]

/-- Where there is no descriptor, `connect` fails with `EBADF`. -/
theorem connect_closed {answer : Except Int Unit} (closed : s.sockets fd = none) :
    s.connect fd answer = (.error ebadf, s) := by
  unfold St.connect
  rw [closed]
  rfl

theorem connect_ok {u : Unit} (here : t.sockets = s.sockets.install fd x) :
    t.connect fd (.ok u) = (.ok (), t.setConnection fd .established) := by
  unfold St.connect
  rw [here, install_apply]
  rfl

theorem connect_error {errno : Int} (here : t.sockets = s.sockets.install fd x) :
    t.connect fd (.error errno) =
      (.error errno, if errno = einprogress then t.setConnection fd .pending else t) := by
  unfold St.connect
  rw [here, install_apply]
  rfl

theorem setConnection_sockets {connection : Connection}
    (here : t.sockets = s.sockets.install fd x) :
    (t.setConnection fd connection).sockets = s.sockets.install fd { x with connection } := by
  show t.sockets.alter fd _ = _
  rw [here, alter_install]

end Paths

section Functions

variable {s : St} {a : Answers} (answered : Answered s a)

include answered

theorem unblockConnect_cases :
    (∀ c ∈ a.socket, Awaits c.1 a.connect) ∧ Tidy s a (unblockConnect s a) ∨
      ¬ (∀ c ∈ a.socket, Awaits c.1 a.connect) ∧ Breaks s (unblockConnect s a) := by
  unfold unblockConnect
  cases created : a.socket with
  | none =>
    have unchanged : ((s.setnoblocking (-1)).2).sockets = s.sockets :=
      alter_of_closed answered.invalid
    have closed : ((s.setnoblocking (-1)).2).sockets (-1) = none :=
      unchanged.symm ▸ answered.invalid
    refine .inl ⟨nofun, ?_⟩
    simp only [St.socket, connect_closed closed]
    exact opens_failed_iff.mpr unchanged
  | some c =>
    obtain ⟨fd, flags⟩ := c
    have nonneg : 0 ≤ fd := (answered.fresh _ created).1
    have fresh : s.sockets fd = none := (answered.fresh _ created).2
    obtain ⟨fdopt, y, altered, clean, here⟩ := setnoblocking_sockets (s := s)
      (t := (s.socket (some (fd, flags))).2) (x := ⟨flags, .unconnected, 0, none⟩) rfl
    simp only [Option.mem_some_iff, forall_eq', St.socket] at fdopt here ⊢
    rw [fdopt]
    cases connects : a.connect with
    | ok _ =>
      rw [connect_ok here]
      refine .inl ⟨trivial, ?_⟩
      exact tidy_setfl nonneg fresh created (setConnection_sockets here) altered rfl
    | error errno =>
      rw [connect_error here, Awaits]
      by_cases pending : errno = einprogress
      · subst pending
        simp only [ne_eq, not_true_eq_false, if_false, if_true, true_and]
        exact awaitConnection_cases nonneg fresh created (setConnection_sockets here) altered
          clean answered connects
      · simp only [ne_eq, pending, not_false_eq_true, if_true, if_false, false_and]
        exact .inr ⟨trivial, breaks_open fresh here⟩

theorem timeoutConnect_cases (time : Int) :
    (∀ c ∈ a.socket, a.connect = .ok ()) ∧ Tidy s a (timeoutConnect s time a) ∨
      ¬ (∀ c ∈ a.socket, a.connect = .ok ()) ∧ Breaks s (timeoutConnect s time a) := by
  unfold timeoutConnect
  cases created : a.socket with
  | none => exact .inl ⟨nofun, trivial⟩
  | some c =>
    obtain ⟨fd, flags⟩ := c
    have nonneg : 0 ≤ fd := (answered.fresh _ created).1
    have fresh : s.sockets fd = none := (answered.fresh _ created).2
    obtain ⟨y, here, same⟩ : ∃ y : Socket,
        ((s.socket (some (fd, flags))).2.setsockopt fd time a.setsockopt).sockets =
          s.sockets.install fd y ∧ y.flags = flags := by
      cases a.setsockopt with
      | false => exact ⟨_, rfl, rfl⟩
      | true => exact ⟨_, alter_install, rfl⟩
    have valid : ¬ fd < 0 := Int.not_lt.mpr nonneg
    simp only [Option.mem_some_iff, forall_eq', St.socket, valid, if_false] at here ⊢
    cases connects : a.connect with
    | ok _ =>
      rw [connect_ok here]
      refine .inl ⟨rfl, tidy_connected nonneg fresh (setConnection_sockets here) ⟨rfl, ?_⟩⟩
      rw [created, same]
    | error errno =>
      rw [connect_error here]
      refine .inr ⟨nofun, ?_⟩
      by_cases pending : errno = einprogress
      · simp only [pending, if_true]
        exact breaks_open fresh (setConnection_sockets here)
      · simp only [pending, if_false]
        exact breaks_open fresh here

end Functions

/-- The first function keeps its promise exactly when `connect` on its socket succeeds or is awaited
by `select`, the second one exactly when it succeeds. -/
theorem leaves_no_socket_iff {s : St} {a : Answers} (answered : Answered s a) (time : Int) :
    (Tidy s a (unblockConnect s a) ↔ ∀ c ∈ a.socket, Awaits c.1 a.connect) ∧
    (Tidy s a (timeoutConnect s time a) ↔ ∀ c ∈ a.socket, a.connect = .ok ()) :=
  ⟨tidy_iff_of_cases (unblockConnect_cases answered),
    tidy_iff_of_cases (timeoutConnect_cases answered time)⟩

/-- A process without sockets. -/
def quiet : St := ⟨fun _ => none, []⟩

/-- Descriptor `fd` is opened for reading and writing, its `connect` returns `connect`, and `select`
reports a connection that was made. -/
def answering (fd : Fd) (connect : Except Int Unit) : Answers where
  socket := some (fd, 0x2)
  setsockopt := true
  connect := connect
  writefds := ⟨fun _ => true⟩
  progress := .succeeds
  select := some fun _ => true
  getsockopt := true

theorem answered_answering (fd : Fd) (connect : Except Int Unit) (nonneg : 0 ≤ fd) :
    Answered quiet (answering fd connect) where
  invalid := rfl
  fresh c created := by
    obtain rfl := Option.some.inj created
    exact ⟨nonneg, rfl⟩
  settled _ _ _ _ _ _ := nofun
  error _ := nofun

theorem leaves_no_socket_iff_pending :
    (Tidy quiet (answering 3 (.error einprogress))
        (unblockConnect quiet (answering 3 (.error einprogress))) ↔
      ∀ c ∈ (answering 3 (.error einprogress)).socket, Awaits c.1 (.error einprogress)) ∧
    (Tidy quiet (answering 3 (.error einprogress))
        (timeoutConnect quiet 10 (answering 3 (.error einprogress))) ↔
      ∀ c ∈ (answering 3 (.error einprogress)).socket, Except.error einprogress = .ok ()) :=
  leaves_no_socket_iff (answered_answering 3 (.error einprogress) (by decide)) 10

/-- `ECONNREFUSED` leaves descriptor 3 open in both functions; and descriptor 1024 is beyond an
`fd_set`. -/
theorem refused_socket_left :
    (Answered quiet (answering 3 (.error 111)) ∧
      ¬ Tidy quiet (answering 3 (.error 111)) (unblockConnect quiet (answering 3 (.error 111))) ∧
      ¬ Tidy quiet (answering 3 (.error 111))
        (timeoutConnect quiet 10 (answering 3 (.error 111)))) ∧
    Answered quiet (answering 1024 (.error einprogress)) ∧
    ¬ Tidy quiet (answering 1024 (.error einprogress))
      (unblockConnect quiet (answering 1024 (.error einprogress))) := by
  have refused := answered_answering 3 (.error 111) (by decide)
  have crowded := answered_answering 1024 (.error einprogress) (by decide)
  refine ⟨⟨refused, fun tidy => ?_, fun tidy => ?_⟩, crowded, fun tidy => ?_⟩
  · have awaits := (tidy_iff_of_cases (unblockConnect_cases refused)).mp tidy
    exact absurd (awaits _ rfl).1 (by decide)
  · have connects := (tidy_iff_of_cases (timeoutConnect_cases refused 10)).mp tidy
    cases connects _ rfl
  · have awaits := (tidy_iff_of_cases (unblockConnect_cases crowded)).mp tidy
    exact absurd (awaits _ rfl).2 (by decide)

end JiajiaNetwork.TimedConnect
