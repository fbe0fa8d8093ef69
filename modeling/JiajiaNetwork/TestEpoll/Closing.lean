/- The system calls of `et` on the descriptors of its connections. A `recv` that returns 0 closes
   the descriptor and stays in the inner loop, so that the closed descriptor is read and closed
   once more; nothing else touches a closed descriptor. -/
import JiajiaNetwork.Lib.Lifetime
import JiajiaNetwork.TestEpoll.Agreement

set_option autoImplicit false
set_option relaxedAutoImplicit false

namespace JiajiaNetwork.TestEpoll

open Lib Machine

/-- A system call on a descriptor, or the descriptor that `accept` has returned. -/
inductive Event
  | accept (fd : Fd)
  | accepted (connfd : Fd)
  | epollCtl (fd : Fd)
  | recv (fd : Fd)
  | close (fd : Fd)
  deriving DecidableEq

/-- The descriptor that a call is about. -/
def Event.on? : Event → Option Fd
  | .accept fd | .epollCtl fd | .recv fd | .close fd => some fd
  | .accepted _ => none

def Event.life : Event → Life Fd
  | .accepted connfd => .opens connfd
  | .close fd => .closes fd
  | .accept _ | .epollCtl _ | .recv _ => .neither

/-- The call is not on a descriptor that is closed. -/
abbrev Usable (log : List Event) (e : Event) : Prop := UsesOpen Event.life Event.on? log e

section Usable

variable {log : List Event} {fd : Fd}

@[simp] theorem usable_accept : Usable log (.accept fd) ↔ fd ∉ shut Event.life log :=
  usesOpen_iff rfl

@[simp] theorem usable_accepted : Usable log (.accepted fd) := usesOpen_of_none rfl

@[simp] theorem usable_epollCtl : Usable log (.epollCtl fd) ↔ fd ∉ shut Event.life log :=
  usesOpen_iff rfl

@[simp] theorem usable_recv : Usable log (.recv fd) ↔ fd ∉ shut Event.life log :=
  usesOpen_iff rfl

@[simp] theorem usable_close : Usable log (.close fd) ↔ fd ∉ shut Event.life log :=
  usesOpen_iff rfl

theorem shut_accepted {listenfd : Fd} :
    shut Event.life (log ++ [.accept listenfd, .accepted fd]) = (shut Event.life log).erase fd := by
  have opens : (Event.accepted fd).life = .opens fd := rfl
  rw [List.append_cons, shut_opens opens, shut_quiet (by simp [Event.life])]

theorem shut_closed :
    shut Event.life (log ++ [.recv fd, .close fd]) = insert fd (shut Event.life log) := by
  have closes : (Event.close fd).life = .closes fd := rfl
  rw [List.append_cons, shut_closes closes, shut_quiet (by simp [Event.life])]

theorem always_accepted {listenfd : Fd} :
    Always Usable (log ++ [.accept listenfd, .accepted fd]) ↔
      Always Usable log ∧ listenfd ∉ shut Event.life log := by
  rw [List.append_cons, always_concat, always_concat, usable_accept]
  exact and_iff_left usable_accepted

theorem always_closed : Always Usable (log ++ [.recv fd, .close fd]) ↔
    Always Usable log ∧ fd ∉ shut Event.life log := by
  have same : shut Event.life (log ++ [.recv fd]) = shut Event.life log :=
    shut_quiet (by simp [Event.life])
  rw [List.append_cons, always_concat, always_concat, usable_recv, usable_close, same, and_assoc,
    and_self]

end Usable

/-- The calls of one turn of the inner loop. -/
def turnCalls (sockfd : Fd) (a : Answers) : List Event :=
  match a.recv with
  | none => if a.errno = eagain then [.recv sockfd] else [.recv sockfd, .close sockfd]
  | some bytes => if bytes.length = 0 then [.recv sockfd, .close sockfd] else [.recv sockfd]

/-- The calls of one step of `et`. -/
def etCalls (s : St) (a : Answers) : List Event :=
  match s.ctl with
  | .events (r :: _) =>
    if r.fd = s.listenfd then
      .accept s.listenfd :: if 0 ≤ a.connfd then [.accepted a.connfd] else []
    else []
  | .adding connfd _ => [.epollCtl connfd]
  | .draining sockfd _ => turnCalls sockfd a
  | .events [] | .left => []

def calls? : St × Input → List Event
  | (s, .main a) => etCalls s a
  | _ => []

def calls (steps : List (St × Input)) : List Event := steps.flatMap calls?

theorem calls_concat {steps : List (St × Input)} {p : St × Input} :
    calls (steps ++ [p]) = calls steps ++ calls? p := by
  rw [calls, List.flatMap_append, List.flatMap_singleton, calls]

/-- The call that `et` makes next. -/
def St.next (s : St) : List Event :=
  match s.ctl with
  | .events (r :: _) => if r.fd = s.listenfd then [.accept s.listenfd] else []
  | .adding connfd _ => [.epollCtl connfd]
  | .draining sockfd _ => [.recv sockfd]
  | .events [] | .left => []

/-- No descriptor is closed twice or used behind its close, unless `accept` has returned it
again. -/
structure Careful (log : List Event) : Prop where
  once : ∀ fd pre mid post, log = pre ++ .close fd :: mid ++ .close fd :: post →
    .accepted fd ∈ mid
  unused : Always Usable log

/-- In the inner loop `recv` does not return 0. -/
def NoEnd (s : St) : Input → Prop
  | .main a => ∀ fd rest, s.ctl = .draining fd rest → ∀ bytes ∈ a.recv, bytes.length ≠ 0
  | _ => True

theorem eq_accepted {e : Event} {fd : Fd} (opens : e.life = .opens fd) : e = .accepted fd := by
  cases e with
  | accepted connfd => exact congrArg Event.accepted (Life.opens.inj opens)
  | accept fd => cases opens
  | epollCtl fd => cases opens
  | recv fd => cases opens
  | close fd => cases opens

theorem careful_iff {log : List Event} : Careful log ↔ Always Usable log := by
  refine ⟨Careful.unused, fun all => ⟨?_, all⟩⟩
  rintro fd pre mid post rfl
  obtain ⟨e, mem, opens⟩ := opened_between all rfl rfl
  exact eq_accepted opens ▸ mem

/-- The closed descriptors are no open sockets, and what is ahead is one. -/
structure Kept (log : List Event) (s : St) : Prop where
  closed : ∀ fd ∈ shut Event.life log, s.sockets fd = none ∧ 0 ≤ fd ∧ fd ≠ s.listenfd
  opened : ∀ fd, (s.sockets fd).isSome → 0 ≤ fd ∧ fd ≠ s.listenfd
  distinct : s.ctl.touching.Nodup
  ahead : ∀ r ∈ s.ctl.ahead, r.fd ≠ s.listenfd → has r.events epollIn → (s.sockets r.fd).isSome
  draining : ∀ fd rest, s.ctl = .draining fd rest → 0 ≤ fd ∧ fd ≠ s.listenfd
  adding : ∀ connfd rest, s.ctl = .adding connfd rest →
    connfd < 0 ∨ (s.sockets connfd).isSome

/-- What a step of `et` outside `epoll_wait` does, with the calls that it makes. -/
inductive Move (s : St) (a : Answers) : List Event → St → Prop
  | accepts (r : Report) (rest : List Report) (c : Nat) (later : List Nat) :
      s.ctl = .events (r :: rest) → r.fd = s.listenfd → Fresh s a.connfd →
      Move s a [.accept s.listenfd, .accepted a.connfd] { s with
        ctl := .adding a.connfd rest
        backlog := later
        sockets := Function.update s.sockets a.connfd (some ⟨c, false⟩) }
  | refused (r : Report) (rest : List Report) :
      s.ctl = .events (r :: rest) → r.fd = s.listenfd → a.connfd = -1 →
      Move s a [.accept s.listenfd] { s with ctl := .adding a.connfd rest }
  | enters (r : Report) (rest : List Report) :
      s.ctl = .events (r :: rest) → r.fd ≠ s.listenfd → has r.events epollIn →
      Move s a [] { s with ctl := .draining r.fd rest }
  | skips (r : Report) (rest : List Report) :
      s.ctl = .events (r :: rest) → r.fd ≠ s.listenfd → Move s a [] { s with ctl := .events rest }
  | adds (connfd : Fd) (rest : List Report) :
      s.ctl = .adding connfd rest →
      Move s a [.epollCtl connfd] { s.addfd connfd true with ctl := .events rest }
  | empty (sockfd : Fd) (rest : List Report) :
      s.ctl = .draining sockfd rest → a.recv = none →
      Move s a [.recv sockfd] { s with ctl := .events rest }
  | fails (sockfd : Fd) (rest : List Report) :
      s.ctl = .draining sockfd rest → a.recv = none →
      Move s a [.recv sockfd, .close sockfd] { s.close sockfd with ctl := .events rest }
  | ends (sockfd : Fd) (rest : List Report) (bytes : List Byte) :
      s.ctl = .draining sockfd rest → a.recv = some bytes → bytes.length = 0 →
      Move s a [.recv sockfd, .close sockfd] (s.close sockfd)
  | reads (sockfd : Fd) (rest : List Report) (bytes : List Byte) (t : St) :
      s.ctl = .draining sockfd rest → a.recv = some bytes → bytes.length ≠ 0 →
      s.consume sockfd bytes.length = some t → Move s a [.recv sockfd] t

theorem mainStep_move {s t : St} {a : Answers} (answered : Answered s a s.ctl)
    (run : mainStep .et s a = some t) : Move s a (etCalls s a) t := by
  unfold mainStep at run
  unfold etCalls
  cases ctl : s.ctl with
  | events reports =>
    cases reports with
    | nil =>
      rw [ctl] at run
      cases run
    | cons r rest =>
      simp only [ctl] at run ⊢
      unfold body at run
      split_ifs at run with listening readable
      · rw [ctl, Answered, if_pos listening] at answered
        rw [if_pos listening]
        rcases acceptBranch_cases answered run with
          ⟨fresh, c, later, -, rfl⟩ | ⟨failed, rfl⟩
        · rw [if_pos fresh.1]
          exact .accepts r rest c later ctl listening fresh
        · rw [if_neg (by rw [failed]; decide)]
          exact .refused r rest ctl listening failed
      · obtain rfl := Option.some.inj run
        rw [if_neg listening]
        exact .enters r rest ctl listening readable
      · obtain rfl := Option.some.inj run
        rw [if_neg listening]
        exact .skips r rest ctl listening
  | adding connfd rest =>
    simp only [ctl] at run
    obtain rfl := Option.some.inj run
    exact .adds connfd rest ctl
  | draining sockfd rest =>
    simp only [ctl] at run ⊢
    unfold etTurn at run
    unfold turnCalls
    cases received : a.recv with
    | none =>
      simp only [received] at run ⊢
      split_ifs at run ⊢ with again
      · obtain rfl := Option.some.inj run
        exact .empty sockfd rest ctl received
      · obtain rfl := Option.some.inj run
        exact .fails sockfd rest ctl received
    | some bytes =>
      simp only [received] at run ⊢
      split_ifs at run ⊢ with ended
      · obtain rfl := Option.some.inj run
        exact .ends sockfd rest bytes ctl received ended
      · exact .reads sockfd rest bytes t ctl received ended run
  | left =>
    rw [ctl] at run
    cases run

section Steps

variable {s t : St} {log log' new : List Event} {a : Answers} {fd : Fd}

/-- The loop goes on with the same sockets. -/
theorem Kept.goto (kept : Kept log s) (listenfd : t.listenfd = s.listenfd)
    (sockets : t.sockets = s.sockets) (same : shut Event.life log' = shut Event.life log)
    (touching : t.ctl.touching.Sublist s.ctl.touching) (ahead : ∀ r ∈ t.ctl.ahead, r ∈ s.ctl.ahead)
    (draining : ∀ fd rest, t.ctl = .draining fd rest → 0 ≤ fd ∧ fd ≠ s.listenfd)
    (adding : ∀ connfd rest, t.ctl = .adding connfd rest →
      connfd < 0 ∨ (s.sockets connfd).isSome) : Kept log' t where
  closed := by
    rw [same, sockets, listenfd]
    exact kept.closed
  opened := by
    rw [sockets, listenfd]
    exact kept.opened
  distinct := kept.distinct.sublist touching
  ahead := by
    rw [sockets, listenfd]
    exact fun r mem => kept.ahead r (ahead r mem)
  draining := by
    rw [listenfd]
    exact draining
  adding := by
    rw [sockets]
    exact adding

/-- A new descriptor is open. -/
theorem Kept.accept (kept : Kept log s) {rest : List Report} {x : Socket}
    (fresh : Fresh s fd) (listenfd : t.listenfd = s.listenfd)
    (sockets : t.sockets = Function.update s.sockets fd (some x)) (ctl : t.ctl = .adding fd rest)
    (distinct : (rest.map Report.fd).Nodup) (ahead : ∀ r ∈ rest, r ∈ s.ctl.ahead)
    (same : shut Event.life log' = (shut Event.life log).erase fd) : Kept log' t where
  closed y mem := by
    rw [same] at mem
    obtain ⟨other, before⟩ := Finset.mem_erase.mp mem
    rw [sockets, listenfd, Function.update_of_ne other]
    exact kept.closed y before
  opened y isOpen := by
    rw [listenfd]
    by_cases own : y = fd
    · subst own
      exact ⟨fresh.1, fresh.2.1⟩
    · rw [sockets, Function.update_of_ne own] at isOpen
      exact kept.opened y isOpen
  distinct := ctl ▸ distinct
  ahead r mem other readable := by
    rw [ctl] at mem
    rw [listenfd] at other
    rw [sockets]
    by_cases own : r.fd = fd
    · rw [own, Function.update_self]
      rfl
    · rw [Function.update_of_ne own]
      exact kept.ahead r (ahead r mem) other readable
  draining y later target := by
    rw [ctl] at target
    cases target
  adding y later target := by
    rw [ctl] at target
    obtain ⟨rfl, -⟩ := Control.adding.inj target
    rw [sockets, Function.update_self]
    exact .inr rfl

/-- The descriptor of the inner loop is closed; no event ahead is about it. -/
theorem Kept.close (kept : Kept log s) {rest : List Report} (here : s.ctl = .draining fd rest)
    (listenfd : t.listenfd = s.listenfd)
    (sockets : t.sockets = Function.update s.sockets fd none)
    (there : t.ctl = .events rest ∨ t.ctl = .draining fd rest)
    (same : shut Event.life log' = insert fd (shut Event.life log)) : Kept log' t where
  closed y mem := by
    rw [same] at mem
    rw [sockets, listenfd]
    rcases Finset.mem_insert.mp mem with rfl | before
    · exact ⟨Function.update_self .., kept.draining y rest here⟩
    · obtain ⟨closed, lower⟩ := kept.closed y before
      refine ⟨?_, lower⟩
      by_cases own : y = fd
      · rw [own, Function.update_self]
      · rw [Function.update_of_ne own]
        exact closed
  opened y isOpen := by
    rw [listenfd]
    by_cases own : y = fd
    · subst own
      exact kept.draining y rest here
    · rw [sockets, Function.update_of_ne own] at isOpen
      exact kept.opened y isOpen
  distinct := by
    have before := kept.distinct
    rw [here] at before
    rcases there with ctl | ctl
    · rw [ctl]
      exact (List.nodup_cons.mp before).2
    · rw [ctl]
      exact before
  ahead r mem other readable := by
    have before := kept.distinct
    rw [here] at before
    have rest' : r ∈ rest := by
      rcases there with ctl | ctl
      · rw [ctl] at mem
        exact mem
      · rw [ctl] at mem
        exact mem
    have apart : r.fd ≠ fd := by
      intro own
      exact (List.nodup_cons.mp before).1 (own ▸ List.mem_map_of_mem rest')
    rw [listenfd] at other
    rw [sockets, Function.update_of_ne apart]
    exact kept.ahead r (here ▸ rest') other readable
  draining y later target := by
    rw [listenfd]
    rcases there with ctl | ctl
    · rw [ctl] at target
      cases target
    · rw [ctl] at target
      obtain ⟨rfl, -⟩ := Control.draining.inj target
      exact kept.draining fd rest here
  adding y later target := by
    rcases there with ctl | ctl
    · rw [ctl] at target
      cases target
    · rw [ctl] at target
      cases target

theorem Kept.move (kept : Kept log s) (move : Move s a new t) : Kept (log ++ new) t := by
  have outside : ∀ {ctl : Control} {rest : List Report}, ctl = .events rest →
      (∀ fd later, ctl = .draining fd later → 0 ≤ fd ∧ fd ≠ s.listenfd) ∧
      ∀ connfd later, ctl = .adding connfd later → connfd < 0 ∨ (s.sockets connfd).isSome := by
    rintro _ rest rfl
    exact ⟨fun _ _ same => (by cases same), fun _ _ same => by cases same⟩
  cases move with
  | accepts r rest c later ctl listening fresh =>
    have distinct := kept.distinct
    rw [ctl] at distinct
    refine kept.accept fresh rfl rfl rfl (List.nodup_cons.mp distinct).2 ?_ ?_
    · intro x mem
      rw [ctl]
      exact List.mem_cons_of_mem r mem
    · exact shut_accepted
  | refused r rest ctl listening failed =>
    refine kept.goto rfl rfl ?_ ?_ ?_ (fun _ _ same => by cases same) ?_
    · exact shut_quiet (by simp [Event.life])
    · rw [ctl]
      exact List.sublist_cons_self _ _
    · rw [ctl]
      exact fun x mem => List.mem_cons_of_mem r mem
    · intro connfd later same
      obtain ⟨rfl, -⟩ := Control.adding.inj same
      left
      rw [failed]
      decide
  | enters r rest ctl unlisted readable =>
    rw [List.append_nil]
    refine kept.goto rfl rfl rfl ?_ ?_ ?_ (fun _ _ same => by cases same)
    · rw [ctl]
      exact List.Sublist.refl _
    · rw [ctl]
      exact fun x mem => List.mem_cons_of_mem r mem
    · intro fd later same
      obtain ⟨rfl, -⟩ := Control.draining.inj same
      apply kept.opened
      exact kept.ahead r (by rw [ctl]; exact List.mem_cons_self) unlisted readable
  | skips r rest ctl unlisted =>
    rw [List.append_nil]
    refine kept.goto rfl rfl rfl ?_ ?_ (outside rfl).1 (outside rfl).2
    · rw [ctl]
      exact List.sublist_cons_self _ _
    · rw [ctl]
      exact fun x mem => List.mem_cons_of_mem r mem
  | adds connfd rest ctl =>
    have frame : (s.addfd connfd true).listenfd = s.listenfd ∧
        (s.addfd connfd true).sockets = s.sockets := by
      unfold St.addfd
      split_ifs <;> exact ⟨rfl, rfl⟩
    refine kept.goto frame.1 frame.2 ?_ ?_ ?_ (outside rfl).1 (outside rfl).2
    · exact shut_quiet (by simp [Event.life])
    · rw [ctl]
      exact List.Sublist.refl _
    · rw [ctl]
      exact fun x mem => mem
  | empty fd rest ctl failed =>
    refine kept.goto rfl rfl ?_ ?_ ?_ (outside rfl).1 (outside rfl).2
    · exact shut_quiet (by simp [Event.life])
    · rw [ctl]
      exact List.sublist_cons_self _ _
    · rw [ctl]
      exact fun x mem => mem
  | fails fd rest ctl failed =>
    refine kept.close ctl rfl rfl (.inl rfl) ?_
    exact shut_closed
  | ends fd rest bytes ctl received ended =>
    refine kept.close ctl rfl rfl (.inr ctl) ?_
    exact shut_closed
  | reads fd rest bytes _ ctl received some run =>
    obtain ⟨listenfd, -, sockets, same⟩ := consume_frame run
    refine kept.goto listenfd sockets ?_ ?_ ?_ ?_ ?_
    · exact shut_quiet (by simp [Event.life])
    · rw [same]
    · rw [same]
      exact fun x mem => mem
    · rw [same]
      exact kept.draining
    · rw [same]
      exact kept.adding

/-- No call so far was on a closed descriptor, and the inner loop is not at one. -/
def Tidy (log : List Event) (s : St) : Prop :=
  Always Usable log ∧
    ∀ fd rest, s.ctl = .draining fd rest → fd ∉ shut Event.life log

theorem tidy_iff (outside : ∀ fd rest, s.ctl ≠ .draining fd rest) :
    Tidy log s ↔ Always Usable log :=
  and_iff_left fun fd rest same => absurd same (outside fd rest)

theorem Control.Calling.outside {ctl : Control} (calling : ctl.Calling) (fd : Fd)
    (rest : List Report) : ctl ≠ .draining fd rest := by
  rintro rfl
  exact calling

/-- What `addfd` is called for is no closed descriptor. -/
theorem Kept.adding_open (kept : Kept log s) {rest : List Report} (ctl : s.ctl = .adding fd rest) :
    fd ∉ shut Event.life log := by
  intro mem
  obtain ⟨closed, lower, -⟩ := kept.closed fd mem
  rcases kept.adding fd rest ctl with negative | isOpen
  · exact absurd lower (Int.not_le.mpr negative)
  · rw [closed] at isOpen
    cases isOpen

/-- Only the call of `recv` in the inner loop could be on a closed descriptor. -/
theorem Kept.next (kept : Kept log s) :
    Always Usable (log ++ s.next) ↔ Tidy log s := by
  cases ctl : s.ctl with
  | events rest =>
    rw [tidy_iff (by simp [ctl])]
    cases rest with
    | nil =>
      have none : s.next = [] := by simp [St.next, ctl]
      rw [none, List.append_nil]
    | cons r rest =>
      by_cases listening : r.fd = s.listenfd
      · have one : s.next = [.accept s.listenfd] := by simp [St.next, ctl, listening]
        have opened : s.listenfd ∉ shut Event.life log := fun mem => (kept.closed _ mem).2.2 rfl
        rw [one, always_concat, usable_accept, and_iff_left opened]
      · have none : s.next = [] := by simp [St.next, ctl, listening]
        rw [none, List.append_nil]
  | adding connfd rest =>
    have one : s.next = [.epollCtl connfd] := by simp [St.next, ctl]
    rw [tidy_iff (by simp [ctl]), one, always_concat, usable_epollCtl,
      and_iff_left (kept.adding_open ctl)]
  | draining fd rest =>
    have one : s.next = [.recv fd] := by simp [St.next, ctl]
    rw [one, always_concat, usable_recv, Tidy]
    apply and_congr_right
    intro _
    constructor
    · intro opened fd' later same
      obtain ⟨rfl, -⟩ := Control.draining.inj (ctl.symm.trans same)
      exact opened
    · intro all
      exact all fd rest ctl
  | left =>
    have none : s.next = [] := by simp [St.next, ctl]
    rw [tidy_iff (by simp [ctl]), none, List.append_nil]

/-- A step keeps this unless `recv` returns 0 in the inner loop. -/
theorem Tidy.move (kept : Kept log s) (move : Move s a new t) :
    Tidy (log ++ new) t ↔ Tidy log s ∧ NoEnd s (.main a) := by
  cases move with
  | accepts r rest c later ctl listening fresh =>
    have opened : s.listenfd ∉ shut Event.life log := fun mem => (kept.closed _ mem).2.2 rfl
    simp [Tidy, NoEnd, always_accepted, opened, ctl]
  | refused r rest ctl listening failed =>
    have opened : s.listenfd ∉ shut Event.life log := fun mem => (kept.closed _ mem).2.2 rfl
    simp [Tidy, NoEnd, always_concat, opened, ctl]
  | enters r rest ctl unlisted readable =>
    have opened : r.fd ∉ shut Event.life log := by
      intro mem
      have isOpen := kept.ahead r (by rw [ctl]; exact List.mem_cons_self) unlisted readable
      rw [(kept.closed _ mem).1] at isOpen
      cases isOpen
    simp [Tidy, NoEnd, opened, ctl]
  | skips r rest ctl unlisted =>
    simp [Tidy, NoEnd, ctl]
  | adds connfd rest ctl =>
    have opened := kept.adding_open ctl
    simp [Tidy, NoEnd, always_concat, opened, ctl]
  | empty fd rest ctl failed =>
    simp [Tidy, NoEnd, always_concat, failed, ctl]
  | fails fd rest ctl failed =>
    simp [Tidy, NoEnd, always_closed, failed, ctl]
  | ends fd rest bytes ctl received ended =>
    constructor
    · intro tidy
      -- the inner loop goes on at the descriptor that it has closed
      refine absurd ?_ (tidy.2 fd rest ctl)
      rw [shut_closed]
      exact Finset.mem_insert_self _ _
    · rintro ⟨-, nonzero⟩
      exact absurd ended (nonzero fd rest ctl bytes received)
  | reads fd rest bytes _ ctl received some run =>
    obtain ⟨-, -, -, next⟩ := consume_frame run
    have same : shut Event.life (log ++ [.recv fd]) = shut Event.life log :=
      shut_quiet (by simp [Event.life])
    have nonzero : NoEnd s (.main a) := by
      rintro _ _ - _ same
      obtain rfl := Option.some.inj (received.symm.trans same)
      exact some
    simp [Tidy, nonzero, always_concat, same, next, ctl]

/-- What is reported as readable is the listening socket or an open one. -/
theorem Kept.wait (kept : Kept log s) {batch : List Report}
    (promised : Lawful s (.wait batch)) (run : step .et s (.wait batch) = some t) : Kept log t := by
  obtain ⟨-, distinct, due⟩ := promised
  obtain rfl := Option.some.inj run
  refine ⟨kept.closed, kept.opened, distinct, ?_, fun _ _ same => (by cases same),
    fun _ _ same => by cases same⟩
  intro r mem unlisted readable
  have some := (due r mem).2.mp readable
  unfold St.readable at some
  rw [if_neg unlisted] at some
  cases socket : s.sockets r.fd with
  | none =>
    rw [socket] at some
    cases some
  | some x => rfl

end Steps

theorem boot_kept {listenfd : Fd} : Kept [] (boot listenfd) where
  closed fd mem := by cases mem
  opened fd isOpen := by cases isOpen
  distinct := List.nodup_nil
  ahead r mem := by cases mem
  draining fd rest same := by cases same
  adding connfd rest same := by cases same

theorem run_tidy {steps : List (St × Input)} {s : St} (h : (machine .et).Run steps s) :
    Kept (calls steps) s ∧ (Tidy (calls steps) s ↔ ∀ p ∈ steps, NoEnd p.1 p.2) := by
  apply h.invariant (I := fun steps s =>
    Kept (calls steps) s ∧ (Tidy (calls steps) s ↔ ∀ p ∈ steps, NoEnd p.1 p.2))
  · rintro s ⟨listenfd, -, rfl⟩
    refine ⟨boot_kept, iff_of_true ⟨always_nil _, fun _ _ same => (by cases same)⟩ ?_⟩
    exact fun p mem => absurd mem List.not_mem_nil
  · rintro steps s a t - ⟨kept, tidy⟩ lawful run
    have one : (∀ p ∈ steps ++ [(s, a)], NoEnd p.1 p.2) ↔
        (∀ p ∈ steps, NoEnd p.1 p.2) ∧ NoEnd s a := by
      simp [or_imp, forall_and]
    rw [calls_concat, one, ← tidy]
    -- the steps in front of and behind `epoll_wait` make no call on a descriptor
    have idle : NoEnd s a → calls? (s, a) = [] → t.ctl = s.ctl → t.listenfd = s.listenfd →
        t.sockets = s.sockets → Kept (calls steps ++ calls? (s, a)) t ∧
          (Tidy (calls steps ++ calls? (s, a)) t ↔ Tidy (calls steps) s ∧ NoEnd s a) := by
      intro trivially none ctl listenfd sockets
      rw [none, List.append_nil, and_iff_left trivially, Tidy, Tidy, ctl]
      refine ⟨kept.goto listenfd sockets rfl ?_ ?_ ?_ ?_, Iff.rfl⟩
      · rw [ctl]
      · rw [ctl]
        exact fun r mem => mem
      · rw [ctl]
        exact kept.draining
      · rw [ctl]
        exact kept.adding
    cases a with
    | connects =>
      obtain rfl := Option.some.inj run
      exact idle trivial rfl rfl rfl rfl
    | arrives connection bytes =>
      obtain rfl := Option.some.inj run
      exact idle trivial rfl rfl rfl rfl
    | finishes connection =>
      obtain rfl := Option.some.inj run
      exact idle trivial rfl rfl rfl rfl
    | wait batch =>
      have next := kept.wait lawful run
      obtain rfl := Option.some.inj run
      have none : calls? (s, .wait batch) = [] := rfl
      rw [none, List.append_nil, and_iff_left (show NoEnd s (.wait batch) from trivial),
        tidy_iff lawful.1.outside, tidy_iff (by simp)]
      exact ⟨next, Iff.rfl⟩
    | waitFailed =>
      obtain rfl := Option.some.inj run
      have calling : s.ctl.Calling := lawful
      have none : calls? (s, .waitFailed) = [] := rfl
      rw [none, List.append_nil, and_iff_left (show NoEnd s .waitFailed from trivial),
        tidy_iff calling.outside, tidy_iff (by simp)]
      refine ⟨kept.goto rfl rfl rfl (List.nil_sublist _) ?_ ?_ ?_, Iff.rfl⟩
      · exact fun r mem => absurd mem List.not_mem_nil
      · exact fun _ _ same => by cases same
      · exact fun _ _ same => by cases same
    | main a =>
      have move := mainStep_move lawful run
      exact ⟨kept.move move, Tidy.move kept move⟩

/-- `et` closes each connection at most once and uses no descriptor behind its close exactly when
`recv` never returns 0 in its inner loop. -/
theorem careful_iff_noEnd {steps : List (St × Input)} {s : St} (h : (machine .et).Run steps s) :
    Careful (calls steps ++ s.next) ↔ ∀ p ∈ steps, NoEnd p.1 p.2 := by
  obtain ⟨kept, tidy⟩ := run_tidy h
  rw [careful_iff, kept.next, tidy]

/-- The connection on 5 is read and then fails. -/
def broken : St := ((machine .et).replay (boot 3)
  [.connects, .wait [⟨3, epollIn⟩], .main ⟨5, none, 0⟩, .main ⟨-1, none, 0⟩, .arrives 0 [104, 105],
    .wait [⟨5, epollIn⟩], .main ⟨-1, none, 0⟩, .main ⟨-1, some [104, 105], 0⟩,
    .main ⟨-1, none, 104⟩]).getD (boot 3)

theorem careful_iff_noEnd_broken : ∃ steps, (machine .et).Run steps broken ∧
    (Careful (calls steps ++ broken.next) ↔ ∀ p ∈ steps, NoEnd p.1 p.2) := by
  have start : (machine .et).Reachable (boot 3) := .start ⟨3, by decide, rfl⟩
  obtain ⟨steps, run⟩ := start.replay_getD _
  exact ⟨steps, run, careful_iff_noEnd run⟩

/-- The client of the connection on 5 has finished: `et` reads and closes 5 twice. -/
theorem closed_twice : ∃ steps s, (machine .et).Run steps s ∧
    [.recv 5, .close 5, .recv 5, .close 5] <:+ calls steps ∧ ¬ Careful (calls steps) := by
  obtain ⟨pre, run⟩ := drained_reachable.of_guard
  have first := run.step (a := .main ⟨-1, some [], 0⟩) (by decide +kernel) rfl
  have second := first.step (a := .main ⟨-1, none, ebadf⟩) (by decide +kernel) rfl
  have once : calls? (drained, .main ⟨-1, some [], 0⟩) = [.recv 5, .close 5] := by decide +kernel
  have twice : calls? (drained.close 5, .main ⟨-1, none, ebadf⟩) = [.recv 5, .close 5] := by
    decide +kernel
  refine ⟨_, _, second, ?_⟩
  rw [calls_concat, calls_concat, once, twice, List.append_assoc]
  refine ⟨⟨calls pre, rfl⟩, fun careful => ?_⟩
  have again := careful.once 5 (calls pre ++ [.recv 5]) [.recv 5] [] (by simp)
  revert again
  decide

end JiajiaNetwork.TestEpoll
