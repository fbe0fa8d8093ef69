/- What the workers read together. The bytes of a connection are read once and in order, by workers
   that take turns; a connection that was closed, or a server that is at rest, has read them all. -/
import JiajiaNetwork.Lib.History
import JiajiaNetwork.Lib.Ledger
import JiajiaNetwork.OneShot.Handover
import JiajiaNetwork.OneShot.Worker

set_option autoImplicit false
set_option relaxedAutoImplicit false

namespace JiajiaNetwork.OneShot

open Lib

/-- The connection that a worker calls `recv` for. -/
def St.reading? (s : St) (thread : Nat) : Option Nat :=
  (s.workers thread).bind fun w =>
    match w.stage with
    | .serving arg => s.kernel.connection? arg.sockfd
    | .started | .again _ | .closing _ | .finished => none

def transfers : St × Input → List (Transfer Byte)
  | (s, .arrives fd bytes) => (s.kernel.connection? fd).toList.map (.sent · bytes)
  | (s, .worker thread _ (.received bytes)) => (s.reading? thread).toList.map (.read · bytes)
  | _ => []

def ledger (steps : List (St × Input)) : List (Transfer Byte) := steps.flatMap transfers

def reader? (c : Nat) : St × Input → Option Nat
  | (s, .worker thread _ (.received _)) => if s.reading? thread = some c then some thread else none
  | _ => none

/-- The workers that have read from the connection, one for each `recv`. -/
def readers (c : Nat) (steps : List (St × Input)) : List Nat := steps.filterMap (reader? c)

/-- Whoever comes again came last. -/
def TakeTurns (threads : List Nat) : Prop :=
  Always (fun before thread => thread ∈ before → before.getLast? = some thread) threads

/-- Every worker has ended, and `epoll_wait` has no event of a connection to return. -/
structure Quiet (s : St) : Prop where
  calling : s.ctl.Calling
  pending : ∀ fd, fd ≠ s.listenfd → ¬ Pending s fd
  finished : ∀ thread, ∀ w ∈ s.workers thread, w.stage = .finished

structure ReadInFull (c : Nat) (steps : List (St × Input)) (s : St) : Prop where
  order : readOn c (ledger steps) <+: sentOn c (ledger steps)
  whole : (∀ fd, s.kernel.connection? fd ≠ some c) ∨ Quiet s →
    readOn c (ledger steps) = sentOn c (ledger steps)
  own : ∀ thread ∈ readers c steps, ∃ w ∈ s.workers thread, w.event.connection = c
  turns : TakeTurns (readers c steps)

namespace Kernel

variable {k : Kernel} {fd : Fd} {log : List (Transfer Byte)}

/-- The connection behind a descriptor, with its stream. -/
def line? (k : Kernel) (fd : Fd) : Option (Nat × Channel Byte) :=
  (k.sockets fd).map fun x => (x.connection, x.stream)

theorem connection?_eq : k.connection? fd = (k.line? fd).map Prod.fst := by
  rw [connection?, line?, Option.map_map]
  rfl

theorem connection?_eq_some {c : Nat} :
    k.connection? fd = some c ↔ ∃ x, k.line? fd = some (c, x) := by
  rw [connection?_eq, Option.map_eq_some_iff]
  constructor
  · rintro ⟨⟨c, x⟩, line, rfl⟩
    exact ⟨x, line⟩
  · rintro ⟨x, line⟩
    exact ⟨(c, x), line, rfl⟩

theorem line?_of_socket {x : Socket} (opened : x ∈ k.sockets fd) :
    k.line? fd = some (x.connection, x.stream) := by
  rw [line?, Option.mem_def.mp opened, Option.map_some]

theorem line?_arrives {c : Nat} {x : Channel Byte} (line : k.line? fd = some (c, x))
    (change : Channel Byte → Channel Byte) :
    (k.arrives fd change).line? = Function.update k.line? fd (some (c, change x)) := by
  obtain ⟨y, opened, same⟩ := Option.map_eq_some_iff.mp line
  obtain ⟨rfl, rfl⟩ := Prod.mk.inj same
  ext1 i
  by_cases here : i = fd
  · subst here
    simp [line?, arrives, opened]
  · simp [line?, arrives, here]

theorem line?_consume {c : Nat} {x : Channel Byte} (line : k.line? fd = some (c, x)) (n : Nat) :
    (k.consume fd n).line? = Function.update k.line? fd (some (c, x.consume n)) := by
  obtain ⟨y, opened, same⟩ := Option.map_eq_some_iff.mp line
  obtain ⟨rfl, rfl⟩ := Prod.mk.inj same
  ext1 i
  by_cases here : i = fd
  · subst here
    simp [line?, consume, opened]
  · simp [line?, consume, here]

theorem line?_accept (lower : 0 ≤ fd) :
    (k.accept fd).line? = Function.update k.line? fd (some (k.accepted, .empty)) := by
  ext1 i
  by_cases here : i = fd
  · subst here
    simp [line?, accept, lower]
  · simp [line?, accept, lower, here]

theorem line?_addfd (oneshot : Bool) : (k.addfd fd oneshot).line? = k.line? := by
  have added : ∀ events, (k.ctlAdd fd events).sockets = k.sockets := by
    intro events
    unfold ctlAdd
    split_ifs <;> rfl
  ext1 i
  by_cases here : i = fd
  · subst here
    simp [line?, addfd, setnonblocking, added, Option.map_map, Function.comp_def]
  · simp [line?, addfd, setnonblocking, added, here]

theorem line?_close : (k.close fd).line? = Function.update k.line? fd none := by
  ext1 i
  by_cases here : i = fd
  · subst here
    simp [line?, close]
  · simp [line?, close, here]

theorem accepted_addfd (oneshot : Bool) : (k.addfd fd oneshot).accepted = k.accepted := by
  unfold addfd setnonblocking ctlAdd
  split_ifs <;> rfl

/-- The ledger says what was sent and read on the connections. -/
def Accounts (k : Kernel) (log : List (Transfer Byte)) : Prop := Balanced k.line? k.accepted log

theorem Accounts.arrives {c : Nat} {x : Channel Byte} (h : k.Accounts log)
    (line : k.line? fd = some (c, x)) (bytes : List Byte) :
    (k.arrives fd (·.send bytes)).Accounts (log ++ [.sent c bytes]) := by
  rw [Accounts, line?_arrives line]
  exact Balanced.send h line bytes

theorem Accounts.finishes {c : Nat} {x : Channel Byte} (h : k.Accounts log)
    (line : k.line? fd = some (c, x)) : (k.arrives fd (·.finish)).Accounts log := by
  rw [Accounts, line?_arrives line]
  exact Balanced.finish h line

theorem Accounts.consume {c : Nat} {x : Channel Byte} {bytes : List Byte} (h : k.Accounts log)
    (line : k.line? fd = some (c, x)) (yields : x.Yields bytes) :
    (k.consume fd bytes.length).Accounts (log ++ [.read c bytes]) := by
  rw [Accounts, line?_consume line]
  exact Balanced.consume h line yields

theorem Accounts.accept (h : k.Accounts log) (closed : 0 ≤ fd → k.sockets fd = none) :
    (k.accept fd).Accounts log := by
  by_cases lower : 0 ≤ fd
  · have opened : (k.accept fd).accepted = k.accepted + 1 := by
      rw [Kernel.accept, if_pos lower]
    rw [Accounts, line?_accept lower, opened]
    exact Balanced.opens h (by rw [line?, closed lower, Option.map_none])
  · rw [Kernel.accept, if_neg lower]
    exact h

theorem Accounts.addfd (h : k.Accounts log) (oneshot : Bool) :
    (k.addfd fd oneshot).Accounts log := by
  rw [Accounts, line?_addfd, accepted_addfd]
  exact h

theorem Accounts.close (h : k.Accounts log) (spent : ∀ l ∈ k.line? fd, l.2.unread = []) :
    (k.close fd).Accounts log := by
  rw [Accounts, line?_close]
  cases line : k.line? fd with
  | none =>
    rw [← line, Function.update_eq_self]
    exact h
  | some l => exact Balanced.closes h line (spent l line)

/-- The connection behind the descriptor, if there is one, has come to its end. -/
def Spent (k : Kernel) (fd : Fd) : Prop := ∀ l ∈ k.line? fd, l.2.Exhausted

/-- Nothing arrives on a connection that has come to its end. -/
theorem Spent.arrives {i : Fd} (h : k.Spent i) (sending : Sending k fd)
    (change : Channel Byte → Channel Byte) : (k.arrives fd change).Spent i := by
  obtain ⟨x, opened, going⟩ := sending
  have line := line?_of_socket opened
  intro l hl
  rw [line?_arrives line] at hl
  rcases Balanced.mem_update hl with ⟨rfl, -⟩ | ⟨-, old⟩
  · have ended := (h _ line).finished
    rw [going] at ended
    cases ended
  · exact h l old

theorem Spent.consume {i : Fd} (h : k.Spent i) {x : Socket} (opened : x ∈ k.sockets fd)
    (n : Nat) : (k.consume fd n).Spent i := by
  have line := line?_of_socket opened
  intro l hl
  rw [line?_consume line] at hl
  rcases Balanced.mem_update hl with ⟨rfl, same⟩ | ⟨-, old⟩
  · obtain rfl := Option.some.inj same
    exact (h _ line).consume n
  · exact h l old

theorem Spent.accept {i : Fd} (h : k.Spent i) (other : 0 ≤ fd → i ≠ fd) :
    (k.accept fd).Spent i := by
  by_cases lower : 0 ≤ fd
  · intro l hl
    rw [line?_accept lower, Function.update_of_ne (other lower)] at hl
    exact h l hl
  · rw [Kernel.accept, if_neg lower]
    exact h

theorem Spent.addfd {i : Fd} (h : k.Spent i) (oneshot : Bool) : (k.addfd fd oneshot).Spent i := by
  rw [Spent, line?_addfd]
  exact h

theorem Spent.close {i : Fd} (h : k.Spent i) : (k.close fd).Spent i := by
  intro l hl
  rw [line?_close] at hl
  rcases Balanced.mem_update hl with ⟨-, same⟩ | ⟨-, old⟩
  · cases same
  · exact h l old

end Kernel

/-! What a step does to the connections and the workers. -/

section Steps

variable {s t : St} {thread : Nat} {w : Worker}

/-- The main thread accepts a connection, registers it, or leaves the sockets alone. -/
theorem mainStep_kernel {connfd : Fd} (run : mainStep s connfd thread = some t) :
    ((∀ fd rest, s.ctl ≠ .adding fd rest) ∧
      ∃ rest, t.ctl = .adding connfd rest ∧ t.kernel = s.kernel.accept connfd) ∨
    (∃ fd rest, s.ctl = .adding fd rest ∧ t.kernel = s.kernel.addfd fd true) ∨
    ((∀ fd rest, s.ctl ≠ .adding fd rest) ∧ t.kernel = s.kernel) := by
  unfold mainStep at run
  split at run
  · rename_i ctl
    split_ifs at run
    · obtain rfl := Option.some.inj run
      exact .inl ⟨by simp [ctl], _, rfl, rfl⟩
    · obtain rfl := Option.some.inj run
      exact .inr (.inr ⟨by simp [ctl], rfl⟩)
    · obtain rfl := Option.some.inj run
      exact .inr (.inr ⟨by simp [ctl], rfl⟩)
  · rename_i ctl
    obtain rfl := Option.some.inj run
    exact .inr (.inl ⟨_, _, ctl, rfl⟩)
  · rename_i ctl
    obtain rfl := Option.some.inj run
    exact .inr (.inr ⟨by simp [ctl], rfl⟩)
  · rename_i ctl
    obtain rfl := Option.some.inj run
    exact .inr (.inr ⟨by simp [ctl], rfl⟩)
  · cases run
  · cases run

theorem fresh_closed {connfd : Fd} (fresh : Fresh s connfd) (lower : 0 ≤ connfd) :
    s.kernel.sockets connfd = none := by
  obtain rfl | ⟨-, -, -, closed⟩ := fresh
  · exact absurd lower (by decide)
  · exact closed

/-- A worker that is about to close its socket was told that there is no more. -/
def Drained (s : St) : Prop :=
  ∀ thread, ∀ w ∈ s.workers thread, ∀ arg, w.stage = .closing arg → s.kernel.Spent arg.sockfd

theorem Drained.kernel (h : Drained s) {k : Kernel}
    (kept : ∀ fd, s.kernel.Spent fd → k.Spent fd) : Drained { s with kernel := k } :=
  fun thread w hw arg stage => kept arg.sockfd (h thread w hw arg stage)

/-- A worker goes on; if it goes on to `close`, its connection has come to its end. -/
theorem Drained.goto (h : Drained s) {stage : Stage}
    (told : ∀ arg, stage = .closing arg → s.kernel.Spent arg.sockfd) :
    Drained (s.goto thread w stage) := by
  intro other v hv arg closing
  rcases mem_update hv with ⟨rfl, rfl⟩ | ⟨-, old⟩
  · exact told arg closing
  · exact h other v old arg closing

theorem Drained.mainStep (h : Drained s) (owned : Owned s) {connfd : Fd}
    (fresh : Fresh s connfd) (run : mainStep s connfd thread = some t) : Drained t := by
  have closing : ∀ other, ∀ v ∈ t.workers other, ∀ arg, v.stage = .closing arg →
      v ∈ s.workers other := by
    intro other v hv arg stage
    rcases mainStep_workers run with same | ⟨event, new⟩
    · rwa [same] at hv
    · rw [new] at hv
      rcases mem_update hv with ⟨rfl, rfl⟩ | ⟨-, old⟩
      · cases stage
      · exact old
  intro other v hv arg stage
  have old := closing other v hv arg stage
  have spent := h other v old arg stage
  rcases mainStep_kernel run with ⟨-, rest, -, kernel⟩ | ⟨fd, rest, -, kernel⟩ | ⟨-, kernel⟩
  · rw [kernel]
    apply spent.accept
    -- the socket of the worker is open, and what `accept` returns was not
    rintro lower rfl
    have own := owned.arg other v old arg (by rw [stage]; rfl)
    have serves := owned.serves other v old (by simp [stage])
    have closed := fresh_closed fresh lower
    rw [own] at closed
    rw [Kernel.connection?, closed] at serves
    cases serves
  · rw [kernel]
    exact spent.addfd true
  · rwa [kernel]

theorem Drained.workerStep (h : Drained s) {stale : Fds} {answer : Answer}
    (meets : Meets s.kernel w.stage answer)
    (run : workerStep s thread w stale answer = some t) : Drained t := by
  unfold OneShot.workerStep at run
  cases stage : w.stage with
  | started =>
    simp only [stage, Option.some.injEq] at run
    subst run
    exact h.goto (by simp)
  | serving arg =>
    simp only [stage, Option.some.injEq] at run
    subst run
    rw [stage] at meets
    cases answer with
    | received bytes =>
      obtain ⟨-, x, opened, yields⟩ := meets
      simp only [recvStep]
      split_ifs with ended
      · obtain rfl := List.length_eq_zero_iff.mp ended
        refine h.goto fun arg' same l hl => ?_
        obtain rfl := Stage.closing.inj same
        obtain rfl := Option.some.inj ((Kernel.line?_of_socket opened).symm.trans hl)
        exact ⟨(yields.2 rfl).2, (yields.2 rfl).1⟩
      · exact h.kernel fun fd spent => spent.consume opened _
    | eagain => exact h.goto (by simp)
    | failed => exact h
  | again arg =>
    simp only [stage, Option.some.injEq] at run
    subst run
    refine (h.goto (by simp)).kernel fun fd spent => ?_
    split_ifs
    · exact spent
    · exact spent
  | closing arg =>
    simp only [stage, Option.some.injEq] at run
    subst run
    exact (h.goto (by simp)).kernel fun fd spent => spent.close
  | finished => simp [stage] at run

theorem reading?_serving {arg : Fds} (hw : w ∈ s.workers thread) (stage : w.stage = .serving arg) :
    s.reading? thread = s.kernel.connection? arg.sockfd := by
  rw [St.reading?, Option.mem_def.mp hw, Option.bind_some, stage]

theorem reading?_outside (hw : w ∈ s.workers thread) (stage : ∀ arg, w.stage ≠ .serving arg) :
    s.reading? thread = none := by
  rw [St.reading?, Option.mem_def.mp hw, Option.bind_some]
  split
  · rename_i arg serving
    exact absurd serving (stage arg)
  all_goals rfl

/-- Outside `recv` a step of a worker transfers nothing. -/
theorem transfers_outside (hw : w ∈ s.workers thread) {stale : Fds} {answer : Answer}
    (stage : ∀ arg, w.stage ≠ .serving arg) :
    transfers (s, .worker thread stale answer) = [] := by
  cases answer with
  | received bytes => rw [transfers, reading?_outside hw stage, Option.toList_none, List.map_nil]
  | eagain => rfl
  | failed => rfl

theorem accounts_workerStep {log : List (Transfer Byte)} (accounts : s.kernel.Accounts log)
    (drained : Drained s) (hw : w ∈ s.workers thread) {stale : Fds} {answer : Answer}
    (meets : Meets s.kernel w.stage answer)
    (run : workerStep s thread w stale answer = some t) :
    t.kernel.Accounts (log ++ transfers (s, .worker thread stale answer)) := by
  unfold workerStep at run
  cases stage : w.stage with
  | started =>
    rw [transfers_outside hw (by simp [stage]), List.append_nil]
    simp only [stage, Option.some.injEq] at run
    subst run
    exact accounts
  | serving arg =>
    simp only [stage, Option.some.injEq] at run
    subst run
    rw [stage] at meets
    cases answer with
    | received bytes =>
      obtain ⟨-, x, opened, yields⟩ := meets
      have line := Kernel.line?_of_socket opened
      have number : s.kernel.connection? arg.sockfd = some x.connection :=
        Kernel.connection?_eq_some.mpr ⟨_, line⟩
      rw [transfers, reading?_serving hw stage, number, Option.toList_some, List.map_singleton]
      simp only [recvStep]
      split_ifs with ended
      · obtain rfl := List.length_eq_zero_iff.mp ended
        exact Balanced.idle accounts fun d => by simp [Silent, sentOn, readOn, Transfer.into,
          Transfer.outOf]
      · exact accounts.consume line yields
    | eagain =>
      show s.kernel.Accounts (log ++ [])
      rwa [List.append_nil]
    | failed =>
      show s.kernel.Accounts (log ++ [])
      rwa [List.append_nil]
  | again arg =>
    rw [transfers_outside hw (by simp [stage]), List.append_nil]
    simp only [stage, Option.some.injEq] at run
    subst run
    show (ite _ _ _ : Kernel).Accounts log
    split_ifs
    · exact accounts
    · exact accounts
  | closing arg =>
    rw [transfers_outside hw (by simp [stage]), List.append_nil]
    simp only [stage, Option.some.injEq] at run
    subst run
    exact accounts.close fun l hl => (drained thread w hw arg stage l hl).unread
  | finished => simp [stage] at run

/-- An open connection is registered, or the main thread is about to register it. -/
def Listed (s : St) : Prop :=
  ∀ fd, (s.kernel.connection? fd).isSome →
    s.kernel.Registered fd ∨ ∃ rest, s.ctl = .adding fd rest

/-- Where the main thread does not register a connection, each one is registered. -/
theorem Listed.registered (h : Listed s) (other : ∀ fd rest, s.ctl ≠ .adding fd rest) {fd : Fd}
    (opened : (s.kernel.connection? fd).isSome) : s.kernel.Registered fd := by
  rcases h fd opened with known | ⟨rest, ctl⟩
  · exact known
  · exact absurd ctl (other fd rest)

theorem Control.Calling.not_adding {ctl : Control} (calling : ctl.Calling) (fd : Fd)
    (rest : List Report) : ctl ≠ .adding fd rest := by
  rintro rfl
  exact calling

/-- Behind `addfd` an open socket is registered. -/
theorem registered_addfd {k : Kernel} {fd i listenfd : Fd} (once : k.OnceBut listenfd)
    (known : k.Registered i ∨ i = fd ∧ (k.connection? fd).isSome ∧ fd ≠ listenfd) :
    (k.addfd fd true).Registered i := by
  by_cases idle : (k.sockets fd).isSome ∧ k.entries fd = none
  · rw [Kernel.Registered, Kernel.entries_addfd idle.1 idle.2]
    by_cases same : i = fd
    · subst same
      exact ⟨_, Function.update_self .., Kernel.fresh_once _⟩
    · rw [Function.update_of_ne same]
      exact known.resolve_right fun here => same here.1
  · rw [Kernel.Registered, Kernel.entries_addfd_of_not idle]
    rcases known with known | ⟨rfl, opened, apart⟩
    · exact known
    · have socket : (k.sockets i).isSome := by simpa [Kernel.connection?] using opened
      obtain ⟨e, entry⟩ := Option.ne_none_iff_exists'.mp fun new => idle ⟨socket, new⟩
      exact ⟨e, entry, once i apart e entry⟩

theorem Listed.mainStep (h : Listed s) (owned : Owned s) {connfd : Fd}
    (run : mainStep s connfd thread = some t) : Listed t := by
  intro fd opened
  rcases mainStep_kernel run with
    ⟨other, rest, ctl, kernel⟩ | ⟨new, rest, ctl, kernel⟩ | ⟨other, kernel⟩
  · by_cases lower : 0 ≤ connfd
    · rw [kernel, Kernel.connection?_accept lower] at opened
      by_cases same : fd = connfd
      · exact .inr ⟨rest, same ▸ ctl⟩
      · rw [Function.update_of_ne same] at opened
        left
        rw [kernel, Kernel.Registered, Kernel.entries_accept]
        exact h.registered other opened
    · rw [Kernel.accept, if_neg lower] at kernel
      rw [kernel] at opened ⊢
      exact .inl (h.registered other opened)
  · rw [kernel, Kernel.connection?_addfd] at opened
    left
    rw [kernel]
    apply registered_addfd owned.once
    rcases h fd opened with known | ⟨rest', adding⟩
    · exact .inl known
    · obtain ⟨rfl, -⟩ := Control.adding.inj (ctl.symm.trans adding)
      refine .inr ⟨rfl, opened, ?_⟩
      rintro rfl
      rw [owned.listening] at opened
      cases opened
  · rw [kernel] at opened ⊢
    exact .inl (h.registered other opened)

theorem Listed.workerStep (h : Listed s) (owned : Owned s) (hw : w ∈ s.workers thread)
    {stale : Fds} {answer : Answer} (run : workerStep s thread w stale answer = some t) :
    Listed t := by
  have ctl := (workerStep_frame hw run).1
  unfold OneShot.workerStep at run
  intro fd opened
  rw [ctl]
  cases stage : w.stage with
  | started =>
    simp only [stage, Option.some.injEq] at run
    subst run
    exact h fd opened
  | serving arg =>
    simp only [stage, Option.some.injEq] at run
    subst run
    cases answer with
    | received bytes =>
      simp only [recvStep] at opened ⊢
      split_ifs at opened ⊢
      · exact h fd opened
      · rw [Kernel.connection?_consume] at opened
        exact h fd opened
    | eagain => exact h fd opened
    | failed => exact h fd opened
  | again arg =>
    have own : arg = ⟨s.epollfd, w.event.fd⟩ := owned.arg thread w hw arg (by rw [stage]; rfl)
    simp only [stage, own, if_true, Option.some.injEq] at run
    subst run
    have mine : At s w.event.fd (.thread thread) := ⟨w, hw, rfl, by simp [stage]⟩
    exact (h fd opened).imp_left
      (Kernel.registered_resetOnshot (owned.placed.known _ _ mine) fd).mpr
  | closing arg =>
    simp only [stage, Option.some.injEq] at run
    subst run
    have other : fd ≠ arg.sockfd := by
      rintro rfl
      rw [Kernel.connection?_close, Function.update_self] at opened
      cases opened
    rw [Kernel.connection?_close, Function.update_of_ne other] at opened
    exact (h fd opened).imp_left fun known => (Kernel.registered_close fd).mpr ⟨known, other⟩
  | finished => simp [stage] at run

end Steps

section Runs

variable {steps : List (St × Input)} {s t : St} {a : Input} {c thread : Nat} {w : Worker}

theorem ledger_concat : ledger (steps ++ [(s, a)]) = ledger steps ++ transfers (s, a) := by
  rw [ledger, List.flatMap_append, List.flatMap_singleton]
  rfl

theorem ledger_silent (none : transfers (s, a) = []) :
    ledger (steps ++ [(s, a)]) = ledger steps := by
  rw [ledger_concat, none, List.append_nil]

/-- What the ledger says, what is about to be closed and what is registered. -/
structure Kept (steps : List (St × Input)) (s : St) : Prop where
  accounts : s.kernel.Accounts (ledger steps)
  drained : Drained s
  listed : Listed s

theorem Listed.arrives (h : Listed s) (fd : Fd) (change : Channel Byte → Channel Byte) :
    Listed { s with kernel := s.kernel.arrives fd change } := by
  intro i opened
  have before : (s.kernel.connection? i).isSome := by
    rwa [Kernel.connection?_arrives] at opened
  exact (h i before).imp_left (Kernel.registered_arrives change i).mpr

theorem kept_of_run (h : (machine.guard Received).Run steps s) : Kept steps s := by
  apply h.invariant
  · rintro s ⟨listenfd, epollfd, -, -, -, rfl⟩
    exact ⟨Balanced.nothing, nofun, nofun⟩
  · intro steps s a t before kept lawful run
    have owned := reachable_owned before.reachable
    obtain ⟨promised, -⟩ := lawful
    obtain ⟨accounts, drained, listed⟩ := kept
    cases a with
    | arrives fd bytes =>
      obtain rfl := Option.some.inj run
      obtain ⟨x, opened, going⟩ := id promised
      have line := Kernel.line?_of_socket opened
      have one : transfers (s, .arrives fd bytes) = [.sent x.connection bytes] := by
        rw [transfers, Kernel.connection?_eq_some.mpr ⟨_, line⟩, Option.toList_some,
          List.map_singleton]
      refine ⟨?_, drained.kernel fun i spent => spent.arrives promised _, listed.arrives fd _⟩
      rw [ledger_concat, one]
      exact accounts.arrives line bytes
    | finishes fd =>
      obtain rfl := Option.some.inj run
      obtain ⟨x, opened, going⟩ := id promised
      refine ⟨?_, drained.kernel fun i spent => spent.arrives promised _, listed.arrives fd _⟩
      rw [ledger_silent rfl]
      exact accounts.finishes (Kernel.line?_of_socket opened)
    | wait batch =>
      obtain rfl := Option.some.inj run
      have calling : s.ctl.Calling := promised.1
      refine ⟨?_, drained, fun fd opened => .inl ?_⟩
      · rw [ledger_silent rfl]
        exact accounts
      · exact (Kernel.registered_deliver _ fd).mpr (listed.registered calling.not_adding opened)
    | waitFailed =>
      obtain rfl := Option.some.inj run
      have calling : s.ctl.Calling := promised
      refine ⟨?_, drained, fun fd opened => .inl (listed.registered calling.not_adding opened)⟩
      rw [ledger_silent rfl]
      exact accounts
    | main connfd thread =>
      refine ⟨?_, drained.mainStep owned promised.1 run, listed.mainStep owned run⟩
      rw [ledger_silent rfl]
      rcases mainStep_kernel run with
        ⟨-, rest, -, kernel⟩ | ⟨fd, rest, -, kernel⟩ | ⟨-, kernel⟩
      · rw [kernel]
        exact accounts.accept fun lower => fresh_closed promised.1 lower
      · rw [kernel]
        exact accounts.addfd true
      · rwa [kernel]
    | worker thread stale answer =>
      obtain ⟨w, hw, next⟩ := Option.bind_eq_some_iff.mp run
      have meets := promised w hw
      exact ⟨ledger_concat ▸ accounts_workerStep accounts drained hw meets next,
        drained.workerStep meets next, listed.workerStep owned hw next⟩

theorem readers_concat :
    readers c (steps ++ [(s, a)]) = readers c steps ++ (reader? c (s, a)).toList := by
  rw [readers, List.filterMap_append, readers]
  cases one : reader? c (s, a) <;> simp [one]

theorem reader?_eq_some {stale : Fds} {answer : Answer} {reader : Nat} (hw : w ∈ s.workers thread)
    (one : reader? c (s, .worker thread stale answer) = some reader) :
    thread = reader ∧ ∃ arg, w.stage = .serving arg ∧
      s.kernel.connection? arg.sockfd = some c := by
  cases answer with
  | received bytes =>
    rw [reader?] at one
    split_ifs at one with reading
    refine ⟨Option.some.inj one, ?_⟩
    by_contra outside
    have none : ∀ arg, w.stage ≠ .serving arg := by
      intro arg serving
      exact outside ⟨arg, serving, (reading?_serving hw serving).symm.trans reading⟩
    rw [reading?_outside hw none] at reading
    cases reading
  | eagain => cases one
  | failed => cases one

/-- A worker goes on from where it stands; it never comes back to its record. -/
theorem workerStep_stage (hw : w ∈ s.workers thread) {stale : Fds} {answer : Answer}
    (run : workerStep s thread w stale answer = some t) :
    ∃ stage, t.workers = Function.update s.workers thread (some { w with stage }) ∧
      stage ≠ .started ∧ ∀ arg, stage = .serving arg → w.stage = .started ∨ w.stage = stage := by
  unfold workerStep at run
  cases here : w.stage with
  | started =>
    simp only [here, Option.some.injEq] at run
    subst run
    exact ⟨_, rfl, by simp, fun _ _ => .inl rfl⟩
  | serving arg =>
    simp only [here, Option.some.injEq] at run
    subst run
    have stays : s.workers =
        Function.update s.workers thread (some { w with stage := .serving arg }) := by
      rw [← here]
      exact (Option.mem_def.mp hw ▸ Function.update_eq_self thread s.workers).symm
    cases answer with
    | received bytes =>
      simp only [recvStep]
      split_ifs
      · exact ⟨_, rfl, by simp, by simp⟩
      · exact ⟨_, stays, by simp, fun _ _ => .inr rfl⟩
    | eagain => exact ⟨_, rfl, by simp, by simp⟩
    | failed => exact ⟨_, stays, by simp, fun _ _ => .inr rfl⟩
  | again arg =>
    simp only [here, Option.some.injEq] at run
    subst run
    exact ⟨_, rfl, by simp, by simp⟩
  | closing arg =>
    simp only [here, Option.some.injEq] at run
    subst run
    exact ⟨_, rfl, by simp, by simp⟩
  | finished => simp [here] at run

/-- The workers that have read from the connection were created for it, and none but the last one
of them will read again. -/
structure Turns (c : Nat) (steps : List (St × Input)) (s : St) : Prop where
  turns : TakeTurns (readers c steps)
  known : ∀ thread ∈ readers c steps, ∃ w ∈ s.workers thread, w.event.connection = c ∧
    w.stage ≠ .started ∧
      ∀ arg, w.stage = .serving arg → (readers c steps).getLast? = some thread

/-- Nobody reads from the connection. -/
theorem Turns.idle (h : Turns c steps s) (none : reader? c (s, a) = none)
    (kept : ∀ thread, ∀ w ∈ s.workers thread, w.stage ≠ .started →
      ∃ v ∈ t.workers thread, v.event = w.event ∧ v.stage ≠ .started ∧
        ∀ arg, v.stage = .serving arg → w.stage = .serving arg) :
    Turns c (steps ++ [(s, a)]) t := by
  have same : readers c (steps ++ [(s, a)]) = readers c steps := by
    rw [readers_concat, none, Option.toList_none, List.append_nil]
  constructor
  · rw [same]
    exact h.turns
  · rw [same]
    intro thread mem
    obtain ⟨w, hw, about, ran, last⟩ := h.known thread mem
    obtain ⟨v, hv, event, ran', back⟩ := kept thread w hw ran
    exact ⟨v, hv, event ▸ about, ran', fun arg serving => last arg (back arg serving)⟩

/-- A worker that reads from the connection holds it alone. -/
theorem Turns.reads (h : Turns c steps s) (owned : Owned s)
    (apart : ∀ i j, s.kernel.connection? i = some c → s.kernel.connection? j = some c → i = j)
    (hw : w ∈ s.workers thread) {arg : Fds} (serving : w.stage = .serving arg)
    (here : s.kernel.connection? arg.sockfd = some c) {stage : Stage}
    (workers : t.workers = Function.update s.workers thread (some { w with stage }))
    (ran : stage ≠ .started) (one : reader? c (s, a) = some thread) :
    Turns c (steps ++ [(s, a)]) t := by
  have going : w.stage ≠ .finished := by simp [serving]
  have own := owned.arg thread w hw arg (by rw [serving]; rfl)
  rw [own] at here
  have about : w.event.connection = c :=
    Option.some.inj ((owned.serves thread w hw going).symm.trans here)
  have next : readers c (steps ++ [(s, a)]) = readers c steps ++ [thread] := by
    rw [readers_concat, one, Option.toList_some]
  -- another worker that is still reading would hold the same socket
  have alone : ∀ other, ∀ v ∈ s.workers other, v.event.connection = c → ∀ arg,
      v.stage = .serving arg → other = thread := by
    intro other v hv about' arg' serving'
    have going' : v.stage ≠ .finished := by simp [serving']
    have there := owned.serves other v hv going'
    rw [about'] at there
    have first : At s w.event.fd (.thread other) := ⟨v, hv, apart _ _ there here, going'⟩
    have second : At s w.event.fd (.thread thread) := ⟨w, hw, rfl, going⟩
    exact Place.thread.inj (owned.placed.unique _ _ _ first second)
  constructor
  · rw [next, TakeTurns, always_concat]
    refine ⟨h.turns, fun mem => ?_⟩
    obtain ⟨v, hv, -, -, last⟩ := h.known thread mem
    obtain rfl := Option.mem_unique hv hw
    exact last arg serving
  · rw [next]
    intro other mem
    by_cases same : other = thread
    · subst same
      exact ⟨{ w with stage }, by simp [workers], about, ran, fun _ _ => by simp⟩
    · have old := (List.mem_append.mp mem).resolve_right (by simpa using same)
      obtain ⟨v, hv, about', ran', -⟩ := h.known other old
      refine ⟨v, by simpa [workers, same] using hv, about', ran', fun arg' serving' => ?_⟩
      exact absurd (alone other v hv about' arg' serving') same

theorem turns_of_run (h : (machine.guard Received).Run steps s) (c : Nat) : Turns c steps s := by
  apply h.invariant
  · exact fun s _ => ⟨always_nil _, by simp [readers]⟩
  · intro steps s a t before turns lawful run
    have owned := reachable_owned before.reachable
    have accounts := (kept_of_run before).accounts
    have idle : reader? c (s, a) = none → t.workers = s.workers →
        Turns c (steps ++ [(s, a)]) t := by
      intro none same
      refine turns.idle none fun thread w hw ran => ?_
      rw [same]
      exact ⟨w, hw, rfl, ran, fun _ => id⟩
    cases a with
    | arrives fd bytes => exact idle rfl (Option.some.inj run ▸ rfl)
    | finishes fd => exact idle rfl (Option.some.inj run ▸ rfl)
    | wait batch => exact idle rfl (Option.some.inj run ▸ rfl)
    | waitFailed => exact idle rfl (Option.some.inj run ▸ rfl)
    | main connfd created =>
      rcases mainStep_workers run with same | ⟨event, new⟩
      · exact idle rfl same
      · refine turns.idle rfl fun thread w hw ran => ?_
        have fresh : s.workers created = none := lawful.1.2
        have other : thread ≠ created := by
          rintro rfl
          rw [fresh] at hw
          cases hw
        exact ⟨w, by rwa [new, Function.update_of_ne other], rfl, ran, fun _ => id⟩
    | worker thread stale answer =>
      obtain ⟨w, hw, next⟩ := Option.bind_eq_some_iff.mp run
      obtain ⟨stage, workers, ran, back⟩ := workerStep_stage hw next
      cases one : reader? c (s, .worker thread stale answer) with
      | none =>
        refine turns.idle one fun other v hv ran' => ?_
        by_cases same : other = thread
        · subst same
          obtain rfl := Option.mem_unique hv hw
          refine ⟨{ v with stage }, by simp [workers], rfl, ran, fun arg serving => ?_⟩
          rw [(back arg serving).resolve_left ran', ← serving]
        · exact ⟨v, by simpa [workers, same] using hv, rfl, ran', fun _ => id⟩
      | some reader =>
        obtain ⟨rfl, arg, serving, here⟩ := reader?_eq_some hw one
        refine turns.reads owned (fun i j hi hj => ?_) hw serving here workers ran one
        obtain ⟨x, line⟩ := Kernel.connection?_eq_some.mp hi
        obtain ⟨y, other⟩ := Kernel.connection?_eq_some.mp hj
        exact accounts.apart i j (c, x) line (c, y) other rfl

/-- At rest there is nothing to read on any connection. -/
theorem Quiet.nothing_waits (quiet : Quiet s) (owned : Owned s) (listed : Listed s) {fd : Fd}
    {x : Socket} (opened : x ∈ s.kernel.sockets fd) : ¬ x.Waiting := by
  intro waiting
  have number : s.kernel.connection? fd = some x.connection :=
    Kernel.connection?_eq_some.mpr ⟨_, Kernel.line?_of_socket opened⟩
  have numbered : (s.kernel.connection? fd).isSome := by simp [number]
  have known := listed.registered quiet.calling.not_adding numbered
  obtain ⟨p, held⟩ := owned.placed.held fd known
  cases p with
  | kernel =>
    obtain ⟨e, entry, once, armed⟩ := held
    have apart : fd ≠ s.listenfd := by
      rintro rfl
      exact owned.unregistered known
    exact quiet.pending fd apart
      ⟨e, entry, armed, owned.alert fd e entry x opened once armed waiting⟩
  | ahead =>
    obtain ⟨-, r, hr, -⟩ := held
    rw [quiet.calling.ahead] at hr
    cases hr
  | thread thread =>
    obtain ⟨w, hw, -, going⟩ := held
    exact going (quiet.finished thread w hw)

/-- When every worker receives its own socket, the bytes of a connection are read once and in
order, by workers that were created for it and take turns. A connection is closed only behind its
last byte, and at rest every byte has been read. -/
theorem read_in_full (h : (machine.guard Received).Run steps s) (c : Nat) :
    ReadInFull c steps s := by
  obtain ⟨accounts, -, listed⟩ := kept_of_run h
  have turns := turns_of_run h c
  refine ⟨accounts.readOn_prefix c, ?_, ?_, turns.turns⟩
  · intro past
    by_cases here : ∃ fd, s.kernel.connection? fd = some c
    · obtain ⟨fd, number⟩ := here
      have quiet := past.resolve_left fun gone => gone fd number
      obtain ⟨x, opened, rfl⟩ := Option.map_eq_some_iff.mp number
      have line := Kernel.line?_of_socket opened
      have nothing := quiet.nothing_waits (reachable_owned h.reachable) listed opened
      have read := x.stream.read_append_unread
      rw [not_not.mp fun rest => nothing (.inl rest), List.append_nil] at read
      rw [← accounts.sent fd _ line, ← accounts.read fd _ line]
      exact read
    · apply accounts.closed c
      rintro fd ⟨_, x⟩ line rfl
      exact here ⟨fd, Kernel.connection?_eq_some.mpr ⟨x, line⟩⟩
  · intro thread mem
    obtain ⟨w, hw, about, -⟩ := turns.known thread mem
    exact ⟨w, hw, about⟩

end Runs

/-- Connection 0 has said "hi" and finished; its worker has read that and closed it. -/
def hungUp : St := ((machine.guard Received).replay (boot 3 4) (joins 5 0 0 ++
  [.arrives 5 [104, 105], .finishes 5, .wait [⟨5, epollIn, 0⟩], .main (-1) 0, .main (-1) 0,
    .worker 0 ⟨0, 0⟩ .failed, .worker 0 ⟨0, 0⟩ (.received [104, 105]),
    .worker 0 ⟨0, 0⟩ (.received []), .worker 0 ⟨0, 0⟩ .failed])).getD (boot 3 4)

theorem read_in_full_hungUp :
    (hungUp.kernel.accepted = 1 ∧ (hungUp.workers 0).map Worker.stage = some .finished) ∧
      ∃ steps, (machine.guard Received).Run steps hungUp ∧ ReadInFull 0 steps hungUp := by
  have start : (machine.guard Received).Reachable (boot 3 4) := .start boot_start
  obtain ⟨steps, run⟩ : (machine.guard Received).Reachable hungUp := start.replay_getD _
  exact ⟨by decide +kernel, steps, run, read_in_full run 0⟩

end JiajiaNetwork.OneShot
