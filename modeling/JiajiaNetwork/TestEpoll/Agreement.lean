/- `et` against `lt`. The sockets that `accept` returns are blocking ones, so the inner loop of
   `et` ends only behind the end of a stream; where that has arrived in time, both handlers read
   everything. -/
import JiajiaNetwork.TestEpoll.Connections

set_option autoImplicit false
set_option relaxedAutoImplicit false

namespace JiajiaNetwork.TestEpoll

open Lib

/-- `recv` has something to return: bytes or the end. -/
def Ready (x : Channel Byte) : Prop := x.unread ≠ [] ∨ x.finished = true

instance (x : Channel Byte) : Decidable (Ready x) := inferInstanceAs (Decidable (_ ∨ _))

/-- `et` is about to call `recv` on a blocking socket with nothing to return. -/
def WouldBlock (s : St) : Prop :=
  ∃ fd ∈ receiving .et s, ∃ x ∈ s.sockets fd,
    x.nonblocking = false ∧ ¬ Ready (s.streams x.connection)

instance (s : St) : Decidable (WouldBlock s) :=
  inferInstanceAs (Decidable (∃ fd, fd ∈ receiving .et s ∧ ∃ x, x ∈ s.sockets fd ∧ _ ∧ ¬ _))

/-- The loop is at `epoll_wait` and no descriptor would be reported. -/
structure Quiet (s : St) : Prop where
  calling : s.ctl.Calling
  silent : ∀ fd, ¬ Reportable s fd

def Control.ahead : Control → List Report
  | .events rest | .adding _ rest | .draining _ rest => rest
  | .left => []

/-- The descriptors of the batch that are not done with. -/
def Control.touching : Control → List Fd
  | .events rest | .adding _ rest => rest.map Report.fd
  | .draining sockfd rest => sockfd :: rest.map Report.fd
  | .left => []

/-- What `et` is going to read has something to return. -/
structure Attentive (s : St) : Prop where
  distinct : s.ctl.touching.Nodup
  ahead : ∀ r ∈ s.ctl.ahead, has r.events epollIn → r.fd ≠ s.listenfd →
    ∃ x ∈ s.sockets r.fd, Ready (s.streams x.connection)
  draining : ∀ fd rest, s.ctl = .draining fd rest → ∀ x ∈ s.sockets fd,
    Ready (s.streams x.connection)

section Steps

variable {v : Handler} {s t : St} {fd : Fd} {r : Report} {rest : List Report} {a : Answers}

theorem Ready.send {x : Channel Byte} (ready : Ready x) (bytes : List Byte) :
    Ready (x.send bytes) := by
  rcases ready with unread | finished
  · left
    have bound := x.order.length_le
    have grown : (x.send bytes).unread = x.unread ++ bytes := by
      simp only [Channel.unread, Channel.send_sent, Channel.send_read]
      exact List.drop_append_of_le_length bound
    rw [grown]
    exact List.append_ne_nil_of_left_ne_nil unread bytes
  · exact .inr finished

theorem Ready.finish {x : Channel Byte} : Ready x.finish := .inr rfl

/-- One byte, or the end. -/
theorem Ready.yields {x : Channel Byte} (ready : Ready x) : x.Yields (x.unread.take 1) := by
  refine ⟨List.take_prefix _ _, fun none => ?_⟩
  have empty : x.unread = [] := by
    rcases List.take_eq_nil_iff.mp none with one | empty
    · cases one
    · exact empty
  exact ⟨empty, ready.resolve_left fun some => some empty⟩

/-- What is read leaves something unless all of it is taken before the end has arrived. -/
theorem ready_consume {x : Channel Byte} {n : Nat}
    (last : x.unread.length ≤ n → x.finished = true) :
    Ready (x.consume n) := by
  by_cases all : x.unread.length ≤ n
  · exact .inr (last all)
  · left
    rw [Channel.unread_consume]
    intro none
    exact all (List.drop_eq_nil_iff.mp none)

theorem Attentive.idle (touching : s.ctl.touching = []) (ahead : s.ctl.ahead = []) :
    Attentive s where
  distinct := touching ▸ List.nodup_nil
  ahead r hr := by
    rw [ahead] at hr
    cases hr
  draining fd rest ctl := by
    rw [ctl] at touching
    cases touching

/-- A step that keeps the sockets and takes no bytes. -/
theorem Attentive.keeps (attentive : Attentive s) (listenfd : t.listenfd = s.listenfd)
    (ctl : t.ctl = s.ctl) (sockets : t.sockets = s.sockets)
    (ready : ∀ c, Ready (s.streams c) → Ready (t.streams c)) : Attentive t where
  distinct := ctl ▸ attentive.distinct
  ahead := by
    rw [ctl, listenfd, sockets]
    intro r hr readable other
    obtain ⟨x, opened, some⟩ := attentive.ahead r hr readable other
    exact ⟨x, opened, ready _ some⟩
  draining := by
    rw [ctl, sockets]
    exact fun fd rest same x opened => ready _ (attentive.draining fd rest same x opened)

/-- The loop goes on without a `recv`, with a part of the batch. -/
theorem Attentive.goto (attentive : Attentive s) (listenfd : t.listenfd = s.listenfd)
    (streams : t.streams = s.streams) (touching : t.ctl.touching.Sublist s.ctl.touching)
    (ahead : ∀ r ∈ t.ctl.ahead, r ∈ s.ctl.ahead)
    (sockets : ∀ r ∈ t.ctl.ahead, ∀ x ∈ s.sockets r.fd, x ∈ t.sockets r.fd)
    (outside : ∀ fd rest, t.ctl ≠ .draining fd rest) : Attentive t where
  distinct := attentive.distinct.sublist touching
  ahead := by
    rw [listenfd, streams]
    intro r hr readable other
    obtain ⟨x, opened, some⟩ := attentive.ahead r (ahead r hr) readable other
    exact ⟨x, sockets r hr x opened, some⟩
  draining fd rest same := absurd same (outside fd rest)

theorem Attentive.change (attentive : Attentive s) (connection : Nat)
    {f : Channel Byte → Channel Byte} (keeps : ∀ x, Ready x → Ready (f x)) :
    Attentive (s.change connection f) := by
  refine attentive.keeps rfl rfl rfl ?_
  intro c ready
  by_cases same : c = connection
  · subst same
    simpa [St.change] using keeps _ ready
  · simpa [St.change, same] using ready

/-- The events behind the one at hand are among those to be touched, and among those ahead. -/
theorem rest_touching (ctl : s.ctl = .events (r :: rest)) :
    (rest.map Report.fd).Sublist s.ctl.touching := by
  rw [ctl]
  exact List.sublist_cons_self _ _

theorem rest_ahead (ctl : s.ctl = .events (r :: rest)) : ∀ r' ∈ rest, r' ∈ s.ctl.ahead := by
  rw [ctl]
  exact fun r' later => List.mem_cons_of_mem r later

theorem Attentive.accept (attentive : Attentive s) (ctl : s.ctl = .events (r :: rest))
    (answered : a.connfd = -1 ∨ Fresh s a.connfd) (run : acceptBranch s rest a = some t) :
    Attentive t := by
  have touching := rest_touching ctl
  have ahead := rest_ahead ctl
  rcases acceptBranch_cases answered run with
    ⟨⟨-, -, closed, -⟩, c, later, queue, rfl⟩ | ⟨failed, rfl⟩
  · refine attentive.goto rfl rfl touching ahead ?_ (by simp)
    intro r' _ x opened
    have other : r'.fd ≠ a.connfd := by
      intro same
      rw [same, closed] at opened
      cases opened
    simpa [other] using opened
  · exact attentive.goto rfl rfl touching ahead (fun r' _ x => id) (by simp)

/-- The inner loop closes its connection and stays or goes on. -/
theorem Attentive.close (attentive : Attentive s) (ctl : s.ctl = .draining fd rest) :
    Attentive (s.close fd) ∧ Attentive { s.close fd with ctl := .events rest } := by
  have distinct : fd ∉ rest.map Report.fd ∧ (rest.map Report.fd).Nodup := by
    have all := attentive.distinct
    rw [ctl] at all
    exact List.nodup_cons.mp all
  have ahead : ∀ r ∈ rest, has r.events epollIn → r.fd ≠ s.listenfd →
      ∃ x ∈ (s.close fd).sockets r.fd, Ready (s.streams x.connection) := by
    intro r hr readable other
    obtain ⟨x, opened, some⟩ := attentive.ahead r (by rw [ctl]; exact hr) readable other
    have apart : r.fd ≠ fd := fun same => distinct.1 (same ▸ List.mem_map_of_mem hr)
    exact ⟨x, by simpa [St.close, apart] using opened, some⟩
  have same : (s.close fd).ctl = .draining fd rest := ctl
  refine ⟨⟨?_, ?_, ?_⟩, ⟨distinct.2, ahead, fun _ _ other => absurd other (by simp)⟩⟩
  · rw [same]
    exact ctl ▸ attentive.distinct
  · rw [same]
    exact ahead
  · intro fd' rest' ctl' x opened
    obtain ⟨rfl, -⟩ := Control.draining.inj (same.symm.trans ctl')
    simp [St.close] at opened

/-- The inner loop takes bytes of its connection, and of no other. -/
theorem Attentive.consume (attentive : Attentive s)
    (single : ∀ fd fd', ∀ x ∈ s.sockets fd, ∀ y ∈ s.sockets fd',
      x.connection = y.connection → fd = fd')
    (ctl : s.ctl = .draining fd rest) {n : Nat}
    (last : ∀ x ∈ s.sockets fd, (s.streams x.connection).unread.length ≤ n →
      (s.streams x.connection).finished = true)
    (run : s.consume fd n = some t) : Attentive t := by
  obtain ⟨y, opened, rfl⟩ := consume_eq run
  have distinct : fd ∉ rest.map Report.fd := by
    have all := attentive.distinct
    rw [ctl] at all
    exact (List.nodup_cons.mp all).1
  refine ⟨attentive.distinct, ?_, ?_⟩
  · intro r hr readable other
    obtain ⟨x, mem, some⟩ := attentive.ahead r hr readable other
    have later : r ∈ rest := by
      have ahead : r ∈ s.ctl.ahead := hr
      rwa [ctl] at ahead
    have apart : x.connection ≠ y.connection := by
      intro same
      have here : r.fd = fd := single r.fd fd x mem y opened same
      exact distinct (here ▸ List.mem_map_of_mem later)
    exact ⟨x, mem, by simpa [apart] using some⟩
  · intro fd' rest' same x mem
    obtain ⟨rfl, -⟩ := Control.draining.inj (ctl.symm.trans same)
    obtain rfl := Option.mem_unique mem opened
    simpa using ready_consume (last x opened)

/-- One turn of the inner loop. -/
theorem Attentive.drain (attentive : Attentive s) (filed : Filed .et s)
    (ctl : s.ctl = .draining fd rest) (orderly : Orderly .et s (.main a))
    (run : etTurn s fd rest a = some t) : Attentive t := by
  unfold etTurn at run
  cases answer : a.recv with
  | none =>
    simp only [answer] at run
    split_ifs at run with again
    · obtain rfl := Option.some.inj run
      refine attentive.goto rfl rfl ?_ ?_ (fun r' _ x => id) (by simp)
      · rw [ctl]
        exact List.sublist_cons_self _ _
      · rw [ctl]
        exact fun r => id
    · obtain rfl := Option.some.inj run
      exact (attentive.close ctl).2
  | some bytes =>
    simp only [answer] at run
    split_ifs at run with ended
    · obtain rfl := Option.some.inj run
      exact (attentive.close ctl).1
    · have calls : receiving .et s = some fd := by simp [receiving, ctl]
      refine attentive.consume filed.single ctl ?_ run
      intro x opened last
      exact orderly.finished a rfl fd calls bytes answer x opened rfl (by omega) last

theorem Attentive.main (attentive : Attentive s) (filed : Filed .et s)
    (answered : Answered s a s.ctl) (orderly : Orderly .et s (.main a))
    (run : mainStep .et s a = some t) : Attentive t := by
  unfold mainStep at run
  split at run
  · rename_i r rest ctl
    rw [ctl, Answered] at answered
    have touching := rest_touching ctl
    have ahead := rest_ahead ctl
    unfold body at run
    split_ifs at run answered with listening readable
    · exact attentive.accept ctl answered run
    · obtain rfl := Option.some.inj run
      refine ⟨?_, ?_, ?_⟩
      · have all := attentive.distinct
        rw [ctl] at all
        exact all
      · intro r' hr' readable' other
        exact attentive.ahead r' (ahead r' hr') readable' other
      · intro fd rest' same x opened
        obtain ⟨rfl, -⟩ := Control.draining.inj same
        obtain ⟨y, opened', some⟩ :=
          attentive.ahead r (by rw [ctl]; exact List.mem_cons_self) readable listening
        exact Option.mem_unique opened' opened ▸ some
    · obtain rfl := Option.some.inj run
      exact attentive.goto rfl rfl touching ahead (fun r' _ x => id) (by simp)
  · rename_i connfd rest ctl
    obtain rfl := Option.some.inj run
    have same : ∀ (fd : Fd) (enableEt : Bool), (s.addfd fd enableEt).sockets = s.sockets ∧
        (s.addfd fd enableEt).streams = s.streams ∧
        (s.addfd fd enableEt).listenfd = s.listenfd := by
      intro fd enableEt
      unfold St.addfd
      split_ifs <;> exact ⟨rfl, rfl, rfl⟩
    obtain ⟨sockets, streams, listenfd⟩ := same connfd (Handler.et = .et)
    refine attentive.goto listenfd streams ?_ ?_ ?_ (by simp)
    · rw [ctl]
      exact List.Sublist.refl _
    · rw [ctl]
      exact fun r => id
    · intro r' _ x opened
      exact sockets ▸ opened
  · rename_i sockfd rest ctl
    exact attentive.drain filed ctl orderly run
  · cases run
  · cases run

end Steps

theorem reachable_attentive {s : St} (h : ((machine .et).guard (Orderly .et)).Reachable s) :
    Attentive s := by
  apply h.invariant
  · rintro s ⟨listenfd, -, rfl⟩
    exact .idle rfl rfl
  · intro s a t reach attentive lawful run
    obtain ⟨promised, orderly⟩ := lawful
    cases a with
    | connects =>
      obtain rfl := Option.some.inj run
      exact attentive.keeps rfl rfl rfl fun c => id
    | arrives connection bytes =>
      obtain rfl := Option.some.inj run
      exact attentive.change connection fun x ready => ready.send bytes
    | finishes connection =>
      obtain rfl := Option.some.inj run
      exact attentive.change connection fun x _ => Ready.finish
    | wait batch =>
      obtain rfl := Option.some.inj run
      obtain ⟨-, distinct, truthful⟩ := promised
      refine ⟨distinct, ?_, fun _ _ other => absurd other (by simp)⟩
      intro r hr readable other
      have some := (truthful r hr).2.mp readable
      rw [St.readable, if_neg other, Option.any_eq_true] at some
      obtain ⟨x, opened, ready⟩ := some
      exact ⟨x, opened, of_decide_eq_true ready⟩
    | waitFailed =>
      obtain rfl := Option.some.inj run
      exact .idle rfl rfl
    | main a => exact attentive.main (reachable_filed reach) promised orderly run

theorem never_blocks {s : St} (h : ((machine .et).guard (Orderly .et)).Reachable s) :
    ¬ WouldBlock s := by
  rintro ⟨fd, calls, x, opened, -, nothing⟩
  cases ctl : s.ctl with
  | draining sockfd rest =>
    simp only [receiving, ctl, Option.mem_def, Option.some.injEq] at calls
    subst calls
    exact nothing ((reachable_attentive h).draining sockfd rest ctl x opened)
  | events rest =>
    cases rest with
    | nil => simp [receiving, ctl] at calls
    | cons r rest => simp [receiving, ctl] at calls
  | adding connfd rest => simp [receiving, ctl] at calls
  | left => simp [receiving, ctl] at calls

/-- How much the loop has to do before it calls `epoll_wait` again, if nothing arrives: events that
are left, then bytes and the end of the connection that is being drained. -/
def work (s : St) : Nat × Nat :=
  match s.ctl with
  | .events rest => (2 * rest.length, 0)
  | .adding _ rest => (2 * rest.length + 1, 0)
  | .draining sockfd rest => (2 * rest.length + 1,
      (s.sockets sockfd).elim 0 fun x => (s.streams x.connection).unread.length + 1)
  | .left => (0, 0)

theorem work_etTurn {s t : St} {sockfd : Fd} {rest : List Report} {a : Answers}
    (ctl : s.ctl = .draining sockfd rest) (answered : Received s sockfd a)
    (run : etTurn s sockfd rest a = some t) : Prod.Lex (· < ·) (· < ·) (work t) (work s) := by
  unfold etTurn at run
  cases answer : a.recv with
  | none =>
    simp only [answer] at run
    split_ifs at run
    · obtain rfl := Option.some.inj run
      rw [work, work, ctl]
      exact .left _ _ (Nat.lt_succ_self _)
    · obtain rfl := Option.some.inj run
      rw [work, work, ctl]
      exact .left _ _ (Nat.lt_succ_self _)
  | some bytes =>
    simp only [answer] at run
    simp only [Received, answer] at answered
    obtain ⟨-, x, opened, yields⟩ := answered
    have socket : s.sockets sockfd = some x := opened
    have before : work s =
        (2 * rest.length + 1, (s.streams x.connection).unread.length + 1) := by
      rw [work, ctl]
      simp [socket]
    rw [before]
    split_ifs at run with ended
    · obtain rfl := Option.some.inj run
      have after : work (s.close sockfd) = (2 * rest.length + 1, 0) := by
        rw [work, show (s.close sockfd).ctl = .draining sockfd rest from ctl]
        simp [St.close]
      rw [after]
      exact .right _ (Nat.succ_pos _)
    · obtain ⟨y, opened', rfl⟩ := consume_eq run
      obtain rfl := Option.mem_unique opened' opened
      have taken := yields.1.length_le
      rw [work, ctl]
      simp only [socket, Option.elim_some, Function.update_self, Channel.unread_consume,
        List.length_drop]
      exact .right _ (by omega)

/-- Every step of `et` leaves less to do. -/
theorem work_decreases {s t : St} {a : Answers} (answered : Answered s a s.ctl)
    (run : mainStep .et s a = some t) : Prod.Lex (· < ·) (· < ·) (work t) (work s) := by
  unfold mainStep at run
  split at run
  · rename_i r rest ctl
    have before : work s = (2 * rest.length + 2, 0) := by
      rw [work, ctl]
      rfl
    rw [before]
    unfold body at run
    split_ifs at run with listening readable
    · unfold acceptBranch at run
      split_ifs at run
      · split at run
        · cases run
        · obtain rfl := Option.some.inj run
          exact .left _ _ (Nat.lt_succ_self _)
      · obtain rfl := Option.some.inj run
        exact .left _ _ (Nat.lt_succ_self _)
    · obtain rfl := Option.some.inj run
      exact .left _ _ (Nat.lt_succ_self _)
    · obtain rfl := Option.some.inj run
      exact .left _ _ (by omega)
  · rename_i connfd rest ctl
    obtain rfl := Option.some.inj run
    rw [work, work, ctl]
    exact .left _ _ (Nat.lt_succ_self _)
  · rename_i sockfd rest ctl
    rw [ctl, Answered] at answered
    exact work_etTurn ctl answered run
  · cases run
  · cases run

/-- The next step of `et` outside `epoll_wait`, if nothing arrives. -/
def Later (t s : St) : Prop :=
  ∃ a, (machine .et).Lawful s (.main a) ∧ (machine .et).step s (.main a) = some t

/-- If nothing arrives in between, the loop does not go on for ever between two calls of
`epoll_wait`. -/
theorem later_wellFounded : WellFounded Later := by
  have lex : WellFounded (Prod.Lex (α := Nat) (β := Nat) (· < ·) (· < ·)) :=
    WellFounded.prod_lex Nat.lt_wfRel.wf Nat.lt_wfRel.wf
  apply Subrelation.wf _ (InvImage.wf work lex)
  rintro t s ⟨a, answered, run⟩
  exact work_decreases answered run

/-- Between two calls of `epoll_wait` there is always a next step. -/
theorem proceeds {s : St} (h : ((machine .et).guard (Orderly .et)).Reachable s) :
    s.ctl = .left ∨ s.ctl.Calling ∨ ∃ t, Later t s := by
  have attentive := reachable_attentive h
  -- `accept` fails, or `recv` on a descriptor that is closed
  let fails : Answers := ⟨-1, none, ebadf⟩
  have failing : ∀ fd, Received s fd fails := by
    intro fd
    exact ⟨fun _ => rfl, fun again => absurd again (by decide)⟩
  cases ctl : s.ctl with
  | left => exact .inl rfl
  | adding connfd rest =>
    have lawful : Answered s fails s.ctl := by simp [ctl, Answered]
    have run : mainStep .et s fails =
        some { s.addfd connfd (Handler.et = .et) with ctl := .events rest } := by
      simp [mainStep, ctl]
    exact .inr (.inr ⟨_, fails, lawful, run⟩)
  | events rest =>
    cases rest with
    | nil => exact .inr (.inl trivial)
    | cons r rest =>
      have lawful : Answered s fails s.ctl := by
        rw [ctl, Answered]
        split_ifs
        · exact .inl rfl
        · exact failing r.fd
      have run : (mainStep .et s fails).isSome := by
        simp only [mainStep, ctl, body]
        split_ifs
        · simp [acceptBranch, fails]
        · rfl
        · rfl
      obtain ⟨t, next⟩ := Option.isSome_iff_exists.mp run
      exact .inr (.inr ⟨t, fails, lawful, next⟩)
  | draining sockfd rest =>
    cases socket : s.sockets sockfd with
    | none =>
      have lawful : Answered s fails s.ctl := by
        rw [ctl]
        exact failing sockfd
      have run : (mainStep .et s fails).isSome := by
        simp only [mainStep, ctl, etTurn, fails]
        rfl
      obtain ⟨t, next⟩ := Option.isSome_iff_exists.mp run
      exact .inr (.inr ⟨t, fails, lawful, next⟩)
    | some x =>
      have ready := attentive.draining sockfd rest ctl x socket
      let takes : Answers := ⟨-1, some ((s.streams x.connection).unread.take 1), 0⟩
      have short : ((s.streams x.connection).unread.take 1).length ≤ bufferSize - 1 :=
        Nat.le_trans (List.length_take_le _ _) (by decide)
      have lawful : Answered s takes s.ctl := by
        rw [ctl]
        exact ⟨short, x, socket, ready.yields⟩
      have run : (mainStep .et s takes).isSome := by
        simp only [mainStep, ctl, etTurn, takes, St.consume, socket]
        split_ifs <;> rfl
      obtain ⟨t, next⟩ := Option.isSome_iff_exists.mp run
      exact .inr (.inr ⟨t, takes, lawful, next⟩)

/-- When no more readiness is reported, everything that was sent has been read. -/
theorem read_of_quiet {v : Handler} {s : St} (h : ((machine v).guard (Orderly v)).Reachable s)
    (quiet : Quiet s) (c : Nat) : (s.streams c).read = (s.streams c).sent := by
  have noticed := noticed_of_orderly h
  have filed := reachable_filed h
  -- an edge-triggered descriptor with something queued would be reported for its edge
  have drained : ∀ fd, s.kind fd = some true → s.queued fd = 0 := by
    intro fd kind
    obtain ⟨e, entry, triggered⟩ := Option.map_eq_some_iff.mp kind
    by_contra some
    have covered := noticed.covered
    rw [quiet.calling.busy] at covered
    obtain ⟨e', entry', edge⟩ := covered.settled ⟨⟨e, entry, triggered⟩, Nat.pos_of_ne_zero some⟩
    obtain rfl := Option.mem_unique entry' entry
    exact quiet.silent fd ⟨e', entry, by rw [if_pos triggered]; exact edge⟩
  have accepted : s.backlog = [] := by
    have empty := drained s.listenfd filed.listening.2
    simpa [St.queued] using empty
  by_cases lower : c < s.arrived
  · rcases filed.placed c lower with queued | ⟨fd, x, opened, rfl⟩ | exhausted
    · rw [accepted] at queued
      cases queued
    · have unlisted : fd ≠ s.listenfd := by
        rintro rfl
        rw [filed.listening.1] at opened
        cases opened
      have socket : s.sockets fd = some x := opened
      have unread : (s.streams x.connection).unread = [] := by
        rcases filed.registered fd (by simp [socket]) with kind | ⟨rest, ctl⟩
        · cases v with
          | et =>
            have empty := drained fd kind
            simpa [St.queued, unlisted, socket] using empty
          | lt =>
            obtain ⟨e, entry, level⟩ := Option.map_eq_some_iff.mp kind
            by_contra some
            have readable : s.readable fd = true := by simp [St.readable, unlisted, socket, some]
            exact quiet.silent fd ⟨e, entry, by rw [level]; exact readable⟩
        · have calling := quiet.calling
          rw [ctl] at calling
          exact calling.elim
      rw [← (s.streams x.connection).read_append_unread, unread, List.append_nil]
    · exact exhausted.read_eq_sent
  · have none := filed.silent c (Nat.not_lt.mp lower)
    have prefix' := (s.streams c).order
    rw [none, List.prefix_nil] at prefix'
    rw [prefix', none]

/-- When the end of each stream has arrived before `et` takes its last bytes, and every `accept`
takes all that wait, `et` never blocks and returns to `epoll_wait`, and it has read what `lt` has
read when nothing more is reported in either. -/
theorem et_agrees_with_lt {s t : St} (lt : ((machine .lt).guard (Orderly .lt)).Reachable s)
    (et : ((machine .et).guard (Orderly .et)).Reachable t) :
    ¬ WouldBlock t ∧ (t.ctl = .left ∨ t.ctl.Calling ∨ ∃ t', Later t' t) ∧ WellFounded Later ∧
    (Quiet s → Quiet t → (∀ c, (s.streams c).sent = (t.streams c).sent) →
      ∀ c, (s.streams c).read = (t.streams c).read) := by
  refine ⟨never_blocks et, proceeds et, later_wellFounded, ?_⟩
  intro quiet quiet' same c
  rw [read_of_quiet lt quiet, read_of_quiet et quiet', same]

/-- With one connection so far, nothing but its descriptor and `listenfd` is registered. -/
theorem unregistered_of_single {v : Handler} {s : St} {fd fd' : Fd} {x : Socket}
    (h : ((machine v).guard (Orderly v)).Reachable s) (single : s.arrived = 1)
    (opened : x ∈ s.sockets fd) (other : fd' ≠ fd) (unlisted : fd' ≠ s.listenfd) :
    s.entries fd' = none := by
  have filed := reachable_filed h
  have bound := (noticed_of_orderly h).bound fd' unlisted
  have number : ∀ fd, ∀ x ∈ s.sockets fd, x.connection = 0 := by
    intro fd x opened
    have lower := filed.numbered fd x opened
    omega
  cases entry : s.entries fd' with
  | none => rfl
  | some e =>
    obtain ⟨y, opened'⟩ := Option.isSome_iff_exists.mp (bound (by rw [entry]; rfl))
    exact absurd (filed.single fd' fd y opened' x opened
      ((number fd' y opened').trans (number fd x opened).symm)) other

/-- A client has sent "hi" and, under `et`, finished, and `recv` has returned the bytes. -/
def readByLt : St := (((machine .lt).guard (Orderly .lt)).replay (boot 3)
  [.connects, .wait [⟨3, epollIn⟩], .main ⟨5, none, 0⟩, .main ⟨-1, none, 0⟩, .arrives 0 [104, 105],
    .wait [⟨5, epollIn⟩], .main ⟨-1, some [104, 105], 0⟩]).getD (boot 3)

def drained : St := (((machine .et).guard (Orderly .et)).replay (boot 3)
  [.connects, .wait [⟨3, epollIn⟩], .main ⟨5, none, 0⟩, .main ⟨-1, none, 0⟩, .arrives 0 [104, 105],
    .finishes 0, .wait [⟨5, epollIn⟩], .main ⟨-1, none, 0⟩,
    .main ⟨-1, some [104, 105], 0⟩]).getD (boot 3)

/-- Then `et` closes the connection twice. -/
def readByEt : St := { (drained.close 5).close 5 with ctl := .events [] }

theorem boot_reachable (v : Handler) : ((machine v).guard (Orderly v)).Reachable (boot 3) :=
  .start ⟨3, by decide, rfl⟩

theorem readByLt_reachable : ((machine .lt).guard (Orderly .lt)).Reachable readByLt :=
  (boot_reachable .lt).replay_getD _

theorem drained_reachable : ((machine .et).guard (Orderly .et)).Reachable drained :=
  (boot_reachable .et).replay_getD _

theorem readByEt_reachable : ((machine .et).guard (Orderly .et)).Reachable readByEt := by
  have closed : ((machine .et).guard (Orderly .et)).Reachable (drained.close 5) := by
    refine drained_reachable.step (a := .main ⟨-1, some [], 0⟩) ?_ rfl
    decide +kernel
  refine closed.step (a := .main ⟨-1, none, ebadf⟩) ?_ rfl
  decide +kernel

theorem readByLt_quiet : Quiet readByLt where
  calling := by decide +kernel
  silent fd := by
    by_cases five : fd = 5
    · subst five
      decide +kernel
    by_cases three : fd = 3
    · subst three
      decide +kernel
    have entry : readByLt.entries fd = none := unregistered_of_single readByLt_reachable
      (by decide +kernel) (x := ⟨0, false⟩) rfl five three
    rintro ⟨e, registered, -⟩
    rw [entry] at registered
    cases registered

theorem readByEt_quiet : Quiet readByEt where
  calling := by decide +kernel
  silent fd := by
    by_cases five : fd = 5
    · subst five
      decide +kernel
    by_cases three : fd = 3
    · subst three
      decide +kernel
    have before : drained.entries fd = none := unregistered_of_single drained_reachable
      (by decide +kernel) (x := ⟨0, false⟩) rfl five three
    have entry : readByEt.entries fd = none := by
      simpa [readByEt, St.close, five] using before
    rintro ⟨e, registered, -⟩
    rw [entry] at registered
    cases registered

theorem et_agrees_with_lt_read : ¬ WouldBlock drained ∧
    (readByLt.streams 0).read = [104, 105] ∧ (readByEt.streams 0).read = [104, 105] := by
  obtain ⟨awake, -⟩ := et_agrees_with_lt readByLt_reachable drained_reachable
  obtain ⟨-, -, -, agrees⟩ := et_agrees_with_lt readByLt_reachable readByEt_reachable
  have read : (readByLt.streams 0).read = [104, 105] := by decide +kernel
  have same : ∀ c, (readByLt.streams c).sent = (readByEt.streams c).sent := by
    intro c
    by_cases zero : c = 0
    · subst zero
      decide +kernel
    · have later : 1 ≤ c := Nat.pos_of_ne_zero zero
      rw [(reachable_filed readByLt_reachable).silent c later,
        (reachable_filed readByEt_reachable).silent c later]
  refine ⟨awake, read, ?_⟩
  rw [← agrees readByLt_quiet readByEt_quiet same 0]
  exact read

/-- One byte arrives on a connection that stays open. -/
theorem et_blocks : ∃ s, (machine .et).Reachable s ∧ WouldBlock s := by
  have start : (machine .et).Reachable (boot 3) := .start ⟨3, by decide, rfl⟩
  obtain ⟨s, reach, blocked⟩ := start.of_replay (p := fun s : St => decide (WouldBlock s))
    [.connects, .wait [⟨3, epollIn⟩], .main ⟨5, none, 0⟩, .main ⟨-1, none, 0⟩, .arrives 0 [104],
      .wait [⟨5, epollIn⟩], .main ⟨-1, none, 0⟩, .main ⟨-1, some [104], 0⟩] (by decide +kernel)
  exact ⟨s, reach, of_decide_eq_true blocked⟩

end JiajiaNetwork.TestEpoll
