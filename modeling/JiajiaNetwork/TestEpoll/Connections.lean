/- Where each connection is in the loop of `test_epoll.c`: in front of `accept`, behind one
   descriptor, or closed with everything read that its client sent. -/
import JiajiaNetwork.TestEpoll.Edges

set_option autoImplicit false
set_option relaxedAutoImplicit false

namespace JiajiaNetwork.TestEpoll

open Lib

/-- The descriptor on which the next step calls `recv`. -/
def receiving (v : Handler) (s : St) : Option Fd :=
  match s.ctl with
  | .draining sockfd _ => some sockfd
  | .events (r :: _) =>
    if v = .lt ∧ r.fd ≠ s.listenfd ∧ has r.events epollIn then some r.fd else none
  | .events [] | .adding _ _ | .left => none

/-- Only bytes and ends arrive, so that `recv` does not fail on an open socket; every `accept`
takes all the connections that wait or has a newer edge; and in `et` the end of a stream has
arrived when its last bytes are taken. -/
structure Orderly (v : Handler) (s : St) (a : Input) : Prop where
  takesAll : TakesAll s a
  reliable : ∀ answers, a = .main answers → answers.recv = none →
    ∀ fd ∈ receiving v s, s.sockets fd = none
  finished : ∀ answers, a = .main answers → ∀ fd ∈ receiving v s, ∀ bytes ∈ answers.recv,
    ∀ x ∈ s.sockets fd, v = .et → 0 < bytes.length →
    (s.streams x.connection).unread.length ≤ bytes.length →
    (s.streams x.connection).finished = true

instance (v : Handler) (s : St) (a : Input) : Decidable (Orderly v s a) := by
  cases a with
  | main answers =>
    exact decidable_of_iff
      (TakesAll s (.main answers) ∧
        (answers.recv = none → ∀ fd, fd ∈ receiving v s → s.sockets fd = none) ∧
        ∀ fd, fd ∈ receiving v s → ∀ bytes, bytes ∈ answers.recv →
          ∀ x, x ∈ s.sockets fd → v = .et → 0 < bytes.length →
          (s.streams x.connection).unread.length ≤ bytes.length →
          (s.streams x.connection).finished = true)
      ⟨fun ⟨takesAll, reliable, finished⟩ => ⟨takesAll,
          fun _ same => Input.main.inj same ▸ reliable,
          fun _ same => Input.main.inj same ▸ finished⟩,
        fun orderly => ⟨orderly.takesAll, orderly.reliable _ rfl, orderly.finished _ rfl⟩⟩
  | _ =>
    exact decidable_of_iff (TakesAll s _)
      ⟨fun takesAll => ⟨takesAll, fun _ same => (nomatch same), fun _ same => (nomatch same)⟩,
        Orderly.takesAll⟩

instance (v : Handler) (s : St) (a : Input) :
    Decidable (((machine v).guard (Orderly v)).Lawful s a) :=
  inferInstanceAs (Decidable (_ ∧ _))

/-- How a descriptor is registered, if it is. -/
def St.kind (s : St) (fd : Fd) : Option Bool := (s.entries fd).map Entry.enableEt

structure Filed (v : Handler) (s : St) : Prop where
  listening : s.sockets s.listenfd = none ∧ s.kind s.listenfd = some true
  numbered : ∀ fd, ∀ x ∈ s.sockets fd, x.connection < s.arrived
  queued : ∀ c ∈ s.backlog, c < s.arrived
  distinct : s.backlog.Nodup
  accepted : ∀ fd, ∀ x ∈ s.sockets fd, x.connection ∉ s.backlog
  single : ∀ fd fd', ∀ x ∈ s.sockets fd, ∀ y ∈ s.sockets fd',
    x.connection = y.connection → fd = fd'
  placed : ∀ c < s.arrived, c ∈ s.backlog ∨ (∃ fd, ∃ x ∈ s.sockets fd, x.connection = c) ∨
    (s.streams c).Exhausted
  silent : ∀ c, s.arrived ≤ c → (s.streams c).sent = []
  registered : ∀ fd, (s.sockets fd).isSome →
    s.kind fd = some (decide (v = .et)) ∨ ∃ rest, s.ctl = .adding fd rest
  adding : ∀ connfd rest, s.ctl = .adding connfd rest → (s.sockets connfd).isSome →
    s.kind connfd = none
  lower : ∀ fd, (s.sockets fd).isSome → 0 ≤ fd

section Steps

variable {v : Handler} {s t : St} {fd : Fd} {r : Report} {rest : List Report} {a : Answers}

/-- Raising or using up an edge leaves the registration. -/
theorem kind_raised (entry : Option Entry) :
    (raised entry).map Entry.enableEt = entry.map Entry.enableEt := by
  cases entry <;> rfl

theorem kind_reported (entry : Option Entry) :
    (reported entry).map Entry.enableEt = entry.map Entry.enableEt := by
  cases entry <;> rfl

theorem kind_connects (x : Fd) : (Function.update s.entries s.listenfd
    (raised (s.entries s.listenfd)) x).map Entry.enableEt = s.kind x := by
  by_cases same : x = s.listenfd
  · subst same
    rw [Function.update_self, kind_raised]
    rfl
  · rw [Function.update_of_ne same]
    rfl

/-- A step outside `addfd` that leaves the connections where they are. -/
theorem Filed.goto (filed : Filed v s) (listenfd : t.listenfd = s.listenfd)
    (arrived : t.arrived = s.arrived) (backlog : t.backlog = s.backlog)
    (streams : t.streams = s.streams) (sockets : t.sockets = s.sockets)
    (kind : t.kind = s.kind) (before : ∀ connfd rest, s.ctl ≠ .adding connfd rest)
    (after : ∀ connfd rest, t.ctl ≠ .adding connfd rest) : Filed v t where
  listening := by
    rw [listenfd, sockets, kind]
    exact filed.listening
  numbered := by
    rw [sockets, arrived]
    exact filed.numbered
  queued := by
    rw [backlog, arrived]
    exact filed.queued
  distinct := backlog ▸ filed.distinct
  accepted := by
    rw [sockets, backlog]
    exact filed.accepted
  single := by
    rw [sockets]
    exact filed.single
  placed := by
    rw [arrived, backlog, sockets, streams]
    exact filed.placed
  silent := by
    rw [arrived, streams]
    exact filed.silent
  registered x opened := by
    rw [sockets] at opened
    rw [kind]
    rcases filed.registered x opened with known | ⟨rest, ctl⟩
    · exact .inl known
    · exact absurd ctl (before x rest)
  adding connfd rest ctl := absurd ctl (after connfd rest)
  lower := by
    rw [sockets]
    exact filed.lower

theorem Filed.connects (filed : Filed v s) : Filed v { s with
    arrived := s.arrived + 1
    backlog := s.backlog ++ [s.arrived]
    entries := Function.update s.entries s.listenfd (raised (s.entries s.listenfd)) } where
  listening := ⟨filed.listening.1, (kind_connects s.listenfd).trans filed.listening.2⟩
  numbered x y hy := Nat.lt_succ_of_lt (filed.numbered x y hy)
  queued c mem := by
    rcases List.mem_append.mp mem with old | new
    · exact Nat.lt_succ_of_lt (filed.queued c old)
    · rw [List.mem_singleton.mp new]
      exact Nat.lt_succ_self _
  distinct := by
    apply List.nodup_append.mpr
    refine ⟨filed.distinct, List.nodup_singleton _, ?_⟩
    rintro c old d new rfl
    have lower := filed.queued c old
    rw [List.mem_singleton.mp new] at lower
    exact absurd lower (Nat.lt_irrefl _)
  accepted x y hy mem := by
    rcases List.mem_append.mp mem with old | new
    · exact filed.accepted x y hy old
    · have lower := filed.numbered x y hy
      rw [List.mem_singleton.mp new] at lower
      exact absurd lower (Nat.lt_irrefl _)
  single := filed.single
  placed c lower := by
    rcases Nat.lt_succ_iff_lt_or_eq.mp lower with old | rfl
    · rcases filed.placed c old with queued | elsewhere
      · exact .inl (List.mem_append_left _ queued)
      · exact .inr elsewhere
    · exact .inl (by simp)
  silent c upper := filed.silent c (Nat.le_of_succ_le upper)
  registered x opened := by
    rcases filed.registered x opened with known | ctl
    · exact .inl ((kind_connects x).trans known)
    · exact .inr ctl
  adding connfd rest ctl opened :=
    (kind_connects connfd).trans (filed.adding connfd rest ctl opened)
  lower := filed.lower

/-- Something arrives on a connection that its client has not finished. -/
theorem Filed.change (filed : Filed v s) {connection : Nat} (f : Channel Byte → Channel Byte)
    (sending : Sending s connection) : Filed v (s.change connection f) := by
  have kind : (s.change connection f).kind = s.kind := by
    ext1 x
    simp only [St.kind, St.change]
    split_ifs
    · rw [kind_raised]
    · rfl
  have other : ∀ {c}, c ≠ connection → (s.change connection f).streams c = s.streams c := by
    intro c apart
    exact Function.update_of_ne apart _ _
  constructor
  case listening => exact ⟨filed.listening.1, kind ▸ filed.listening.2⟩
  case numbered => exact filed.numbered
  case queued => exact filed.queued
  case distinct => exact filed.distinct
  case accepted => exact filed.accepted
  case single => exact filed.single
  case placed =>
    intro c lower
    rcases filed.placed c lower with queued | opened | exhausted
    · exact .inl queued
    · exact .inr (.inl opened)
    · have apart : c ≠ connection := by
        rintro rfl
        have finished := exhausted.finished
        rw [sending.2] at finished
        cases finished
      exact .inr (.inr (by rw [other apart]; exact exhausted))
  case silent =>
    intro c upper
    have apart : c ≠ connection := by
      rintro rfl
      exact absurd sending.1 (Nat.not_lt.mpr upper)
    rw [other apart]
    exact filed.silent c upper
  case registered =>
    rw [kind]
    exact filed.registered
  case adding =>
    rw [kind]
    exact filed.adding
  case lower => exact filed.lower

/-- A socket after `accept` is the new one or one of those before. -/
theorem mem_accepted {connfd x : Fd} {c : Nat} {y : Socket}
    (mem : y ∈ Function.update s.sockets connfd (some ⟨c, false⟩) x) :
    (x = connfd ∧ y.connection = c) ∨ (x ≠ connfd ∧ y ∈ s.sockets x) := by
  by_cases same : x = connfd
  · subst same
    rw [Function.update_self, Option.mem_def, Option.some.injEq] at mem
    exact .inl ⟨rfl, mem ▸ rfl⟩
  · rw [Function.update_of_ne same] at mem
    exact .inr ⟨same, mem⟩

/-- `accept` moves the first connection that waits behind the new descriptor. -/
theorem Filed.accepts (filed : Filed v s) (noticed : Noticed v s)
    (before : ∀ connfd rest, s.ctl ≠ .adding connfd rest) {connfd : Fd}
    (fresh : Fresh s connfd) {c : Nat} {later : List Nat} (queue : s.backlog = c :: later) :
    Filed v { s with
      ctl := .adding connfd rest
      backlog := later
      sockets := Function.update s.sockets connfd (some ⟨c, false⟩) } := by
  obtain ⟨accepted, unlisted, closed, -⟩ := fresh
  have first : c ∈ s.backlog := by simp [queue]
  have others : ∀ d ∈ later, d ∈ s.backlog := fun d mem => by simp [queue, mem]
  have distinct := filed.distinct
  rw [queue, List.nodup_cons] at distinct
  constructor
  case listening =>
    refine ⟨?_, filed.listening.2⟩
    show Function.update s.sockets connfd (some ⟨c, false⟩) s.listenfd = none
    rw [Function.update_of_ne (Ne.symm unlisted)]
    exact filed.listening.1
  case numbered =>
    intro x y mem
    rcases mem_accepted mem with ⟨-, same⟩ | ⟨-, old⟩
    · exact same ▸ filed.queued c first
    · exact filed.numbered x y old
  case queued => exact fun d mem => filed.queued d (others d mem)
  case distinct => exact distinct.2
  case accepted =>
    intro x y mem waits
    rcases mem_accepted mem with ⟨-, same⟩ | ⟨-, old⟩
    · exact distinct.1 (same ▸ waits)
    · exact filed.accepted x y old (others _ waits)
  case single =>
    -- no socket before the step was behind a connection that still waited
    have outside : ∀ x, ∀ y ∈ s.sockets x, y.connection ≠ c := by
      intro x y mem same
      exact filed.accepted x y mem (same ▸ first)
    intro x x' y hy z hz same
    rcases mem_accepted hy with ⟨rfl, new⟩ | ⟨-, old⟩ <;>
      rcases mem_accepted hz with ⟨rfl, new'⟩ | ⟨-, old'⟩
    · rfl
    · exact absurd (same.symm.trans new) (outside x' z old')
    · exact absurd (same.trans new') (outside x y old)
    · exact filed.single x x' y old z old' same
  case placed =>
    intro d lower
    rcases filed.placed d lower with queued | ⟨x, y, mem, same⟩ | exhausted
    · rw [queue] at queued
      rcases List.mem_cons.mp queued with rfl | later'
      · exact .inr (.inl ⟨connfd, ⟨d, false⟩, by simp, rfl⟩)
      · exact .inl later'
    · have apart : x ≠ connfd := by
        rintro rfl
        rw [closed] at mem
        cases mem
      exact .inr (.inl ⟨x, y, by simpa [apart] using mem, same⟩)
    · exact .inr (.inr exhausted)
  case silent => exact filed.silent
  case registered =>
    intro x opened
    by_cases same : x = connfd
    · exact .inr ⟨_, by rw [same]⟩
    · have old : (s.sockets x).isSome := by simpa [same] using opened
      rcases filed.registered x old with known | ⟨rest', other⟩
      · exact .inl known
      · exact absurd other (before x rest')
  case adding =>
    intro fd rest' same _
    obtain ⟨rfl, -⟩ := Control.adding.inj same
    show (s.entries connfd).map Entry.enableEt = none
    rw [noticed.unregistered unlisted closed]
    rfl
  case lower =>
    intro x opened
    by_cases same : x = connfd
    · exact same ▸ accepted
    · exact filed.lower x (by simpa [same] using opened)

/-- An `accept` that fails leaves the connections where they are. -/
theorem Filed.refuses (filed : Filed v s)
    (before : ∀ connfd rest, s.ctl ≠ .adding connfd rest) {connfd : Fd} (failed : ¬ 0 ≤ connfd) :
    Filed v { s with ctl := .adding connfd rest } where
  listening := filed.listening
  numbered := filed.numbered
  queued := filed.queued
  distinct := filed.distinct
  accepted := filed.accepted
  single := filed.single
  placed := filed.placed
  silent := filed.silent
  registered x opened := by
    rcases filed.registered x opened with known | ⟨rest', other⟩
    · exact .inl known
    · exact absurd other (before x rest')
  adding fd rest' same opened := by
    obtain ⟨rfl, -⟩ := Control.adding.inj same
    exact absurd (filed.lower connfd opened) failed
  lower := filed.lower

theorem Filed.accept (filed : Filed v s) (noticed : Noticed v s)
    (ctl : s.ctl = .events (r :: rest)) (answered : a.connfd = -1 ∨ Fresh s a.connfd)
    (run : acceptBranch s rest a = some t) : Filed v t := by
  have before : ∀ connfd rest', s.ctl ≠ .adding connfd rest' := by simp [ctl]
  rcases acceptBranch_cases answered run with ⟨fresh, c, later, queue, rfl⟩ | ⟨failed, rfl⟩
  · exact filed.accepts noticed before fresh queue
  · have negative : ¬ 0 ≤ a.connfd := by
      rw [failed]
      decide
    exact filed.refuses before negative

/-- `addfd` registers the new connection as the handler wants it. -/
theorem Filed.add (filed : Filed v s) {connfd : Fd} (ctl : s.ctl = .adding connfd rest) :
    Filed v { s.addfd connfd (v = .et) with ctl := .events rest } := by
  have others : ∀ x rest', x ≠ connfd → s.ctl ≠ .adding x rest' := by
    intro x rest' other same
    rw [ctl] at same
    exact other (Control.adding.inj same).1.symm
  unfold St.addfd
  split_ifs with idle
  · have kind : ∀ x, x ≠ connfd →
        (Function.update s.entries connfd (some ⟨v = .et, s.readable connfd⟩) x).map
          Entry.enableEt = s.kind x := by
      intro x other
      rw [Function.update_of_ne other]
      rfl
    have unlisted : s.listenfd ≠ connfd := by
      rintro rfl
      rw [filed.listening.1] at idle
      cases idle.1
    exact {
      listening := ⟨filed.listening.1, (kind s.listenfd unlisted).trans filed.listening.2⟩
      numbered := filed.numbered
      queued := filed.queued
      distinct := filed.distinct
      accepted := filed.accepted
      single := filed.single
      placed := filed.placed
      silent := filed.silent
      registered := fun x opened => by
        left
        by_cases same : x = connfd
        · subst same
          simp [St.kind]
        · rcases filed.registered x opened with known | ⟨rest', other⟩
          · exact (kind x same).trans known
          · exact absurd other (others x rest' same)
      adding := fun _ _ other => absurd other (by simp)
      lower := filed.lower }
  · exact {
      listening := filed.listening
      numbered := filed.numbered
      queued := filed.queued
      distinct := filed.distinct
      accepted := filed.accepted
      single := filed.single
      placed := filed.placed
      silent := filed.silent
      registered := fun x opened => by
        rcases filed.registered x opened with known | ⟨rest', other⟩
        · exact .inl known
        · by_cases same : x = connfd
          · subst same
            have unregistered := filed.adding x rest ctl opened
            have entry : s.entries x = none := by simpa [St.kind] using unregistered
            exact absurd ⟨opened, entry⟩ idle
          · exact absurd other (others x rest' same)
      adding := fun _ _ other => absurd other (by simp)
      lower := filed.lower }

/-- A connection is closed when all that its client sent was read. -/
theorem Filed.close (filed : Filed v s) (ctl : Control)
    (before : ∀ connfd rest, s.ctl ≠ .adding connfd rest)
    (after : ∀ connfd rest, ctl ≠ .adding connfd rest)
    (exhausted : ∀ x ∈ s.sockets fd, (s.streams x.connection).Exhausted)
    (unlisted : fd ≠ s.listenfd) : Filed v { s.close fd with ctl } := by
  have sockets : ∀ {x y}, y ∈ (s.close fd).sockets x → x ≠ fd ∧ y ∈ s.sockets x := by
    intro x y mem
    by_cases same : x = fd
    · subst same
      simp [St.close] at mem
    · exact ⟨same, by simpa [St.close, same] using mem⟩
  have opened : ∀ {x}, ((s.close fd).sockets x).isSome → x ≠ fd ∧ (s.sockets x).isSome := by
    intro x some
    obtain ⟨y, mem⟩ := Option.isSome_iff_exists.mp some
    obtain ⟨other, old⟩ := sockets mem
    exact ⟨other, Option.isSome_iff_exists.mpr ⟨y, old⟩⟩
  constructor
  case listening =>
    refine ⟨?_, ?_⟩
    · simpa [St.close, Ne.symm unlisted] using filed.listening.1
    · simpa [St.close, St.kind, Ne.symm unlisted] using filed.listening.2
  case numbered => exact fun x y mem => filed.numbered x y (sockets mem).2
  case queued => exact filed.queued
  case distinct => exact filed.distinct
  case accepted => exact fun x y mem => filed.accepted x y (sockets mem).2
  case single =>
    exact fun x x' y hy z hz same => filed.single x x' y (sockets hy).2 z (sockets hz).2 same
  case placed =>
    intro c lower
    rcases filed.placed c lower with queued | ⟨x, y, mem, same⟩ | gone
    · exact .inl queued
    · by_cases here : x = fd
      · subst here
        exact .inr (.inr (same ▸ exhausted y mem))
      · exact .inr (.inl ⟨x, y, by simpa [St.close, here] using mem, same⟩)
    · exact .inr (.inr gone)
  case silent => exact filed.silent
  case registered =>
    intro x some
    obtain ⟨other, old⟩ := opened some
    rcases filed.registered x old with known | ⟨rest, same⟩
    · left
      simpa [St.kind, St.close, other] using known
    · exact absurd same (before x rest)
  case adding => exact fun connfd rest same => absurd same (after connfd rest)
  case lower => exact fun x some => filed.lower x (opened some).2

/-- Bytes of one connection are read. -/
theorem Filed.consume (filed : Filed v s) {n : Nat} (run : s.consume fd n = some t)
    (ctl : Control) (before : ∀ connfd rest, s.ctl ≠ .adding connfd rest)
    (after : ∀ connfd rest, ctl ≠ .adding connfd rest) : Filed v { t with ctl } := by
  obtain ⟨y, -, rfl⟩ := consume_eq run
  have exhausted : ∀ {c}, (s.streams c).Exhausted → (Function.update s.streams y.connection
      ((s.streams y.connection).consume n) c).Exhausted := by
    intro c all
    by_cases same : c = y.connection
    · subst same
      rw [Function.update_self]
      exact all.consume n
    · rw [Function.update_of_ne same]
      exact all
  exact {
    listening := filed.listening
    numbered := filed.numbered
    queued := filed.queued
    distinct := filed.distinct
    accepted := filed.accepted
    single := filed.single
    placed := fun c lower => by
      rcases filed.placed c lower with queued | opened | gone
      · exact .inl queued
      · exact .inr (.inl opened)
      · exact .inr (.inr (exhausted gone))
    silent := fun c upper => by
      by_cases same : c = y.connection
      · subst same
        simpa using filed.silent _ upper
      · simpa [same] using filed.silent c upper
    registered := fun x opened => by
      rcases filed.registered x opened with known | ⟨rest, same⟩
      · exact .inl known
      · exact absurd same (before x rest)
    adding := fun connfd rest same => absurd same (after connfd rest)
    lower := filed.lower }

/-- A `recv` that returns nothing on an open socket found its end. -/
theorem exhausted_of_empty (received : Received s fd a)
    (reliable : a.recv = none → s.sockets fd = none) (ended : (a.recv.getD []).length = 0) :
    ∀ x ∈ s.sockets fd, (s.streams x.connection).Exhausted := by
  intro x opened
  unfold Received at received
  cases answer : a.recv with
  | none =>
    rw [Option.mem_def, reliable answer] at opened
    cases opened
  | some bytes =>
    simp only [answer] at received
    obtain ⟨-, y, opened', yields⟩ := received
    obtain rfl := Option.mem_unique opened opened'
    have nothing : bytes = [] := by simpa [answer] using ended
    obtain ⟨unread, finished⟩ := yields.2 nothing
    exact ⟨finished, unread⟩

theorem Filed.ltBranch (filed : Filed v s) (ctl : s.ctl = .events (r :: rest))
    (unlisted : r.fd ≠ s.listenfd) (received : Received s r.fd a)
    (reliable : a.recv = none → s.sockets r.fd = none)
    (run : ltBranch s r.fd rest a = some t) : Filed v t := by
  simp only [TestEpoll.ltBranch] at run
  split_ifs at run with ended
  · obtain rfl := Option.some.inj run
    exact filed.close (.events rest) (by simp [ctl]) (by simp)
      (exhausted_of_empty received reliable ended) unlisted
  · obtain ⟨u, taken, rfl⟩ := Option.map_eq_some_iff.mp run
    exact filed.consume taken (.events rest) (by simp [ctl]) (by simp)

theorem Filed.etTurn (filed : Filed v s) (ctl : s.ctl = .draining fd rest)
    (unlisted : fd ≠ s.listenfd) (received : Received s fd a)
    (reliable : a.recv = none → s.sockets fd = none)
    (run : etTurn s fd rest a = some t) : Filed v t := by
  unfold TestEpoll.etTurn at run
  cases answer : a.recv with
  | none =>
    simp only [answer] at run
    split_ifs at run with again
    · obtain rfl := Option.some.inj run
      exact filed.goto rfl rfl rfl rfl rfl rfl (by simp [ctl]) (by simp)
    · obtain rfl := Option.some.inj run
      exact filed.close (.events rest) (by simp [ctl]) (by simp)
        (exhausted_of_empty received reliable (by simp [answer])) unlisted
  | some bytes =>
    simp only [answer] at run
    split_ifs at run with ended
    · obtain rfl := Option.some.inj run
      exact filed.close s.ctl (by simp [ctl]) (by simp [ctl])
        (exhausted_of_empty received reliable (by simp [answer, ended])) unlisted
    · have same := (consume_frame run).2.2.2
      have moved := filed.consume run s.ctl (by simp [ctl]) (by simp [ctl])
      rw [← same] at moved
      exact moved

theorem Filed.main (filed : Filed v s) (noticed : Noticed v s) (answered : Answered s a s.ctl)
    (orderly : Orderly v s (.main a)) (run : mainStep v s a = some t) : Filed v t := by
  have reliable := orderly.reliable a rfl
  unfold mainStep at run
  split at run
  · rename_i r rest ctl
    rw [ctl, Answered] at answered
    unfold body at run
    split_ifs at run answered with listening readable
    · exact filed.accept noticed ctl answered run
    · cases v with
      | lt =>
        have calls : receiving .lt s = some r.fd := by simp [receiving, ctl, listening, readable]
        exact filed.ltBranch ctl listening answered (fun none => reliable none r.fd calls) run
      | et =>
        obtain rfl := Option.some.inj run
        exact filed.goto rfl rfl rfl rfl rfl rfl (by simp [ctl]) (by simp)
    · obtain rfl := Option.some.inj run
      exact filed.goto rfl rfl rfl rfl rfl rfl (by simp [ctl]) (by simp)
  · rename_i connfd rest ctl
    obtain rfl := Option.some.inj run
    exact filed.add ctl
  · rename_i sockfd rest ctl
    rw [ctl, Answered] at answered
    have calls : receiving v s = some sockfd := by simp [receiving, ctl]
    have unlisted := noticed.target sockfd (by rw [ctl]; rfl)
    exact filed.etTurn ctl unlisted answered (fun none => reliable none sockfd calls) run
  · cases run
  · cases run

end Steps

theorem boot_filed (v : Handler) (listenfd : Fd) : Filed v (boot listenfd) where
  listening := ⟨rfl, by simp [boot, St.kind]⟩
  numbered fd x mem := by cases mem
  queued c mem := by cases mem
  distinct := List.nodup_nil
  accepted fd x mem := by cases mem
  single fd fd' x mem := by cases mem
  placed c lower := absurd lower (Nat.not_lt_zero c)
  silent c _ := rfl
  registered fd opened := by cases opened
  adding connfd rest ctl := by cases ctl
  lower fd opened := by cases opened

theorem noticed_of_orderly {v : Handler} {s : St}
    (h : ((machine v).guard (Orderly v)).Reachable s) :
    Noticed v s :=
  reachable_noticed (h.guard_mono fun _ _ _ _ orderly => orderly.takesAll)

theorem reachable_filed {v : Handler} {s : St} (h : ((machine v).guard (Orderly v)).Reachable s) :
    Filed v s := by
  apply h.invariant
  · rintro s ⟨listenfd, -, rfl⟩
    exact boot_filed v listenfd
  · intro s a t reach filed lawful run
    obtain ⟨promised, orderly⟩ := lawful
    cases a with
    | connects =>
      obtain rfl := Option.some.inj run
      exact filed.connects
    | arrives connection bytes =>
      obtain rfl := Option.some.inj run
      exact filed.change _ promised
    | finishes connection =>
      obtain rfl := Option.some.inj run
      exact filed.change _ promised
    | wait batch =>
      obtain rfl := Option.some.inj run
      have kind : ∀ x, (if x ∈ batch.map Report.fd then reported (s.entries x) else
          s.entries x).map Entry.enableEt = s.kind x := by
        intro x
        split_ifs
        · exact kind_reported _
        · rfl
      have calling : s.ctl.Calling := promised.1
      refine filed.goto rfl rfl rfl rfl rfl (funext kind) ?_ (by simp)
      intro connfd rest ctl
      rw [ctl] at calling
      exact calling
    | waitFailed =>
      obtain rfl := Option.some.inj run
      have calling : s.ctl.Calling := promised
      refine filed.goto rfl rfl rfl rfl rfl rfl ?_ (by simp)
      intro connfd rest ctl
      rw [ctl] at calling
      exact calling
    | main a => exact filed.main (noticed_of_orderly reach) promised orderly run

end JiajiaNetwork.TestEpoll
