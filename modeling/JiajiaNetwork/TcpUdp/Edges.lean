/- Edges of the combined server. A handler runs once for an edge and takes one connection, one
   datagram or one buffer of bytes; what it leaves behind waits for the next arrival. -/
import JiajiaNetwork.Lib.Edge
import JiajiaNetwork.TcpUdp.Server

set_option autoImplicit false
set_option relaxedAutoImplicit false

namespace JiajiaNetwork.TcpUdp

open Lib

def St.Pending (s : St) (fd : Fd) : Prop := s.entries fd = some true

/-- A registered descriptor with something queued. -/
structure St.Waiting (s : St) (fd : Fd) : Prop where
  registered : (s.entries fd).isSome
  queued : 0 < s.queued fd

def Report.Readable (r : Report) : Prop := has r.events epollIn

instance (r : Report) : Decidable r.Readable := inferInstanceAs (Decidable (has _ _))

/-- The descriptors reported as readable that are still to be handled. -/
abbrev readableFds (reports : List Report) : List Fd :=
  keysOf Report.fd Report.Readable reports

/-- How many of the things queued the handler of an event takes. -/
def taken (s : St) (r : Report) (a : Answers) : Nat :=
  if r.fd = s.listenfd then if 0 ≤ a.connfd then 1 else 0
  else if r.fd = s.udpfd then if a.recv.isSome then 1 else 0
  else (a.recv.getD []).length

/-- The handler leaves the `for` loop: `recv` on a connection returned 0 or failed. -/
structure Breaks (s : St) (r : Report) (a : Answers) : Prop where
  apart : r.fd ≠ s.listenfd ∧ r.fd ≠ s.udpfd
  none : (a.recv.getD []).length = 0

/-- A handler takes all that is queued, unless there is a newer edge or it closes the connection
for an error; and if it leaves the `for` loop, no event that is left is about anything queued
without a newer edge. -/
def Drains (s : St) : Input → Prop
  | .main a => ∀ r ∈ s.ctl.next?, has r.events epollIn →
      (s.entries r.fd = some true ∨ s.queued r.fd ≤ taken s r a ∨
        Breaks s r a ∧ a.recv = none ∧ a.errno ≠ eagain) ∧
      (Breaks s r a → ∀ fd ∈ readableFds s.ctl.ahead.tail, 0 < s.queued fd →
        s.entries fd = some true)
  | _ => True

instance (s : St) (r : Report) (a : Answers) : Decidable (Breaks s r a) :=
  decidable_of_iff ((r.fd ≠ s.listenfd ∧ r.fd ≠ s.udpfd) ∧ (a.recv.getD []).length = 0)
    ⟨fun h => ⟨h.1, h.2⟩, fun h => ⟨h.apart, h.none⟩⟩

instance (s : St) : (a : Input) → Decidable (Drains s a)
  | .main a => inferInstanceAs (Decidable (∀ r, r ∈ s.ctl.next? → has r.events epollIn →
      (s.entries r.fd = some true ∨ s.queued r.fd ≤ taken s r a ∨
        Breaks s r a ∧ a.recv = none ∧ a.errno ≠ eagain) ∧
      (Breaks s r a → ∀ fd ∈ readableFds s.ctl.ahead.tail, 0 < s.queued fd →
        s.entries fd = some true)))
  | .connects | .sends _ | .arrives _ _ | .finishes _ | .wait _ | .waitFailed => isTrue trivial

instance (s : St) (a : Input) : Decidable ((machine.guard Drains).Lawful s a) :=
  inferInstanceAs (Decidable (Lawful s a ∧ Drains s a))

structure Noticed (s : St) : Prop where
  covered : Covered s.Waiting s.Pending (readableFds s.ctl.ahead)
  lower : 0 ≤ s.listenfd ∧ 0 ≤ s.udpfd
  adding : ∀ connfd rest, s.ctl = .adding connfd rest → connfd ≠ s.listenfd ∧ connfd ≠ s.udpfd

section Steps

variable {s t : St} {fd : Fd} {r : Report} {rest : List Report} {a : Answers}

theorem raise_pending (registered : ((s.raise fd).entries fd).isSome) :
    (s.raise fd).Pending fd := by
  simp only [St.raise, Function.update_self, Option.isSome_map] at registered
  obtain ⟨edge, entry⟩ := Option.isSome_iff_exists.mp registered
  simp [St.Pending, St.raise, entry]

theorem raise_of_ne {x : Fd} (other : x ≠ fd) : (s.raise fd).entries x = s.entries x := by
  simp [St.raise, other]

/-- An arrival, with its edge. -/
theorem Noticed.arrives (noticed : Noticed s) (ctl : t.ctl = s.ctl)
    (listenfd : t.listenfd = s.listenfd) (udpfd : t.udpfd = s.udpfd)
    (entries : t.entries = s.entries)
    (queued : ∀ x, x ≠ fd → t.queued x = s.queued x) : Noticed (t.raise fd) where
  covered := by
    show Covered _ _ (readableFds t.ctl.ahead)
    rw [ctl]
    apply noticed.covered.arrives
    · intro x waiting
      by_cases same : x = fd
      · subst same
        exact .inr (raise_pending waiting.registered)
      · have same' := waiting.registered
        rw [raise_of_ne same, entries] at same'
        have left : 0 < t.queued x := waiting.queued
        rw [queued x same] at left
        exact .inl ⟨same', left⟩
    · intro x pending
      by_cases same : x = fd
      · subst same
        apply raise_pending
        simp [St.raise, entries, show s.entries x = some true from pending]
      · show (t.raise fd).entries x = some true
        rw [raise_of_ne same, entries]
        exact pending
  lower := by
    show 0 ≤ t.listenfd ∧ 0 ≤ t.udpfd
    rw [listenfd, udpfd]
    exact noticed.lower
  adding := by
    show ∀ connfd rest, t.ctl = _ → connfd ≠ t.listenfd ∧ connfd ≠ t.udpfd
    rw [ctl, listenfd, udpfd]
    exact noticed.adding

theorem Control.Calling.ahead {ctl : Control} (calling : ctl.Calling) : ctl.ahead = [] := by
  cases ctl with
  | events rest =>
    cases rest with
    | nil => rfl
    | cons r rest => exact calling.elim
  | adding connfd rest => exact calling.elim
  | left => exact calling.elim

/-- The edges of the descriptors reported are used up. -/
theorem Noticed.wait (noticed : Noticed s) {batch : List Report} (calling : s.ctl.Calling)
    (due : ∀ r ∈ batch, Due s r) (run : step s (.wait batch) = some t) : Noticed t := by
  obtain rfl := Option.some.inj run
  refine ⟨?_, noticed.lower, fun connfd rest other => absurd other (by simp)⟩
  have covered := noticed.covered
  rw [calling.ahead] at covered
  apply Covered.reported covered
  · intro x waiting
    refine ⟨?_, waiting.queued⟩
    have registered := waiting.registered
    simp only at registered
    split_ifs at registered
    · simpa using registered
    · exact registered
  · intro x waiting pending
    by_cases mem : x ∈ batch.map Report.fd
    · obtain ⟨r, hr, rfl⟩ := List.mem_map.mp mem
      exact .inr (mem_keysOf.mpr ⟨r, hr, (due r hr).readable waiting.queued, rfl⟩)
    · left
      show (if x ∈ batch.map Report.fd then _ else s.entries x) = some true
      rw [if_neg mem]
      exact pending

/-- A handler that goes on to the next event: it registers nothing and takes from its queue. -/
structure Takes (s t : St) (r : Report) (rest : List Report) (a : Answers) : Prop where
  ahead : t.ctl.ahead = rest
  entries : t.entries = s.entries
  fewer : ∀ fd, t.queued fd ≤ s.queued fd
  rest : t.queued r.fd + taken s r a = s.queued r.fd

theorem Takes.covered (takes : Takes s t r rest a)
    (covered : Covered s.Waiting s.Pending (readableFds (r :: rest)))
    (drains : has r.events epollIn → s.entries r.fd = some true ∨ s.queued r.fd ≤ taken s r a) :
    Covered t.Waiting t.Pending (readableFds t.ctl.ahead) := by
  have waits : ∀ fd, t.Waiting fd → s.Waiting fd := by
    intro fd waiting
    have registered := waiting.registered
    rw [takes.entries] at registered
    exact ⟨registered, Nat.lt_of_lt_of_le waiting.queued (takes.fewer fd)⟩
  have pending : ∀ fd, s.Pending fd → t.Pending fd := by
    intro fd noticed
    rw [St.Pending, takes.entries]
    exact noticed
  rw [takes.ahead]
  by_cases readable : has r.events epollIn
  · apply covered.handled keysOf_cons
    · intro waiting
      rcases drains readable with newer | all
      · exact pending r.fd newer
      · have left := waiting.queued
        have balance := takes.rest
        omega
    · exact fun fd _ => ⟨waits fd, pending fd⟩
  · rw [readableFds, keysOf_skip (show ¬ r.Readable from readable)] at covered
    exact covered.arrives (fun fd waiting => .inl (waits fd waiting)) pending

theorem acceptBranch_takes (listening : r.fd = s.listenfd)
    (answered : a.connfd = -1 ∨ Fresh s a.connfd) :
    Takes s (acceptBranch s rest a) r rest a := by
  unfold acceptBranch
  split_ifs with accepted
  · obtain failed | ⟨-, -, -, -, queued⟩ := answered
    · rw [failed] at accepted
      exact absurd accepted (by decide)
    · refine ⟨rfl, rfl, fun fd => ?_, ?_⟩
      · simp only [St.queued]
        split_ifs with first second
        · exact Nat.sub_le _ _
        · exact Nat.le_refl _
        · by_cases same : fd = a.connfd
          · subst same
            simp [Channel.empty, Channel.unread]
          · rw [Function.update_of_ne same]
      · simp only [St.queued, taken, if_pos listening, if_pos accepted]
        omega
  · refine ⟨rfl, rfl, fun fd => Nat.le_refl _, ?_⟩
    simp only [taken, if_pos listening, if_neg accepted, Nat.add_zero]
    rfl

theorem udpBranch_takes (apart : r.fd ≠ s.listenfd) (udp : r.fd = s.udpfd)
    (run : udpBranch s rest a = some t) : Takes s t r rest a := by
  unfold udpBranch at run
  cases answer : a.recv with
  | none =>
    simp only [answer, Option.some.injEq] at run
    subst run
    refine ⟨rfl, rfl, fun fd => Nat.le_refl _, ?_⟩
    simp only [taken, if_neg apart, if_pos udp, answer, Option.isSome_none, Bool.false_eq_true,
      if_false, Nat.add_zero]
    rfl
  | some bytes =>
    cases queue : s.datagrams with
    | nil => simp [answer, queue] at run
    | cons d later =>
      simp only [answer, queue, Option.some.injEq] at run
      subst run
      refine ⟨rfl, rfl, fun fd => ?_, ?_⟩
      · simp only [St.queued, queue, List.length_cons]
        split_ifs
        · exact Nat.le_refl _
        · exact Nat.le_succ _
        · exact Nat.le_refl _
      · simp only [St.queued, taken, if_neg apart, if_pos udp, answer, Option.isSome_some, if_true,
          queue, List.length_cons]

/-- `recv` on a connection returns bytes. -/
theorem tcpBranch_takes (apart : r.fd ≠ s.listenfd) (unbound : r.fd ≠ s.udpfd) {bytes : List Byte}
    (answer : a.recv = some bytes) (nonempty : bytes.length ≠ 0)
    (yields : ∃ x ∈ s.sockets r.fd, x.stream.Yields bytes)
    (run : tcpBranch s r.fd rest a = some t) : Takes s t r rest a := by
  obtain ⟨x, opened, yields⟩ := yields
  have socket : s.sockets r.fd = some x := opened
  have bound : bytes.length ≤ x.stream.unread.length := yields.1.length_le
  have after : ∀ fd, (s.change r.fd (·.consume bytes.length)).queued fd =
      if fd = r.fd then x.stream.unread.length - bytes.length else s.queued fd := by
    intro fd
    by_cases same : fd = r.fd
    · subst same
      simp [St.queued, St.change, apart, unbound, socket, Channel.unread_consume]
    · simp [St.queued, St.change, same]
  have before : s.queued r.fd = x.stream.unread.length := by
    simp [St.queued, apart, unbound, socket]
  simp only [tcpBranch, answer, if_neg nonempty, socket, Option.map_some, Option.some.injEq] at run
  subst run
  refine ⟨rfl, rfl, fun fd => ?_, ?_⟩
  · show (s.change r.fd (·.consume bytes.length)).queued fd ≤ s.queued fd
    rw [after]
    split_ifs with same
    · subst same
      omega
    · exact Nat.le_refl _
  · show (s.change r.fd (·.consume bytes.length)).queued r.fd + taken s r a = s.queued r.fd
    rw [after, if_pos rfl, before]
    simp only [taken, if_neg apart, if_neg unbound, answer, Option.getD_some]
    omega

/-- `giveUp` closes the connection or, for `EAGAIN`, leaves everything as it is. -/
theorem giveUp_covered (covered : Covered s.Waiting s.Pending (readableFds (r :: rest)))
    (done : s.errno = eagain → s.Waiting r.fd → s.Pending r.fd)
    (spared : ∀ fd ∈ readableFds rest, 0 < s.queued fd → s.entries fd = some true) :
    Covered (giveUp s r.fd).Waiting (giveUp s r.fd).Pending (readableFds (giveUp s r.fd).ctl.ahead)
      := by
  unfold giveUp
  split_ifs with again
  · have left : Covered s.Waiting s.Pending (readableFds rest) :=
      covered.handled keysOf_cons (done again) fun fd _ => ⟨id, id⟩
    have none : Covered s.Waiting s.Pending [] :=
      left.dropped fun fd mem waiting => spared fd mem waiting.queued
    exact none.arrives (fun fd waiting => .inl ⟨waiting.registered, waiting.queued⟩) fun fd => id
  · have gone : ∀ fd, (s.close r.fd).Waiting fd → fd ≠ r.fd := by
      rintro fd waiting rfl
      have registered := waiting.registered
      simp [St.close] at registered
    have kept : ∀ fd, fd ≠ r.fd →
        ((s.close r.fd).Waiting fd → s.Waiting fd) ∧
          (s.Pending fd → (s.close r.fd).Pending fd) := by
      intro fd other
      constructor
      · intro waiting
        refine ⟨by simpa [St.close, other] using waiting.registered, ?_⟩
        have queued := waiting.queued
        simpa only [St.queued, St.close, Function.update_of_ne other] using queued
      · intro pending
        simpa [St.Pending, St.close, other] using pending
    have left : Covered (s.close r.fd).Waiting (s.close r.fd).Pending (readableFds rest) :=
      covered.handled keysOf_cons (fun waiting => absurd rfl (gone _ waiting)) kept
    have none : Covered (s.close r.fd).Waiting (s.close r.fd).Pending [] := by
      apply left.dropped
      intro fd mem waiting
      have other := gone fd waiting
      exact (kept fd other).2 (spared fd mem ((kept fd other).1 waiting).queued)
    exact none.arrives (fun fd waiting => .inl ⟨waiting.registered, waiting.queued⟩) fun fd => id

theorem giveUp_frame (s : St) (fd : Fd) : (giveUp s fd).listenfd = s.listenfd ∧
    (giveUp s fd).udpfd = s.udpfd ∧ (giveUp s fd).ctl = .events [] := by
  unfold giveUp
  split_ifs <;> exact ⟨rfl, rfl, rfl⟩

theorem tcpBranch_covered (covered : Covered s.Waiting s.Pending (readableFds (r :: rest)))
    (apart : r.fd ≠ s.listenfd) (unbound : r.fd ≠ s.udpfd)
    (answered : ∀ bytes ∈ a.recv, ∃ x ∈ s.sockets r.fd, x.stream.Yields bytes)
    (drains : s.entries r.fd = some true ∨ s.queued r.fd ≤ taken s r a ∨
      Breaks s r a ∧ a.recv = none ∧ a.errno ≠ eagain)
    (spared : Breaks s r a → ∀ fd ∈ readableFds rest, 0 < s.queued fd → s.entries fd = some true)
    (run : tcpBranch s r.fd rest a = some t) :
    Covered t.Waiting t.Pending (readableFds t.ctl.ahead) := by
  have size : taken s r a = (a.recv.getD []).length := by
    simp only [taken, if_neg apart, if_neg unbound]
  have newer : (a.recv.getD []).length = 0 → ¬ (a.recv = none ∧ a.errno ≠ eagain) →
      s.Waiting r.fd → s.Pending r.fd := by
    intro empty other waiting
    rcases drains with pending | all | ⟨-, closes⟩
    · exact pending
    · have queued := waiting.queued
      omega
    · exact absurd closes other
  cases answer : a.recv with
  | none =>
    have empty : (a.recv.getD []).length = 0 := by simp [answer]
    simp only [tcpBranch, answer, Option.some.injEq] at run
    subst run
    have failed : Covered { s with errno := a.errno }.Waiting { s with errno := a.errno }.Pending
        (readableFds (r :: rest)) :=
      covered.arrives (fun fd waiting => .inl ⟨waiting.registered, waiting.queued⟩) fun fd => id
    apply giveUp_covered failed
    · intro again waiting
      exact newer empty (fun h => h.2 again) ⟨waiting.registered, waiting.queued⟩
    · exact spared ⟨⟨apart, unbound⟩, empty⟩
  | some bytes =>
    by_cases ended : bytes.length = 0
    · have empty : (a.recv.getD []).length = 0 := by simp [answer, ended]
      simp only [tcpBranch, answer, if_pos ended, Option.some.injEq] at run
      subst run
      apply giveUp_covered covered
      · intro _ waiting
        exact newer empty (fun h => by simp [answer] at h) waiting
      · exact spared ⟨⟨apart, unbound⟩, empty⟩
    · have takes := tcpBranch_takes apart unbound answer ended (answered bytes answer) run
      apply takes.covered covered
      intro _
      rcases drains with pending | all | ⟨-, none, -⟩
      · exact .inl pending
      · exact .inr all
      · rw [answer] at none
        cases none

theorem Noticed.body (noticed : Noticed s) (ctl : s.ctl = .events (r :: rest))
    (answered : Answered s r a) (drains : Drains s (.main a)) (run : body s r rest a = some t) :
    Covered t.Waiting t.Pending (readableFds t.ctl.ahead) := by
  have covered : Covered s.Waiting s.Pending (readableFds (r :: rest)) := by
    have before := noticed.covered
    rw [ctl] at before
    exact before
  have met := drains r (by rw [ctl]; rfl)
  have tail : s.ctl.ahead.tail = rest := by rw [ctl]; rfl
  rw [tail] at met
  -- the listening socket and the datagram socket never leave the loop
  have empties : (r.fd = s.listenfd ∨ r.fd = s.udpfd) → has r.events epollIn →
      s.entries r.fd = some true ∨ s.queued r.fd ≤ taken s r a := by
    intro own readable
    rcases (met readable).1 with pending | all | ⟨breaks, -⟩
    · exact .inl pending
    · exact .inr all
    · rcases own with listening | udp
      · exact absurd listening breaks.apart.1
      · exact absurd udp breaks.apart.2
  unfold TcpUdp.body at run
  unfold Answered at answered
  split_ifs at run answered with listening udp readable
  · obtain rfl := Option.some.inj run
    exact (acceptBranch_takes listening answered).covered covered (empties (.inl listening))
  · exact (udpBranch_takes listening udp run).covered covered (empties (.inr udp))
  · exact tcpBranch_covered covered listening udp (fun bytes got => (answered bytes got).2)
      (met readable).1 (met readable).2 run
  · obtain rfl := Option.some.inj run
    rw [readableFds, keysOf_skip (show ¬ r.Readable from readable)] at covered
    exact covered.arrives (fun fd waiting => .inl ⟨waiting.registered, waiting.queued⟩) fun fd => id

/-- What a step of the loop does to the two sockets and where it goes. -/
theorem body_frame (answered : Answered s r a) (lower : 0 ≤ s.listenfd ∧ 0 ≤ s.udpfd)
    (run : body s r rest a = some t) :
    t.listenfd = s.listenfd ∧ t.udpfd = s.udpfd ∧
      ∀ connfd later, t.ctl = .adding connfd later → connfd ≠ s.listenfd ∧ connfd ≠ s.udpfd := by
  have elsewhere : ∀ later : List Report, ∀ connfd later',
      Control.events later = .adding connfd later' →
      connfd ≠ s.listenfd ∧ connfd ≠ s.udpfd := by
    intro later connfd later' other
    cases other
  have quits : ∀ u fd, u.listenfd = s.listenfd → u.udpfd = s.udpfd →
      (giveUp u fd).listenfd = s.listenfd ∧ (giveUp u fd).udpfd = s.udpfd ∧
      ∀ connfd later, (giveUp u fd).ctl = .adding connfd later →
        connfd ≠ s.listenfd ∧ connfd ≠ s.udpfd := by
    intro u fd listenfd udpfd
    obtain ⟨first, second, third⟩ := giveUp_frame u fd
    rw [first, second, third]
    exact ⟨listenfd, udpfd, elsewhere []⟩
  unfold TcpUdp.body at run
  split_ifs at run with listening udp readable
  · obtain rfl := Option.some.inj run
    rw [Answered, if_pos listening] at answered
    unfold acceptBranch
    split_ifs with accepted
    · refine ⟨rfl, rfl, fun connfd later same => ?_⟩
      obtain ⟨rfl, -⟩ := Control.adding.inj same
      rcases answered with failed | fresh
      · rw [failed] at accepted
        exact absurd accepted (by decide)
      · exact ⟨fresh.2.1, fresh.2.2.1⟩
    · refine ⟨rfl, rfl, fun connfd later same => ?_⟩
      obtain ⟨rfl, -⟩ := Control.adding.inj same
      constructor
      · rintro own
        exact accepted (own ▸ lower.1)
      · rintro own
        exact accepted (own ▸ lower.2)
  · unfold udpBranch at run
    split at run
    · obtain rfl := Option.some.inj run
      exact ⟨rfl, rfl, elsewhere rest⟩
    · split at run
      · cases run
      · obtain rfl := Option.some.inj run
        exact ⟨rfl, rfl, elsewhere rest⟩
  · unfold tcpBranch at run
    split at run
    · obtain rfl := Option.some.inj run
      exact quits _ _ rfl rfl
    · split_ifs at run with ended
      · obtain rfl := Option.some.inj run
        exact quits _ _ rfl rfl
      · obtain ⟨x, -, rfl⟩ := Option.map_eq_some_iff.mp run
        exact ⟨rfl, rfl, elsewhere rest⟩
  · obtain rfl := Option.some.inj run
    exact ⟨rfl, rfl, elsewhere rest⟩

/-- `addfd` raises an edge when there is input already. -/
theorem Noticed.add (noticed : Noticed s) {connfd : Fd} (ctl : s.ctl = .adding connfd rest) :
    Noticed { s.addfd connfd with ctl := .events rest } := by
  obtain ⟨unlisted, unbound⟩ := noticed.adding connfd rest ctl
  have covered : Covered s.Waiting s.Pending (readableFds rest) := by
    have before := noticed.covered
    rw [ctl] at before
    exact before
  have plain : Covered s.Waiting s.Pending (readableFds rest) →
      ∀ errno, Noticed { s with errno, ctl := .events rest } := by
    intro same errno
    exact ⟨same.arrives (fun fd waiting => .inl ⟨waiting.registered, waiting.queued⟩) fun fd => id,
      noticed.lower, fun _ _ other => absurd other (by simp)⟩
  unfold St.addfd
  split_ifs with closed registered
  · exact plain covered ebadf
  · exact plain covered eexist
  · refine ⟨?_, noticed.lower, fun _ _ other => absurd other (by simp)⟩
    apply covered.arrives
    · intro fd waiting
      by_cases same : fd = connfd
      · subst same
        right
        have queued : 0 < s.queued fd := waiting.queued
        simp only [St.queued, if_neg unlisted, if_neg unbound] at queued
        obtain ⟨x, socket⟩ := Option.ne_none_iff_exists'.mp closed
        have unread : x.stream.unread ≠ [] := by
          intro none
          simp [socket, none] at queued
        simp [St.Pending, St.readable, socket, unread]
      · left
        exact ⟨by simpa [same] using waiting.registered, waiting.queued⟩
    · intro fd pending
      have other : fd ≠ connfd := by
        rintro rfl
        rw [show s.entries fd = some true from pending] at registered
        exact registered rfl
      simpa [St.Pending, other] using pending

theorem Noticed.main (noticed : Noticed s) (answered : ∀ r ∈ s.ctl.next?, Answered s r a)
    (drains : Drains s (.main a)) (run : mainStep s a = some t) : Noticed t := by
  unfold mainStep at run
  split at run
  · rename_i r rest ctl
    have next := answered r (by rw [ctl]; rfl)
    obtain ⟨listenfd, udpfd, adding⟩ := body_frame next noticed.lower run
    refine ⟨noticed.body ctl next drains run, ?_, ?_⟩
    · rw [listenfd, udpfd]
      exact noticed.lower
    · rw [listenfd, udpfd]
      exact adding
  · rename_i connfd rest ctl
    obtain rfl := Option.some.inj run
    exact noticed.add ctl
  · cases run
  · cases run

end Steps

theorem reachable_noticed {s : St} (h : (machine.guard Drains).Reachable s) : Noticed s := by
  apply h.invariant
  · rintro s ⟨listenfd, udpfd, first, second, -, rfl⟩
    refine ⟨fun fd waiting => ?_, ⟨first, second⟩, fun _ _ other => absurd other (by simp [boot])⟩
    have none : (boot listenfd udpfd).queued fd = 0 := by
      unfold St.queued
      split_ifs <;> rfl
    have queued := waiting.queued
    omega
  · intro s a t _ noticed lawful run
    obtain ⟨promised, drains⟩ := lawful
    cases a with
    | connects =>
      obtain rfl := Option.some.inj run
      exact noticed.arrives rfl rfl rfl rfl fun x other => by simp [St.queued, other]
    | sends d =>
      obtain rfl := Option.some.inj run
      exact noticed.arrives rfl rfl rfl rfl fun x other => by simp [St.queued, other]
    | arrives fd bytes =>
      obtain rfl := Option.some.inj run
      exact noticed.arrives rfl rfl rfl rfl fun x other => by simp [St.queued, St.change, other]
    | finishes fd =>
      obtain rfl := Option.some.inj run
      exact noticed.arrives rfl rfl rfl rfl fun x other => by simp [St.queued, St.change, other]
    | wait batch => exact noticed.wait promised.1 promised.2.2 run
    | waitFailed =>
      obtain rfl := Option.some.inj run
      have calling : s.ctl.Calling := promised
      have covered := noticed.covered
      rw [calling.ahead] at covered
      refine ⟨?_, noticed.lower, fun _ _ other => absurd other (by simp)⟩
      exact covered.arrives (fun fd waiting => .inl ⟨waiting.registered, waiting.queued⟩)
        fun _ => id
    | main a => exact noticed.main promised drains run

/-- When every handler takes all that is queued, a registered descriptor with something queued
has its edge pending whenever the loop calls `epoll_wait`. -/
theorem queued_noticed {s : St} (h : (machine.guard Drains).Reachable s) (calling : s.ctl.Calling)
    {fd : Fd} (registered : (s.entries fd).isSome) (queued : 0 < s.queued fd) :
    s.entries fd = some true := by
  have covered := (reachable_noticed h).covered
  rw [calling.ahead] at covered
  exact covered.settled ⟨registered, queued⟩

end JiajiaNetwork.TcpUdp
