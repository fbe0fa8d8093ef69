/- Edges in the loop of `test_epoll.c`. One `accept` for an edge of the listening socket leaves
   the other connections that came with it; a connection that `et` drains leaves nothing. -/
import JiajiaNetwork.Lib.Edge
import JiajiaNetwork.TestEpoll.Server

set_option autoImplicit false
set_option relaxedAutoImplicit false

namespace JiajiaNetwork.TestEpoll

open Lib

/-- The number of connections or bytes to be taken from a descriptor. -/
def St.queued (s : St) (fd : Fd) : Nat :=
  if fd = s.listenfd then s.backlog.length
  else (s.sockets fd).elim 0 fun x => (s.streams x.connection).unread.length

def St.Pending (s : St) (fd : Fd) : Prop := ∃ e ∈ s.entries fd, e.edge = true

/-- An edge-triggered descriptor with something queued. -/
structure St.Waiting (s : St) (fd : Fd) : Prop where
  edgeTriggered : ∃ e ∈ s.entries fd, e.enableEt = true
  queued : 0 < s.queued fd

def Report.Readable (r : Report) : Prop := has r.events epollIn

instance (r : Report) : Decidable r.Readable := inferInstanceAs (Decidable (has _ _))

/-- The descriptors reported as readable that are still to be handled. -/
abbrev readableFds (reports : List Report) : List Fd :=
  keysOf Report.fd Report.Readable reports

/-- Those and the one that is being drained. -/
def Control.busy : Control → List Fd
  | .events rest | .adding _ rest => readableFds rest
  | .draining sockfd rest => sockfd :: readableFds rest
  | .left => []

/-- The connection that the loop is at. -/
def Control.target? : Control → Option Fd
  | .adding fd _ | .draining fd _ => some fd
  | .events _ | .left => none

/-- An `accept` takes all the connections that wait, unless there is a newer edge. -/
def TakesAll (s : St) : Input → Prop
  | .main a => ∀ r ∈ s.ctl.next?, r.fd = s.listenfd → s.Pending s.listenfd ∨
      s.backlog.length ≤ if 0 ≤ a.connfd then 1 else 0
  | _ => True

instance (s : St) (fd : Fd) : Decidable (s.Pending fd) :=
  inferInstanceAs (Decidable (∃ e, e ∈ s.entries fd ∧ _))

instance (s : St) : (a : Input) → Decidable (TakesAll s a)
  | .main _ => inferInstanceAs (Decidable (∀ r, r ∈ s.ctl.next? → _ → _ ∨ _))
  | .connects | .arrives _ _ | .finishes _ | .wait _ | .waitFailed => isTrue trivial

instance (v : Handler) (s : St) (a : Input) : Decidable (((machine v).guard TakesAll).Lawful s a) :=
  inferInstanceAs (Decidable (Lawful s a ∧ TakesAll s a))

structure Noticed (v : Handler) (s : St) : Prop where
  covered : Covered s.Waiting s.Pending s.ctl.busy
  lower : 0 ≤ s.listenfd
  target : ∀ fd ∈ s.ctl.target?, fd ≠ s.listenfd
  bound : ∀ fd, fd ≠ s.listenfd → (s.entries fd).isSome → (s.sockets fd).isSome
  level : ∀ fd, ∀ e ∈ s.entries fd, e.enableEt = true → v = .et ∨ fd = s.listenfd

section Steps

variable {v : Handler} {s t : St} {fd : Fd} {r : Report} {rest : List Report} {a : Answers}

/-- Where there is nothing to be read nothing is queued, and conversely where bytes are. -/
theorem readable_of_queued (queued : 0 < s.queued fd) : s.readable fd = true := by
  unfold St.queued at queued
  unfold St.readable
  split_ifs at queued ⊢ with listening
  · have some : s.backlog ≠ [] := List.ne_nil_of_length_pos queued
    exact decide_eq_true some
  · cases socket : s.sockets fd with
    | none => simp [socket] at queued
    | some x =>
      have unread : (s.streams x.connection).unread ≠ [] := by
        apply List.ne_nil_of_length_pos
        simpa [socket] using queued
      simp [unread]

theorem mem_raised {entry : Option Entry} {e : Entry} (h : e ∈ raised entry) :
    ∃ old ∈ entry, e.enableEt = old.enableEt ∧ e.edge = true := by
  obtain ⟨old, mem, rfl⟩ := Option.mem_map.mp h
  exact ⟨old, mem, rfl, rfl⟩

/-- An arrival at some descriptors, each with its edge. -/
theorem Noticed.arrives (noticed : Noticed v s) (hit : Fd → Prop) [DecidablePred hit]
    (ctl : t.ctl = s.ctl) (listenfd : t.listenfd = s.listenfd) (sockets : t.sockets = s.sockets)
    (entries : ∀ x, t.entries x = if hit x then raised (s.entries x) else s.entries x)
    (queued : ∀ x, ¬ hit x → t.queued x = s.queued x) : Noticed v t := by
  have raisedEntry : ∀ {x e}, e ∈ t.entries x → hit x → e.edge = true := by
    intro x e mem struck
    rw [entries, if_pos struck] at mem
    obtain ⟨-, -, -, edge⟩ := mem_raised mem
    exact edge
  have old : ∀ {x e}, e ∈ t.entries x → ∃ e' ∈ s.entries x, e.enableEt = e'.enableEt := by
    intro x e mem
    rw [entries] at mem
    split_ifs at mem with struck
    · obtain ⟨e', mem', same, -⟩ := mem_raised mem
      exact ⟨e', mem', same⟩
    · exact ⟨e, mem, rfl⟩
  constructor
  case covered =>
    rw [ctl]
    apply noticed.covered.arrives
    · intro x waiting
      obtain ⟨e, mem, triggered⟩ := waiting.edgeTriggered
      by_cases struck : hit x
      · exact .inr ⟨e, mem, raisedEntry mem struck⟩
      · obtain ⟨e', mem', same⟩ := old mem
        have left := waiting.queued
        rw [queued x struck] at left
        exact .inl ⟨⟨e', mem', same ▸ triggered⟩, left⟩
    · rintro x ⟨e, mem, edge⟩
      rw [St.Pending, entries]
      by_cases struck : hit x
      · rw [if_pos struck]
        exact ⟨{ e with edge := true }, Option.mem_map.mpr ⟨e, mem, rfl⟩, rfl⟩
      · rw [if_neg struck]
        exact ⟨e, mem, edge⟩
  case lower => exact listenfd ▸ noticed.lower
  case target =>
    rw [ctl, listenfd]
    exact noticed.target
  case bound =>
    intro x other registered
    rw [sockets]
    rw [listenfd] at other
    apply noticed.bound x other
    obtain ⟨e, mem⟩ := Option.isSome_iff_exists.mp registered
    obtain ⟨e', mem', -⟩ := old mem
    exact Option.isSome_iff_exists.mpr ⟨e', mem'⟩
  case level =>
    intro x e mem triggered
    obtain ⟨e', mem', same⟩ := old mem
    rw [listenfd]
    exact noticed.level x e' mem' (same ▸ triggered)

/-- A change at the far end of a connection. -/
theorem Noticed.change (noticed : Noticed v s) (connection : Nat)
    (f : Channel Byte → Channel Byte) : Noticed v (s.change connection f) := by
  refine noticed.arrives
    (fun x => ((s.sockets x).any fun y => decide (y.connection = connection)) = true)
    rfl rfl rfl (fun x => rfl) ?_
  intro x missed
  by_cases listening : x = s.listenfd
  · simp [St.queued, St.change, listening]
  · cases socket : s.sockets x with
    | none => simp [St.queued, St.change, listening, socket]
    | some y =>
      have other : y.connection ≠ connection := by simpa [socket] using missed
      simp [St.queued, St.change, listening, socket, other]

theorem Control.Calling.busy {ctl : Control} (calling : ctl.Calling) : ctl.busy = [] := by
  cases ctl with
  | events rest =>
    cases rest with
    | nil => rfl
    | cons r rest => exact calling.elim
  | adding connfd rest => exact calling.elim
  | draining sockfd rest => exact calling.elim
  | left => exact calling.elim

theorem mem_reported {entry : Option Entry} {e : Entry} (h : e ∈ reported entry) :
    ∃ old ∈ entry, e.enableEt = old.enableEt := by
  obtain ⟨old, mem, rfl⟩ := Option.mem_map.mp h
  exact ⟨old, mem, rfl⟩

/-- The edges of the descriptors that are returned are used up. -/
theorem Noticed.wait (noticed : Noticed v s) {batch : List Report} (calling : s.ctl.Calling)
    (truthful : ∀ r ∈ batch, has r.events epollIn ↔ s.readable r.fd = true)
    (run : step v s (.wait batch) = some t) : Noticed v t := by
  obtain rfl := Option.some.inj run
  have old : ∀ {x e},
      e ∈ (if x ∈ batch.map Report.fd then reported (s.entries x) else s.entries x) →
      ∃ e' ∈ s.entries x, e.enableEt = e'.enableEt := by
    intro x e mem
    split_ifs at mem with hit
    · exact mem_reported mem
    · exact ⟨e, mem, rfl⟩
  have covered := noticed.covered
  rw [calling.busy] at covered
  constructor
  case covered =>
    apply Covered.reported covered
    · intro x waiting
      obtain ⟨e, mem, triggered⟩ := waiting.edgeTriggered
      obtain ⟨e', mem', same⟩ := old mem
      exact ⟨⟨e', mem', same ▸ triggered⟩, waiting.queued⟩
    · intro x waiting pending
      by_cases hit : x ∈ batch.map Report.fd
      · obtain ⟨r, hr, rfl⟩ := List.mem_map.mp hit
        have readable := (truthful r hr).mpr (readable_of_queued waiting.queued)
        exact .inr (mem_keysOf.mpr ⟨r, hr, readable, rfl⟩)
      · left
        show ∃ e ∈ (if x ∈ batch.map Report.fd then _ else s.entries x), e.edge = true
        rw [if_neg hit]
        exact pending
  case lower => exact noticed.lower
  case target => exact fun _ none => absurd none (by simp [Control.target?])
  case bound =>
    intro x other registered
    obtain ⟨e, mem⟩ := Option.isSome_iff_exists.mp registered
    obtain ⟨e', mem', -⟩ := old mem
    exact noticed.bound x other (Option.isSome_iff_exists.mpr ⟨e', mem'⟩)
  case level =>
    intro x e mem triggered
    obtain ⟨e', mem', same⟩ := old mem
    exact noticed.level x e' mem' (same ▸ triggered)

/-- A step that registers nothing, takes nothing new in, and keeps the sockets. -/
theorem Noticed.takes (noticed : Noticed v s) (listenfd : t.listenfd = s.listenfd)
    (entries : t.entries = s.entries)
    (sockets : ∀ x, (s.sockets x).isSome → (t.sockets x).isSome)
    (target : ∀ x ∈ t.ctl.target?, x ≠ s.listenfd)
    (covered : (∀ x, s.Pending x → t.Pending x) → Covered t.Waiting t.Pending t.ctl.busy) :
    Noticed v t where
  covered := by
    apply covered
    intro x pending
    rw [St.Pending, entries]
    exact pending
  lower := listenfd ▸ noticed.lower
  target := by
    rw [listenfd]
    exact target
  bound x other registered := by
    rw [listenfd] at other
    rw [entries] at registered
    exact sockets x (noticed.bound x other registered)
  level := by
    rw [listenfd, entries]
    exact noticed.level

/-- An edge-triggered descriptor waits no more than before where less is queued. -/
theorem waiting_of_le {x : Fd} (waiting : t.Waiting x) (entries : t.entries = s.entries)
    (fewer : t.queued x ≤ s.queued x) : s.Waiting x := by
  have triggered := waiting.edgeTriggered
  rw [entries] at triggered
  exact ⟨triggered, Nat.lt_of_lt_of_le waiting.queued fewer⟩

/-- `accept` takes the first connection that waits, or fails. -/
theorem acceptBranch_cases (answered : a.connfd = -1 ∨ Fresh s a.connfd)
    (run : acceptBranch s rest a = some t) :
    (Fresh s a.connfd ∧ ∃ c later, s.backlog = c :: later ∧ t = { s with
      ctl := .adding a.connfd rest
      backlog := later
      sockets := Function.update s.sockets a.connfd (some ⟨c, false⟩) }) ∨
    (a.connfd = -1 ∧ t = { s with ctl := .adding a.connfd rest }) := by
  unfold acceptBranch at run
  rcases answered with failed | fresh
  · have negative : ¬ 0 ≤ a.connfd := by
      rw [failed]
      decide
    rw [if_neg negative] at run
    exact .inr ⟨failed, (Option.some.inj run).symm⟩
  · rw [if_pos fresh.1] at run
    cases queue : s.backlog with
    | nil => exact absurd queue fresh.2.2.2
    | cons c later =>
      simp only [queue, Option.some.injEq] at run
      exact .inl ⟨fresh, c, later, rfl, run.symm⟩

theorem Noticed.unregistered (noticed : Noticed v s) (unlisted : fd ≠ s.listenfd)
    (closed : s.sockets fd = none) : s.entries fd = none := by
  cases entry : s.entries fd with
  | none => rfl
  | some e =>
    have opened := noticed.bound fd unlisted (by simp [entry])
    simp [closed] at opened

theorem Noticed.accept (noticed : Noticed v s) (ctl : s.ctl = .events (r :: rest))
    (listening : r.fd = s.listenfd) (answered : a.connfd = -1 ∨ Fresh s a.connfd)
    (takesAll : TakesAll s (.main a)) (run : acceptBranch s rest a = some t) : Noticed v t := by
  have before : Covered s.Waiting s.Pending (readableFds (r :: rest)) := by
    have covered := noticed.covered
    rw [ctl] at covered
    exact covered
  have all := takesAll r (by rw [ctl]; rfl) listening
  rcases acceptBranch_cases answered run with
    ⟨⟨accepted, unlisted, closed, -⟩, c, later, queue, rfl⟩ | ⟨failed, rfl⟩
  · rw [if_pos accepted, queue, List.length_cons] at all
    refine noticed.takes rfl rfl ?_ ?_ ?_
    · intro x opened
      by_cases same : x = a.connfd
      · subst same
        simp
      · simpa [same] using opened
    · intro connfd same
      exact Option.some.inj same ▸ unlisted
    · intro pending
      apply before.handled keysOf_cons
      · intro waiting
        apply pending
        rw [listening]
        rcases all with newer | one
        · exact newer
        · have left := waiting.queued
          simp only [St.queued, if_pos listening] at left
          omega
      · intro x other
        rw [listening] at other
        refine ⟨fun waiting => waiting_of_le waiting rfl ?_, pending x⟩
        by_cases same : x = a.connfd
        · subst same
          have triggered : ∃ e ∈ s.entries a.connfd, e.enableEt = true := waiting.edgeTriggered
          rw [noticed.unregistered unlisted closed] at triggered
          obtain ⟨e, mem, -⟩ := triggered
          cases mem
        · simp [St.queued, other, same]
  · have negative : ¬ 0 ≤ a.connfd := by
      rw [failed]
      decide
    rw [if_neg negative] at all
    refine noticed.takes rfl rfl (fun x => id) ?_ ?_
    · intro connfd same own
      have here : a.connfd = connfd := Option.some.inj same
      rw [here, own] at negative
      exact negative noticed.lower
    · intro pending
      apply before.handled keysOf_cons
      · intro waiting
        rw [listening]
        rcases all with newer | none
        · exact newer
        · have left := waiting.queued
          simp only [St.queued, if_pos listening] at left
          omega
      · exact fun x _ => ⟨fun waiting => ⟨waiting.edgeTriggered, waiting.queued⟩, pending x⟩

/-- `addfd` raises an edge when there is input already. -/
theorem Noticed.add (noticed : Noticed v s) {connfd : Fd} (ctl : s.ctl = .adding connfd rest) :
    Noticed v { s.addfd connfd (v = .et) with ctl := .events rest } := by
  have unlisted := noticed.target connfd (by rw [ctl]; rfl)
  have covered : Covered s.Waiting s.Pending (readableFds rest) := by
    have before := noticed.covered
    rw [ctl] at before
    exact before
  unfold St.addfd
  split_ifs with idle
  · obtain ⟨opened, new⟩ := idle
    constructor
    case covered =>
      apply covered.arrives
      · intro x waiting
        by_cases same : x = connfd
        · subst same
          right
          have queued : 0 < s.queued x := waiting.queued
          exact ⟨⟨v = .et, s.readable x⟩, by simp, readable_of_queued queued⟩
        · obtain ⟨e, mem, triggered⟩ := waiting.edgeTriggered
          have old : e ∈ s.entries x := by simpa [same] using mem
          exact .inl ⟨⟨e, old, triggered⟩, waiting.queued⟩
      · rintro x ⟨e, mem, edge⟩
        have other : x ≠ connfd := by
          rintro rfl
          rw [new] at mem
          cases mem
        exact ⟨e, by simpa [other] using mem, edge⟩
    case lower => exact noticed.lower
    case target => exact fun _ none => absurd none (by simp [Control.target?])
    case bound =>
      intro x other registered
      by_cases same : x = connfd
      · exact same ▸ opened
      · exact noticed.bound x other (by simpa [same] using registered)
    case level =>
      intro x e mem triggered
      by_cases same : x = connfd
      · subst same
        simp only [Function.update_self, Option.mem_def, Option.some.injEq] at mem
        subst mem
        exact .inl (of_decide_eq_true triggered)
      · exact noticed.level x e (by simpa [same] using mem) triggered
  · refine noticed.takes rfl rfl (fun x => id) (by simp [Control.target?]) ?_
    intro pending
    exact covered.arrives (fun x waiting => .inl ⟨waiting.edgeTriggered, waiting.queued⟩) pending

/-- A step that leaves the registrations and sockets alone and takes from the queues; what it no
longer has ahead does not wait. -/
theorem Noticed.fewer (noticed : Noticed v s) (listenfd : t.listenfd = s.listenfd)
    (entries : t.entries = s.entries) (sockets : t.sockets = s.sockets)
    (target : ∀ x ∈ t.ctl.target?, x ≠ s.listenfd)
    (fewer : ∀ x, t.queued x ≤ s.queued x)
    (next : ∀ x ∈ s.ctl.busy, t.Waiting x → x ∈ t.ctl.busy) : Noticed v t := by
  refine noticed.takes listenfd entries (fun x => sockets ▸ id) target ?_
  intro pending x waiting
  rcases noticed.covered x (waiting_of_le waiting entries (fewer x)) with edge | ahead
  · exact .inl (pending x edge)
  · exact .inr (next x ahead waiting)

/-- The connection behind a descriptor is closed. -/
theorem Noticed.close (noticed : Noticed v s) (ctl : Control)
    (target : ∀ x ∈ ctl.target?, x ≠ s.listenfd)
    (next : ∀ x ∈ s.ctl.busy, x = fd ∨ x ∈ ctl.busy) : Noticed v { s.close fd with ctl } := by
  have open' : ∀ {x e}, e ∈ (s.close fd).entries x → x ≠ fd ∧ e ∈ s.entries x := by
    intro x e mem
    by_cases same : x = fd
    · subst same
      simp [St.close] at mem
    · exact ⟨same, by simpa [St.close, same] using mem⟩
  constructor
  case covered =>
    apply noticed.covered.handled next
    · intro waiting
      obtain ⟨e, mem, -⟩ := waiting.edgeTriggered
      exact absurd rfl (open' mem).1
    · intro x other
      constructor
      · intro waiting
        obtain ⟨e, mem, triggered⟩ := waiting.edgeTriggered
        have queued := waiting.queued
        simp only [St.queued, St.close, Function.update_of_ne other] at queued
        exact ⟨⟨e, (open' mem).2, triggered⟩, queued⟩
      · rintro ⟨e, mem, edge⟩
        exact ⟨e, by simpa [St.close, other] using mem, edge⟩
  case lower => exact noticed.lower
  case target => exact target
  case bound =>
    intro x other registered
    obtain ⟨e, mem⟩ := Option.isSome_iff_exists.mp registered
    obtain ⟨apart, old⟩ := open' mem
    have opened := noticed.bound x other (Option.isSome_iff_exists.mpr ⟨e, old⟩)
    simpa [St.close, apart] using opened
  case level => exact fun x e mem triggered => noticed.level x e (open' mem).2 triggered

/-- What `consume` changes: the stream of one connection. -/
theorem consume_eq {n : Nat} (run : s.consume fd n = some t) :
    ∃ x ∈ s.sockets fd, t = { s with
      streams := Function.update s.streams x.connection ((s.streams x.connection).consume n) } := by
  obtain ⟨x, opened, rfl⟩ := Option.map_eq_some_iff.mp run
  exact ⟨x, opened, rfl⟩

theorem queued_consume {n : Nat} (run : s.consume fd n = some t) (x : Fd) :
    t.queued x ≤ s.queued x := by
  obtain ⟨y, -, rfl⟩ := consume_eq run
  unfold St.queued
  simp only
  split_ifs
  · exact Nat.le_refl _
  · cases socket : s.sockets x with
    | none => exact Nat.le_refl _
    | some z =>
      by_cases same : z.connection = y.connection
      · simp only [Option.elim_some, same, Function.update_self, Channel.unread_consume,
          List.length_drop]
        exact Nat.sub_le _ _
      · simp only [Option.elim_some, Function.update_of_ne same]
        exact Nat.le_refl _

theorem consume_frame {n : Nat} (run : s.consume fd n = some t) : t.listenfd = s.listenfd ∧
    t.entries = s.entries ∧ t.sockets = s.sockets ∧ t.ctl = s.ctl := by
  obtain ⟨y, -, rfl⟩ := consume_eq run
  exact ⟨rfl, rfl, rfl, rfl⟩

theorem Noticed.ltBranch (noticed : Noticed .lt s) (ctl : s.ctl = .events (r :: rest))
    (unlisted : r.fd ≠ s.listenfd) (run : ltBranch s r.fd rest a = some t) : Noticed .lt t := by
  have busy : s.ctl.busy = readableFds (r :: rest) := by rw [ctl]; rfl
  simp only [TestEpoll.ltBranch] at run
  split_ifs at run with ended
  · obtain rfl := Option.some.inj run
    apply noticed.close (.events rest) (by simp [Control.target?])
    rw [busy]
    exact keysOf_cons
  · obtain ⟨u, taken, rfl⟩ := Option.map_eq_some_iff.mp run
    obtain ⟨listenfd, entries, sockets, -⟩ := consume_frame taken
    have fewer : ∀ x, u.queued x ≤ s.queued x := queued_consume taken
    refine noticed.fewer listenfd entries sockets (by simp [Control.target?]) fewer ?_
    intro x mem waiting
    rw [busy] at mem
    rcases keysOf_cons x mem with rfl | later
    · -- a connection of `lt` is not edge-triggered
      have triggered : ∃ e ∈ u.entries r.fd, e.enableEt = true := waiting.edgeTriggered
      rw [entries] at triggered
      obtain ⟨e, old, on⟩ := triggered
      rcases noticed.level r.fd e old on with other | listening
      · cases other
      · exact absurd listening unlisted
    · exact later

theorem Noticed.etTurn (noticed : Noticed v s) (ctl : s.ctl = .draining fd rest)
    (received : Received s fd a) (run : etTurn s fd rest a = some t) : Noticed v t := by
  have busy : s.ctl.busy = fd :: readableFds rest := by rw [ctl]; rfl
  unfold Received at received
  unfold TestEpoll.etTurn at run
  cases answer : a.recv with
  | none =>
    simp only [answer] at run received
    split_ifs at run with again
    · obtain rfl := Option.some.inj run
      obtain ⟨-, -, -, nothing⟩ := received.2 again
      refine noticed.fewer rfl rfl rfl (by simp [Control.target?]) (fun x => Nat.le_refl _) ?_
      intro x mem waiting
      rw [busy] at mem
      rcases List.mem_cons.mp mem with rfl | later
      · have queued : 0 < s.queued x := waiting.queued
        rw [readable_of_queued queued] at nothing
        cases nothing
      · exact later
    · obtain rfl := Option.some.inj run
      apply noticed.close (.events rest) (by simp [Control.target?])
      rw [busy]
      exact fun x mem => List.mem_cons.mp mem
  | some bytes =>
    simp only [answer] at run
    split_ifs at run with ended
    · obtain rfl := Option.some.inj run
      exact noticed.close s.ctl noticed.target fun x mem => .inr mem
    · obtain ⟨listenfd, entries, sockets, same⟩ := consume_frame run
      refine noticed.fewer listenfd entries sockets (same ▸ noticed.target) (queued_consume run) ?_
      intro x mem _
      rw [same]
      exact mem

theorem Noticed.main (noticed : Noticed v s) (answered : Answered s a s.ctl)
    (takesAll : TakesAll s (.main a)) (run : mainStep v s a = some t) : Noticed v t := by
  unfold mainStep at run
  split at run
  · rename_i r rest ctl
    rw [ctl, Answered] at answered
    have busy : s.ctl.busy = readableFds (r :: rest) := by rw [ctl]; rfl
    unfold body at run
    split_ifs at run answered with listening readable
    · exact noticed.accept ctl listening answered takesAll run
    · cases v with
      | lt => exact noticed.ltBranch ctl listening run
      | et =>
        obtain rfl := Option.some.inj run
        have target : ∀ x ∈ (Control.draining r.fd rest).target?, x ≠ s.listenfd := by
          intro x same
          exact Option.some.inj same ▸ listening
        refine noticed.fewer rfl rfl rfl target (fun x => Nat.le_refl _) ?_
        intro x mem _
        rw [busy] at mem
        exact List.mem_cons.mpr (keysOf_cons x mem)
    · obtain rfl := Option.some.inj run
      refine noticed.fewer rfl rfl rfl (by simp [Control.target?]) (fun x => Nat.le_refl _) ?_
      intro x mem _
      rw [busy, readableFds, keysOf_skip (show ¬ r.Readable from readable)] at mem
      exact mem
  · rename_i connfd rest ctl
    obtain rfl := Option.some.inj run
    exact noticed.add ctl
  · rename_i sockfd rest ctl
    rw [ctl, Answered] at answered
    exact noticed.etTurn ctl answered run
  · cases run
  · cases run

end Steps

theorem boot_noticed (v : Handler) {listenfd : Fd} (lower : 0 ≤ listenfd) :
    Noticed v (boot listenfd) where
  covered fd waiting := by
    have none : (boot listenfd).queued fd = 0 := by
      unfold St.queued
      split_ifs <;> rfl
    have queued := waiting.queued
    omega
  lower := lower
  target := by simp [boot, Control.target?]
  bound fd other registered := by
    have apart : fd ≠ listenfd := other
    simp [boot, apart] at registered
  level fd e mem _ := by
    by_cases same : fd = listenfd
    · exact .inr same
    · simp [boot, same] at mem

theorem reachable_noticed {v : Handler} {s : St} (h : ((machine v).guard TakesAll).Reachable s) :
    Noticed v s := by
  apply h.invariant
  · rintro s ⟨listenfd, lower, rfl⟩
    exact boot_noticed v lower
  · intro s a t _ noticed lawful run
    obtain ⟨promised, takesAll⟩ := lawful
    cases a with
    | connects =>
      obtain rfl := Option.some.inj run
      refine noticed.arrives (fun x => x = s.listenfd) rfl rfl rfl ?_ ?_
      · intro x
        by_cases same : x = s.listenfd
        · simp [same]
        · simp [same]
      · intro x other
        simp [St.queued, other]
    | arrives connection bytes =>
      obtain rfl := Option.some.inj run
      exact noticed.change connection (·.send bytes)
    | finishes connection =>
      obtain rfl := Option.some.inj run
      exact noticed.change connection (·.finish)
    | wait batch => exact noticed.wait promised.1 (fun r hr => (promised.2.2 r hr).2) run
    | waitFailed =>
      obtain rfl := Option.some.inj run
      have calling : s.ctl.Calling := promised
      refine noticed.fewer rfl rfl rfl (by simp [Control.target?]) (fun x => Nat.le_refl _) ?_
      intro x mem _
      rw [calling.busy] at mem
      cases mem
    | main a => exact noticed.main promised takesAll run

/-- When every `accept` takes all the connections that wait, an edge-triggered descriptor with
something queued has its edge pending whenever the loop calls `epoll_wait`. -/
theorem queued_noticed {v : Handler} {s : St} (h : ((machine v).guard TakesAll).Reachable s)
    (calling : s.ctl.Calling) {fd : Fd} {e : Entry} (entry : e ∈ s.entries fd)
    (triggered : e.enableEt = true) (queued : 0 < s.queued fd) : e.edge = true := by
  have covered := (reachable_noticed h).covered
  rw [calling.busy] at covered
  obtain ⟨e', entry', edge⟩ := covered.settled ⟨⟨e, entry, triggered⟩, queued⟩
  rw [Option.mem_unique entry entry']
  exact edge

end JiajiaNetwork.TestEpoll
