/- What a child of `shmget_chat_room_server.c` does for an event of its pipe. The assignment in the
   first condition of the loop makes it treat the event as one of its client, so that no number is
   ever read. An announced text is cleared before each `recv`, also before one that fails or finds
   the end. -/
import JiajiaNetwork.Lib.Edge
import JiajiaNetwork.Relay.Segments

set_option autoImplicit false
set_option relaxedAutoImplicit false

namespace JiajiaNetwork.Relay

open Lib

/-- The step handles an event with `EPOLLIN` of the descriptor. -/
def Handles (c : Child) (fd : Fd) : Input → Prop
  | .main _ => ∃ r ∈ c.ctl.next?, r.fd = fd ∧ has r.events epollIn
  | _ => False

/-- The segment is clear already, and nothing comes from the client; and no number waits. -/
structure Harmless {n : Int} (c : Child) (mem : Memory n) (a : Input) : Prop where
  number : c.pipe.unread = []
  client : c.connfd ≠ 0 →
    segment mem c.idx = some (List.replicate bufferSize 0) ∧ received a = []

/-- Once a text was announced, a `recv` of the client that returns no bytes finds the segment
clear. -/
def Blank {n : Int} (c : Child) (mem : Memory n) (a : Input) : Prop :=
  ClientStep c a → received a = [] → c.announced ≠ [] →
    segment mem c.idx = some (List.replicate bufferSize 0)

/-- The step loses no number, and no text that was announced. -/
structure Gentle {n : Int} (c : Child) (mem : Memory n) (a : Input) : Prop where
  piped : Handles c c.pipefd a → Harmless c mem a
  blank : Blank c mem a

/-- What a step is to do for an event of the pipe. -/
structure Serves {n : Int} (c : Child) (mem : Memory n) (c' : Child) (mem' : Memory n) :
    Prop where
  client : c'.client.read = c.client.read
  shareMem : mem' = mem
  number : ∀ x later, c.pipe.unread = x :: later → c'.pipe.read = c.pipe.read ++ [x] ∧
    ∃ bytes ∈ segment mem x, c'.forwarded = c.forwarded ++ [(x, bytes)]

/-- A step that changes the segment of its child is to handle an event of the client, and where a
text was announced it is to read more of what the client has sent. -/
structure Stays {n : Int} (c : Child) (mem : Memory n) (a : Input) (c' : Child)
    (mem' : Memory n) : Prop where
  client : segment mem' c.idx ≠ segment mem c.idx → Handles c c.connfd a
  announced : c.announced ≠ [] → segment mem' c.idx ≠ segment mem c.idx →
    ∃ bytes, bytes ≠ [] ∧ c'.client.read = c.client.read ++ bytes

/-- The events of the batch that are not handled yet. -/
def Control.ahead : Control → List Report
  | .events rest => rest
  | .testing | .waiting | .left => []

def Report.Readable (r : Report) : Prop := has r.events epollIn

instance : DecidablePred Report.Readable := fun r =>
  inferInstanceAs (Decidable (has r.events epollIn))

def readableFds (rest : List Report) : List Fd := keysOf Report.fd Report.Readable rest

/-- The descriptor is the pipe, with numbers that no `recv` has taken. -/
def Child.Waiting (c : Child) (fd : Fd) : Prop := fd = c.pipefd ∧ c.pipe.unread ≠ []

def Child.Pending (c : Child) (fd : Fd) : Prop := c.edges fd = true

/-- What holds of a child at any time. -/
structure Sound (c : Child) : Prop where
  apart : c.connfd ≠ c.pipefd
  known : ∀ r ∈ c.ctl.ahead, r.fd = c.connfd ∨ r.fd = c.pipefd
  unread : c.pipe.read = [] ∧ c.forwarded = []

def Noticed (c : Child) : Prop := Covered c.Waiting c.Pending (readableFds c.ctl.ahead)

section Steps

variable {n : Int} {c c' : Child} {mem mem' : Memory n} {r : Report} {rest : List Report}
  {answers : Answers} {a : Input}

/-- With `connfd` other than zero, every event with `EPOLLIN` is handled as one of the client. -/
theorem clientStep_iff {fd : Fd} (handles : Handles c fd a) : ClientStep c a ↔ c.connfd ≠ 0 := by
  cases a with
  | main answers =>
    obtain ⟨r, next, -, readable⟩ := handles
    constructor
    · rintro ⟨r', -, nonzero, -⟩
      exact nonzero
    · exact fun nonzero => ⟨r, next, nonzero, readable⟩
  | _ => exact handles.elim

/-- The branch for the client handles an event of the client or one of the pipe. -/
theorem Sound.handles (sound : Sound c) (client : ClientStep c a) :
    Handles c c.connfd a ∨ Handles c c.pipefd a := by
  cases a with
  | main answers =>
    obtain ⟨r, next, -, readable⟩ := client
    have ahead : r ∈ c.ctl.ahead := by
      cases ctl : c.ctl with
      | events batch =>
        rw [ctl] at next
        exact List.mem_of_head? next
      | _ =>
        rw [ctl] at next
        cases next
    rcases sound.known r ahead with mine | piped
    · exact .inl ⟨r, next, mine, readable⟩
    · exact .inr ⟨r, next, piped, readable⟩
  | _ => exact client.elim

/-- A step that takes no number serves the pipe only when none waits. -/
theorem Serves.unread_eq_nil (serves : Serves c mem c' mem')
    (kept : c'.pipe.read = c.pipe.read) : c.pipe.unread = [] := by
  cases waits : c.pipe.unread with
  | nil => rfl
  | cons x later =>
    have taken := (serves.number x later waits).1
    rw [kept] at taken
    exact absurd (List.self_eq_append_right.mp taken) nofun

theorem ahead_of_waiting (waiting : c.ctl = .waiting) : c.ctl.ahead = [] := by
  rw [waiting]
  rfl

/-- An event of the pipe is served only if there is nothing to do. -/
theorem serves_iff (apart : c.connfd ≠ c.pipefd) (lawful : Lawful c a)
    (run : step c mem a = some (c', mem')) (handles : Handles c c.pipefd a) :
    Serves c mem c' mem' ↔ Harmless c mem a := by
  have nonzero := clientStep_iff handles
  obtain ⟨keeps, aloof | refills⟩ := step_cases apart lawful run
  · obtain rfl := aloof.memory run
    have zero : ¬ c.connfd ≠ 0 := fun other => aloof.other (nonzero.mpr other)
    constructor
    · intro serves
      exact ⟨serves.unread_eq_nil keeps.number, fun other => absurd other zero⟩
    · intro harmless
      refine ⟨aloof.read, rfl, fun x later waits => ?_⟩
      rw [harmless.number] at waits
      cases waits
  · obtain rfl := refills.memory run
    have fits := Nat.le_trans refills.fits (show bufferSize - 1 ≤ bufferSize by decide)
    constructor
    · intro serves
      have nothing : received a = [] := by
        have read := serves.client
        rw [refills.read] at read
        exact List.append_right_eq_self.mp read
      refine ⟨serves.unread_eq_nil keeps.number, fun _ => ⟨?_, nothing⟩⟩
      have clear : segment (refill c.idx (received a) mem) c.idx = _ :=
        segment_refill refills.inside fits
      rw [serves.shareMem, nothing] at clear
      exact clear
    · intro harmless
      obtain ⟨clear, nothing⟩ := harmless.client (nonzero.mp refills.client)
      refine ⟨?_, ?_, fun x later waits => ?_⟩
      · rw [refills.read, nothing, List.append_nil]
      · rw [refill, nothing, CArray.overwrite_nil]
        exact CArray.overwrite_slice clear
      · rw [harmless.number] at waits
        cases waits

/-- Where the pipe is served, an announced text stays if and only if a `recv` that returns no bytes
finds the segment clear. -/
theorem stays_iff (sound : Sound c) (lawful : Lawful c a)
    (run : step c mem a = some (c', mem'))
    (serves : Handles c c.pipefd a → Serves c mem c' mem') :
    Stays c mem a c' mem' ↔ Blank c mem a := by
  obtain ⟨-, aloof | refills⟩ := step_cases sound.apart lawful run
  · obtain rfl := aloof.memory run
    have same : Stays c mem' a c' mem' :=
      ⟨fun changed => absurd rfl changed, fun _ changed => absurd rfl changed⟩
    exact iff_of_true same fun client => absurd client aloof.other
  · obtain rfl := refills.memory run
    have fits := Nat.le_trans refills.fits (show bufferSize - 1 ≤ bufferSize by decide)
    have filled : segment (refill c.idx (received a) mem) c.idx = _ :=
      segment_refill refills.inside fits
    constructor
    · intro stays _ nothing announced
      by_contra text
      rw [nothing] at filled
      have changed : segment (refill c.idx (received a) mem) c.idx ≠ segment mem c.idx := by
        rw [nothing, filled]
        exact fun same => text same.symm
      obtain ⟨bytes, some, read⟩ := stays.announced announced changed
      rw [refills.read, nothing] at read
      exact some (List.append_cancel_left read).symm
    · intro blank
      refine ⟨fun changed => ?_, fun announced changed => ?_⟩
      · rcases sound.handles refills.client with client | piped
        · exact client
        · exact absurd (congrArg (segment · _) (serves piped).shareMem) changed
      · refine ⟨received a, fun nothing => changed ?_, refills.read⟩
        rw [nothing] at filled
        rw [nothing, filled, blank refills.client nothing announced]
        rfl

/-- A step does what it is to do if and only if it is gentle. -/
theorem gentle_iff (sound : Sound c) (lawful : Lawful c a)
    (run : step c mem a = some (c', mem')) :
    (Handles c c.pipefd a → Serves c mem c' mem') ∧ Stays c mem a c' mem' ↔ Gentle c mem a := by
  have serves : Handles c c.pipefd a → (Serves c mem c' mem' ↔ Harmless c mem a) :=
    serves_iff sound.apart lawful run
  constructor
  · rintro ⟨served, stays⟩
    exact ⟨fun handles => (serves handles).mp (served handles),
      (stays_iff sound lawful run served).mp stays⟩
  · intro gentle
    have served := fun handles => (serves handles).mpr (gentle.piped handles)
    exact ⟨served, (stays_iff sound lawful run served).mpr gentle.blank⟩

theorem clientBranch_frame (run : clientBranch c mem rest answers = some (c', mem')) :
    c'.ctl = .events rest ∧ c'.pipe = c.pipe ∧ c'.edges = c.edges := by
  obtain ⟨cleared, -, fill⟩ := Option.bind_eq_some_iff.mp run
  cases answer : answers.recv with
  | none =>
    simp only [answer, Option.some.injEq, Prod.mk.injEq] at fill
    obtain ⟨rfl, -⟩ := fill
    exact ⟨rfl, rfl, rfl⟩
  | some bytes =>
    simp only [answer] at fill
    split_ifs at fill
    · simp only [Option.some.injEq, Prod.mk.injEq] at fill
      obtain ⟨rfl, -⟩ := fill
      exact ⟨rfl, rfl, rfl⟩
    · obtain ⟨filled, -, same⟩ := Option.map_eq_some_iff.mp fill
      obtain ⟨rfl, -⟩ := Prod.mk.inj same
      exact ⟨rfl, rfl, rfl⟩

/-- A step of the loop keeps pipe and edges, and does at most one event of the batch. -/
theorem mainStep_frame (apart : c.connfd ≠ c.pipefd)
    (run : mainStep c mem answers = some (c', mem')) :
    c'.pipe = c.pipe ∧ c'.edges = c.edges ∧
      (c'.ctl.ahead = c.ctl.ahead ∨
        ∃ r rest, c.ctl = .events (r :: rest) ∧ c'.ctl = .events rest) := by
  unfold mainStep at run
  split at run
  · rename_i ctl
    simp only [Option.some.injEq, Prod.mk.injEq] at run
    obtain ⟨rfl, -⟩ := run
    refine ⟨rfl, rfl, .inl ?_⟩
    rw [ctl]
    simp only
    split_ifs <;> rfl
  · rename_i ctl
    simp only [Option.some.injEq, Prod.mk.injEq] at run
    obtain ⟨rfl, -⟩ := run
    exact ⟨rfl, rfl, .inl (by rw [ctl]; rfl)⟩
  · rename_i r rest ctl
    rw [body_eq apart] at run
    split_ifs at run
    · obtain ⟨after, pipe, edges⟩ := clientBranch_frame run
      exact ⟨pipe, edges, .inr ⟨r, rest, ctl, after⟩⟩
    · simp only [Option.some.injEq, Prod.mk.injEq] at run
      obtain ⟨rfl, -⟩ := run
      exact ⟨rfl, rfl, .inr ⟨r, rest, ctl, rfl⟩⟩
  · cases run
  · cases run

theorem Sound.step (sound : Sound c) (lawful : Lawful c a)
    (run : step c mem a = some (c', mem')) : Sound c' := by
  obtain ⟨keeps, -⟩ := step_cases sound.apart lawful run
  refine ⟨?_, ?_, keeps.number.trans sound.unread.1, keeps.forwarded.trans sound.unread.2⟩
  · rw [keeps.connfd, keeps.pipefd]
    exact sound.apart
  have fewer : (∀ r ∈ c'.ctl.ahead, r ∈ c.ctl.ahead) →
      ∀ r ∈ c'.ctl.ahead, r.fd = c'.connfd ∨ r.fd = c'.pipefd := by
    intro fewer r hr
    rw [keeps.connfd, keeps.pipefd]
    exact sound.known r (fewer r hr)
  cases a with
  | wait batch =>
    obtain ⟨rfl, -⟩ := Prod.mk.inj (Option.some.inj run)
    exact fun r hr => (lawful.2.2 r hr).known
  | main answers =>
    obtain ⟨-, -, same | ⟨r, rest, before, after⟩⟩ := mainStep_frame sound.apart run
    · exact fewer fun r hr => same ▸ hr
    · apply fewer
      rw [before, after]
      exact fun r' => List.mem_cons_of_mem r
  | term =>
    obtain ⟨rfl, -⟩ := Prod.mk.inj (Option.some.inj run)
    apply fewer
    show ∀ r ∈ (if c.ctl = .waiting then .testing else c.ctl : Control).ahead, r ∈ c.ctl.ahead
    split_ifs
    · exact nofun
    · exact fun r => id
  | waitInterrupted =>
    obtain ⟨rfl, -⟩ := Prod.mk.inj (Option.some.inj run)
    exact nofun
  | waitFailed =>
    obtain ⟨rfl, -⟩ := Prod.mk.inj (Option.some.inj run)
    exact nofun
  | sends bytes =>
    obtain ⟨rfl, -⟩ := Prod.mk.inj (Option.some.inj run)
    exact fewer fun r => id
  | finishes =>
    obtain ⟨rfl, -⟩ := Prod.mk.inj (Option.some.inj run)
    exact fewer fun r => id
  | writes client =>
    obtain ⟨rfl, -⟩ := Prod.mk.inj (Option.some.inj run)
    exact fewer fun r => id
  | hangsUp =>
    obtain ⟨rfl, -⟩ := Prod.mk.inj (Option.some.inj run)
    exact fewer fun r => id

/-- Edges are only raised, and where something comes to wait one is raised. -/
theorem Noticed.raises (noticed : Noticed c) (ahead : c'.ctl.ahead = c.ctl.ahead)
    (waits : ∀ fd, c'.Waiting fd → c.Waiting fd ∨ c'.Pending fd)
    (kept : ∀ fd, c.Pending fd → c'.Pending fd) : Noticed c' := by
  rw [Noticed, ahead]
  exact Covered.arrives noticed waits kept

theorem raise_pending {fd fd' : Fd} (pending : c.Pending fd) : (c.raise fd').Pending fd := by
  show Function.update c.edges fd' true fd = true
  by_cases same : fd = fd'
  · rw [same, Function.update_self]
  · rw [Function.update_of_ne same]
    exact pending

/-- The loop is in `epoll_wait`, and nothing of a batch is left. -/
theorem Noticed.idle (noticed : Noticed c) (none : c.ctl.ahead = []) (after : c'.ctl.ahead = [])
    (pipefd : c'.pipefd = c.pipefd) (pipe : c'.pipe = c.pipe) (edges : c'.edges = c.edges) :
    Noticed c' := by
  refine noticed.raises (after.trans none.symm) ?_ ?_
  · intro fd waiting
    left
    rw [Child.Waiting, pipefd, pipe] at waiting
    exact waiting
  · intro fd pending
    rw [Child.Pending, edges]
    exact pending

/-- The edges of the descriptors that are returned are used up. -/
theorem Noticed.wait (noticed : Noticed c) (sound : Sound c) {batch : List Report}
    (waiting : c.ctl = .waiting) (due : ∀ r ∈ batch, Due c r)
    (run : step c mem (.wait batch) = some (c', mem')) : Noticed c' := by
  obtain ⟨rfl, -⟩ := Prod.mk.inj (Option.some.inj run)
  rw [Noticed, waiting] at noticed
  apply Covered.reported noticed
  · exact fun fd => id
  · rintro fd ⟨rfl, unread⟩ pending
    by_cases mem : c.pipefd ∈ batch.map Report.fd
    · obtain ⟨r, hr, piped⟩ := List.mem_map.mp mem
      have readable : c.readable r.fd = true := by
        rw [Child.readable, if_neg (piped ▸ Ne.symm sound.apart)]
        simp [unread]
      exact .inr (mem_keysOf.mpr ⟨r, hr, (due r hr).readable.mpr readable, piped⟩)
    · left
      show (c.edges c.pipefd && decide (c.pipefd ∉ batch.map Report.fd)) = true
      rw [decide_eq_true mem, Bool.and_true]
      exact pending

theorem Noticed.main (noticed : Noticed c) (sound : Sound c) (lawful : Answered c answers)
    (harmless : Handles c c.pipefd (.main answers) → c.pipe.unread = [])
    (run : mainStep c mem answers = some (c', mem')) : Noticed c' := by
  obtain ⟨pipe, edges, frame⟩ := mainStep_frame sound.apart run
  have keeps := (step_cases sound.apart (a := .main answers) lawful run).1
  have waits : ∀ fd, c'.Waiting fd → c.Waiting fd := by
    intro fd waiting
    rw [Child.Waiting, keeps.pipefd, pipe] at waiting
    exact waiting
  have kept : ∀ fd, c.Pending fd → c'.Pending fd := by
    intro fd pending
    rw [Child.Pending, edges]
    exact pending
  rcases frame with same | ⟨r, rest, before, after⟩
  · exact noticed.raises same (fun fd waiting => .inl (waits fd waiting)) kept
  rw [Noticed, before] at noticed
  rw [Noticed, after]
  change Covered c.Waiting c.Pending (readableFds (r :: rest)) at noticed
  by_cases readable : r.Readable
  · apply Covered.handled noticed keysOf_cons
    · intro waiting
      obtain ⟨piped, unread⟩ := waits r.fd waiting
      have handles : Handles c c.pipefd (.main answers) :=
        ⟨r, by rw [before]; rfl, piped, readable⟩
      exact absurd (harmless handles) unread
    · exact fun fd _ => ⟨waits fd, kept fd⟩
  · rw [readableFds, keysOf_skip readable] at noticed
    exact Covered.arrives noticed (fun fd waiting => .inl (waits fd waiting)) kept

theorem Noticed.step (noticed : Noticed c) (sound : Sound c) (lawful : Lawful c a)
    (harmless : Handles c c.pipefd a → Harmless c mem a)
    (run : step c mem a = some (c', mem')) : Noticed c' := by
  cases a with
  | wait batch => exact noticed.wait sound lawful.1 lawful.2.2 run
  | main answers =>
    exact noticed.main sound lawful (fun handles => (harmless handles).number) run
  | term =>
    obtain ⟨rfl, -⟩ := Prod.mk.inj (Option.some.inj run)
    refine noticed.raises ?_ (fun fd => .inl) fun fd => id
    show (if c.ctl = .waiting then .testing else c.ctl : Control).ahead = c.ctl.ahead
    split_ifs with waiting
    · rw [waiting]
      rfl
    · rfl
  | waitInterrupted =>
    obtain ⟨rfl, -⟩ := Prod.mk.inj (Option.some.inj run)
    exact noticed.idle (ahead_of_waiting lawful) rfl rfl rfl rfl
  | waitFailed =>
    obtain ⟨rfl, -⟩ := Prod.mk.inj (Option.some.inj run)
    exact noticed.idle (ahead_of_waiting lawful) rfl rfl rfl rfl
  | sends bytes =>
    obtain ⟨rfl, -⟩ := Prod.mk.inj (Option.some.inj run)
    exact noticed.raises rfl (fun fd => .inl) fun fd => raise_pending
  | finishes =>
    obtain ⟨rfl, -⟩ := Prod.mk.inj (Option.some.inj run)
    exact noticed.raises rfl (fun fd => .inl) fun fd => raise_pending
  | writes client =>
    obtain ⟨rfl, -⟩ := Prod.mk.inj (Option.some.inj run)
    refine noticed.raises rfl ?_ fun fd => raise_pending
    rintro fd ⟨rfl, -⟩
    exact .inr (Function.update_self _ _ _)
  | hangsUp =>
    obtain ⟨rfl, -⟩ := Prod.mk.inj (Option.some.inj run)
    exact noticed.raises rfl (fun fd => .inl) fun fd => raise_pending

/-- Who waits without an edge for the pipe has nothing to read from it. -/
theorem Noticed.read_eq_sent (noticed : Noticed c) (waiting : c.ctl = .waiting)
    (quiet : ¬ c.Pending c.pipefd) : c.pipe.read = c.pipe.sent := by
  rw [Noticed, waiting] at noticed
  have unread : c.pipe.unread = [] := by
    by_contra unread
    exact quiet (Covered.settled noticed ⟨rfl, unread⟩)
  rw [← c.pipe.read_append_unread, unread, List.append_nil]

end Steps

section Family

variable {κ : Type} [DecidableEq κ] {n : Int} {children : κ → Child} {shareMem : Memory n}
  {s : (κ → Child) × Memory n} {steps : List (((κ → Child) × Memory n) × (κ × Input))} {k : κ}

/-- What child `k` is to do in a run: it serves every event of its pipe, sends the segment of every
number that it has read, has read them all when it waits without an edge for the pipe, and after an
announcement changes its segment only where it reads more from its client. Children with other
numbers leave the segment alone. -/
structure Relayed (k : κ) (steps : List (((κ → Child) × Memory n) × (κ × Input)))
    (s : (κ → Child) × Memory n) : Prop where
  serves : ∀ p ∈ steps, p.2.1 = k → Handles (p.1.1 k) (p.1.1 k).pipefd p.2.2 →
    ∀ c' mem', step (p.1.1 k) p.1.2 p.2.2 = some (c', mem') → Serves (p.1.1 k) p.1.2 c' mem'
  forwarded : (s.1 k).forwarded.map Prod.fst = (s.1 k).pipe.read
  delivered : (s.1 k).ctl = .waiting → ¬ (s.1 k).Pending (s.1 k).pipefd →
    (s.1 k).pipe.read = (s.1 k).pipe.sent
  stays : ∀ p ∈ steps, p.2.1 = k →
    ∀ c' mem', step (p.1.1 k) p.1.2 p.2.2 = some (c', mem') →
    Stays (p.1.1 k) p.1.2 p.2.2 c' mem'
  others : ∀ p ∈ steps, (p.1.1 k).idx ≠ (p.1.1 p.2.1).idx →
    ∀ c' mem', step (p.1.1 p.2.1) p.1.2 p.2.2 = some (c', mem') →
    segment mem' (p.1.1 k).idx = segment p.1.2 (p.1.1 k).idx

/-- The children start at the beginning of `run_child`. -/
def Booted (children : κ → Child) : Prop := ∀ k, ∃ idx connfd pipefd,
  connfd ≠ pipefd ∧ children k = boot idx connfd pipefd

theorem boot_sound {idx : Int} {connfd pipefd : Fd} (apart : connfd ≠ pipefd) :
    Sound (boot idx connfd pipefd) := ⟨apart, nofun, rfl, rfl⟩

theorem reachable_sound (booted : Booted children)
    (h : ((component n).family children shareMem).Reachable s) (k : κ) : Sound (s.1 k) := by
  apply Component.own_invariant (E := fun _ _ _ => True) (h.guard fun _ _ _ => trivial)
  · obtain ⟨idx, connfd, pipefd, apart, start⟩ := booted k
    rw [start]
    exact boot_sound apart
  · exact fun c mem a c' mem' sound lawful _ run => sound.step lawful run

theorem reachable_noticed (booted : Booted children)
    (h : (((component n).family children shareMem).guard fun s a => a.1 = k →
      Handles (s.1 k) (s.1 k).pipefd a.2 → Harmless (s.1 k) s.2 a.2).Reachable s) :
    Noticed (s.1 k) := by
  have both : Sound (s.1 k) ∧ Noticed (s.1 k) := by
    apply Component.own_invariant (P := fun c => Sound c ∧ Noticed c)
      (E := fun c mem a => Handles c c.pipefd a → Harmless c mem a) h
    · obtain ⟨idx, connfd, pipefd, apart, start⟩ := booted k
      rw [start]
      refine ⟨boot_sound apart, ?_⟩
      rintro fd ⟨-, unread⟩
      exact absurd rfl unread
    · intro c mem a c' mem' ⟨sound, noticed⟩ lawful harmless run
      exact ⟨sound.step lawful run, noticed.step sound lawful harmless run⟩
  exact both.2

/-- A child does what the parent tells it, and keeps what it announced, in exactly the runs in which
every event of its pipe comes without a number, finds the segment clear and brings nothing from the
client, and after an announcement every `recv` that returns no bytes finds the segment clear. -/
theorem relayed_iff (booted : Booted children)
    (h : ((component n).family children shareMem).Run steps s) : Relayed k steps s ↔
      ∀ p ∈ steps, p.2.1 = k → Gentle (p.1.1 k) p.1.2 p.2.2 := by
  constructor
  · intro relayed p hp mine
    obtain ⟨reach, lawful, t, run⟩ := h.step_of_mem p hp
    obtain ⟨own, mem, moved, -⟩ := Component.family_step run
    subst mine
    apply (gentle_iff (reachable_sound booted reach p.2.1) lawful moved).mp
    exact ⟨fun handles => relayed.serves p hp rfl handles own mem moved,
      relayed.stays p hp rfl own mem moved⟩
  · intro gentle
    have sound := reachable_sound booted h.reachable k
    have does : ∀ p ∈ steps, p.2.1 = k →
        ∀ c' mem', step (p.1.1 k) p.1.2 p.2.2 = some (c', mem') →
        (Handles (p.1.1 k) (p.1.1 k).pipefd p.2.2 → Serves (p.1.1 k) p.1.2 c' mem') ∧
          Stays (p.1.1 k) p.1.2 p.2.2 c' mem' := by
      intro p hp mine c' mem' moved
      obtain ⟨reach, lawful, -⟩ := h.step_of_mem p hp
      subst mine
      exact (gentle_iff (reachable_sound booted reach p.2.1) lawful moved).mpr (gentle p hp rfl)
    constructor
    case serves =>
      exact fun p hp mine handles c' mem' moved => (does p hp mine c' mem' moved).1 handles
    case forwarded =>
      rw [sound.unread.1, sound.unread.2]
      rfl
    case delivered =>
      apply Noticed.read_eq_sent
      exact reachable_noticed booted ⟨steps, Machine.run_guard_iff.mpr
        ⟨h, fun p hp mine => (gentle p hp mine).piped⟩⟩
    case stays => exact fun p hp mine c' mem' moved => (does p hp mine c' mem' moved).2
    case others =>
      intro p hp other c' mem' moved
      obtain ⟨reach, lawful, -⟩ := h.step_of_mem p hp
      exact segment_of_ne (reachable_sound booted reach p.2.1).apart lawful moved other

end Family

theorem pair_booted : Booted pair := by
  intro k
  cases k with
  | false => exact ⟨0, 5, 6, by decide, rfl⟩
  | true => exact ⟨1, 7, 8, by decide, rfl⟩

theorem relayed_iff_mixed : ∃ steps, ((component 2048).family pair used).Run steps mixed ∧
    (Relayed false steps mixed ↔
      ∀ p ∈ steps, p.2.1 = false → Gentle (p.1.1 false) p.1.2 p.2.2) := by
  have start : ((component 2048).family pair used).Reachable (pair, used) := .start rfl
  obtain ⟨steps, run⟩ := start.replay_getD _
  exact ⟨steps, run, relayed_iff pair_booted run⟩

/-- The client of child 0 has sent "hi", and the parent names segment 1. Child 0 clears its own
segment for that, and never reads the number. -/
theorem number_unread : ∃ steps s, ((component 2048).family pair used).Run steps s ∧
    s.2.cell 0 = 0 ∧ ¬ Relayed false steps s := by
  have start : ((component 2048).family pair used).Reachable (pair, used) := .start rfl
  obtain ⟨s, ⟨steps, run⟩, unread⟩ := start.of_replay
    (p := fun s : (Bool → Child) × Memory 2048 => decide (s.2.cell 0 = 0 ∧
      (s.1 false).ctl = .waiting ∧ (s.1 false).edges (s.1 false).pipefd = false ∧
      (s.1 false).pipe.read ≠ (s.1 false).pipe.sent))
    [(false, .sends [104, 105]), (false, .main ⟨none, none, 0⟩), (false, .wait [⟨5, epollIn⟩]),
      (false, .main ⟨some [104, 105], none, 0⟩), (false, .writes 1),
      (false, .main ⟨none, none, 0⟩), (false, .main ⟨none, none, 0⟩),
      (false, .wait [⟨6, epollIn⟩]), (false, .main ⟨none, none, eagain⟩),
      (false, .main ⟨none, none, 0⟩), (false, .main ⟨none, none, 0⟩)] (by decide +kernel)
  obtain ⟨cleared, waiting, quiet, missing⟩ := of_decide_eq_true unread
  refine ⟨steps, s, run, cleared, ?_⟩
  intro relayed
  apply missing
  apply relayed.delivered waiting
  rw [Child.Pending, quiet]
  exact Bool.false_ne_true

end JiajiaNetwork.Relay
