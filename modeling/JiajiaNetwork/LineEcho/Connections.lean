/- The clients of `test_libevent/demo1.c`. A `struct client` and its `bufferevent` point at each
   other; the error callback frees both and closes the descriptor. A free of a block that is not
   allocated, a use of one, and a `close` of a descriptor that is not open are faults (`none`). -/
import JiajiaNetwork.Lib.Lifetime
import JiajiaNetwork.Lib.Machine
import JiajiaNetwork.LineEcho.Replies

set_option autoImplicit false
set_option relaxedAutoImplicit false

namespace JiajiaNetwork.LineEcho

open Lib

abbrev Fd := Int
abbrev Addr := Nat

/-- What is behind an address: `struct client`, or a `bufferevent` with its descriptor and the
argument of its callbacks. -/
inductive Block
  | client (fd : Fd) (bufEv : Addr)
  | bufferevent (fd : Fd) (arg : Addr) (buffers : Bufferevent)
  deriving DecidableEq

/-- What happens to accepted sockets. The history is kept for the statements only. -/
inductive Event
  | accepted (fd : Fd)
  | arrived (fd : Fd) (chunk : List Byte)
  | closed (fd : Fd)
  deriving DecidableEq

structure St where
  heap : Addr → Option Block
  files : Finset Fd
  exited : Bool
  log : List Event

/-- The results of `accept`, `calloc` and `bufferevent_new`. -/
structure AcceptAnswers where
  accept : Option Fd
  client : Option Addr
  bufEv : Addr

inductive Input
  /-- the listening socket is readable -/
  | connects (answers : AcceptAnswers)
  | arrives (bev : Addr) (chunk : List Byte)
  /-- the end of the input, or an error -/
  | fails (bev : Addr)

namespace St

/-- `accept` returned `fd`. -/
def opened (s : St) (fd : Fd) : St :=
  { s with files := insert fd s.files, log := s.log ++ [.accepted fd] }

def free (s : St) (x : Addr) : Option St :=
  if (s.heap x).isSome then some { s with heap := Function.update s.heap x none } else none

def close (s : St) (fd : Fd) : Option St :=
  if fd ∈ s.files then some { s with files := s.files.erase fd, log := s.log ++ [.closed fd] }
  else none

/-- `client->fd` and `client->buf_ev` -/
def clientAt (s : St) (x : Addr) : Option (Fd × Addr) :=
  match s.heap x with
  | some (.client fd bufEv) => some (fd, bufEv)
  | _ => none

def buffereventAt (s : St) (x : Addr) : Option (Fd × Addr × Bufferevent) :=
  match s.heap x with
  | some (.bufferevent fd arg buffers) => some (fd, arg, buffers)
  | _ => none

/-- `bufferevent_free` -/
def freeBufferevent (s : St) (x : Addr) : Option St := do
  let _ ← s.buffereventAt x
  s.free x

end St

/-- `accept_callback`. Without memory for the client `err` ends the program. -/
def acceptCallback (s : St) (a : AcceptAnswers) : St :=
  match a.accept with
  | none => s
  | some clientFd =>
    let s := s.opened clientFd
    match a.client with
    | none => { s with exited := true }
    | some client => { s with
        heap := Function.update (Function.update s.heap client (some (.client clientFd a.bufEv)))
          a.bufEv (some (.bufferevent clientFd client ⟨[], []⟩)) }

/-- `buf_error_callback` -/
def bufErrorCallback (s : St) (client : Addr) : Option St := do
  let (_, bufEv) ← s.clientAt client
  let s ← s.freeBufferevent bufEv
  let (fd, _) ← s.clientAt client
  let s ← s.close fd
  s.free client

/-- libevent calls the callbacks that were registered for the `bufferevent`. -/
def step (readline : Readline) (s : St) : Input → Option St
  | .connects a => some (acceptCallback s a)
  | .arrives bev chunk => do
    let (fd, arg, buffers) ← s.buffereventAt bev
    let buffers := arrives readline buffers chunk
    some { s with
      heap := Function.update s.heap bev (some (.bufferevent fd arg buffers))
      log := s.log ++ [.arrived fd chunk] }
  | .fails bev => do
    let (_, arg, _) ← s.buffereventAt bev
    bufErrorCallback s arg

/-- `accept` returns a descriptor that is not open, and the allocators return blocks that are not
in use. -/
def Lawful (s : St) : Input → Prop
  | .connects a => s.exited = false ∧ (∀ fd ∈ a.accept, fd ∉ s.files) ∧
      ∀ x ∈ a.client, s.heap x = none ∧ s.heap a.bufEv = none ∧ x ≠ a.bufEv
  | .arrives bev _ | .fails bev => s.exited = false ∧ (s.buffereventAt bev).isSome

instance (s : St) : (a : Input) → Decidable (Lawful s a)
  | .connects _ => inferInstanceAs (Decidable (_ ∧ _ ∧ _))
  | .arrives _ _ | .fails _ => inferInstanceAs (Decidable (_ ∧ _))

/-- `event_dispatch`, with the descriptors `base` open. -/
def initial (base : Finset Fd) : St := ⟨fun _ => none, base, false, []⟩

def machine (readline : Readline) (base : Finset Fd) : Machine St Input where
  Start s := s = initial base
  Lawful := Lawful
  step := step readline

instance (readline : Readline) (base : Finset Fd) (s : St) (a : Input) :
    Decidable ((machine readline base).Lawful s a) :=
  inferInstanceAs (Decidable (Lawful s a))

def Event.life : Event → Life Fd
  | .accepted fd => .opens fd
  | .closed fd => .closes fd
  | .arrived _ _ => .neither

/-- The chunks that arrived on `fd`. -/
def arrivedOn (fd : Fd) (seg : List Event) : List (List Byte) :=
  seg.filterMap fun
    | .arrived f chunk => if f = fd then some chunk else none
    | _ => none

@[simp] theorem arrivedOn_append (fd : Fd) (seg new : List Event) :
    arrivedOn fd (seg ++ new) = arrivedOn fd seg ++ arrivedOn fd new := List.filterMap_append

/-- Clients, their bufferevents and the accepted sockets that are open correspond one to one. -/
structure Owned (base : Finset Fd) (s : St) : Prop where
  client : ∀ x fd b, s.heap x = some (.client fd b) →
    ∃ buffers, s.heap b = some (.bufferevent fd x buffers)
  bufferevent : ∀ b fd x buffers, s.heap b = some (.bufferevent fd x buffers) →
    s.heap x = some (.client fd b)
  distinct : ∀ x y fd b c, s.heap x = some (.client fd b) → s.heap y = some (.client fd c) → x = y
  sockets : ∀ fd, fd ∈ live Event.life s.log ↔ ∃ x b, s.heap x = some (.client fd b)
  files : ∀ fd, fd ∈ s.files ↔ fd ∈ base ∨ fd ∈ live Event.life s.log
  apart : ∀ fd ∈ base, fd ∉ live Event.life s.log

/-- The buffers of a connection are those of a server that has no other. -/
def Served (readline : Readline) (s : St) : Prop :=
  ∀ b fd x buffers, s.heap b = some (.bufferevent fd x buffers) →
    ∃ seg, tenure Event.life fd s.log = some seg ∧ buffers = serve readline (arrivedOn fd seg)

/-! The states that the callbacks end in. -/

namespace St

/-- The client on `fd` gets the blocks at `x` and `b`. -/
@[simps heap files exited log]
def enroll (s : St) (fd : Fd) (x b : Addr) : St :=
  { s.opened fd with
    heap := Function.update (Function.update s.heap x (some (.client fd b))) b
      (some (.bufferevent fd x ⟨[], []⟩)) }

@[simps heap files exited log]
def receive (s : St) (b : Addr) (fd : Fd) (x : Addr) (buffers : Bufferevent) (chunk : List Byte) :
    St :=
  { s with
    heap := Function.update s.heap b (some (.bufferevent fd x buffers))
    log := s.log ++ [.arrived fd chunk] }

/-- The client at `x` is gone. -/
@[simps heap files exited log]
def gone (s : St) (fd : Fd) (x b : Addr) : St :=
  { s with
    heap := Function.update (Function.update s.heap b none) x none
    files := s.files.erase fd
    log := s.log ++ [.closed fd] }

end St

inductive Turn (readline : Readline) (s : St) : Input → St → Prop
  | refused (a : AcceptAnswers) : a.accept = none → Turn readline s (.connects a) s
  | exits (a : AcceptAnswers) (fd : Fd) : a.accept = some fd → a.client = none →
      Turn readline s (.connects a) { s.opened fd with exited := true }
  | enrolls (a : AcceptAnswers) (fd : Fd) (x : Addr) : a.accept = some fd → a.client = some x →
      Turn readline s (.connects a) (s.enroll fd x a.bufEv)
  | receives (b : Addr) (chunk : List Byte) (fd : Fd) (x : Addr) (buffers : Bufferevent) :
      s.heap b = some (.bufferevent fd x buffers) →
      Turn readline s (.arrives b chunk) (s.receive b fd x (arrives readline buffers chunk) chunk)
  | leaves (b : Addr) (fd : Fd) (x : Addr) (buffers : Bufferevent) :
      s.heap b = some (.bufferevent fd x buffers) → Turn readline s (.fails b) (s.gone fd x b)

section Callbacks

variable {readline : Readline} {base : Finset Fd} {s t : St} {b x : Addr} {fd : Fd}
  {buffers : Bufferevent}

theorem buffereventAt_eq (h : s.buffereventAt b = some (fd, x, buffers)) :
    s.heap b = some (.bufferevent fd x buffers) := by
  unfold St.buffereventAt at h
  split at h
  · next same =>
    obtain ⟨rfl, rfl, rfl⟩ : _ = fd ∧ _ = x ∧ _ = buffers := by simpa using h
    exact same
  · cases h

theorem buffereventAt_some (h : s.heap b = some (.bufferevent fd x buffers)) :
    s.buffereventAt b = some (fd, x, buffers) := by
  simp [St.buffereventAt, h]

/-- The error callback frees the two blocks of its client and closes its descriptor. -/
theorem bufErrorCallback_eq (owned : Owned base s)
    (h : s.heap b = some (.bufferevent fd x buffers)) :
    bufErrorCallback s x = some (s.gone fd x b) := by
  have client := owned.bufferevent b fd x buffers h
  have other : x ≠ b := by
    rintro rfl
    rw [client] at h
    cases h
  have opened : fd ∈ s.files :=
    (owned.files fd).mpr (.inr ((owned.sockets fd).mpr ⟨x, b, client⟩))
  have still : (Function.update s.heap b none) x = some (.client fd b) := by
    rw [Function.update_of_ne other, client]
  simp [bufErrorCallback, St.clientAt, client, St.freeBufferevent, buffereventAt_some h, St.free, h,
    still, St.close, opened, St.gone]

/-- A client that is accepted gets two new blocks and a descriptor that was closed. -/
theorem Owned.enroll (owned : Owned base s) (fresh : fd ∉ s.files) (clean : s.heap x = none)
    (clear : s.heap b = none) (other : x ≠ b) : Owned base (s.enroll fd x b) := by
  have unknown : ∀ y c, s.heap y ≠ some (.client fd c) := by
    intro y c old
    exact fresh ((owned.files fd).mpr (.inr ((owned.sockets fd).mpr ⟨y, c, old⟩)))
  have members : live Event.life (s.log ++ [.accepted fd]) = insert fd (live Event.life s.log) :=
    live_opens rfl
  have clients : ∀ y f c, (s.enroll fd x b).heap y = some (.client f c) ↔
      (y = x ∧ f = fd ∧ c = b) ∨ s.heap y = some (.client f c) := by
    intro y f c
    by_cases second : y = b
    · subst second
      simp [clear, Ne.symm other]
    · by_cases first : y = x
      · subst first
        simp [second, clean, eq_comm]
      · simp [second, first]
  have events : ∀ y f c buffers, (s.enroll fd x b).heap y = some (.bufferevent f c buffers) ↔
      (y = b ∧ f = fd ∧ c = x ∧ buffers = ⟨[], []⟩) ∨
        s.heap y = some (.bufferevent f c buffers) := by
    intro y f c buffers
    by_cases second : y = b
    · subst second
      simp [clear, eq_comm]
    · by_cases first : y = x
      · subst first
        simp [second, clean]
      · simp [second, first]
  constructor
  case client =>
    intro y f c h
    rcases (clients y f c).mp h with ⟨rfl, rfl, rfl⟩ | before
    · exact ⟨_, (events _ _ _ _).mpr (.inl ⟨rfl, rfl, rfl, rfl⟩)⟩
    · obtain ⟨buffers, pair⟩ := owned.client y f c before
      exact ⟨buffers, (events _ _ _ _).mpr (.inr pair)⟩
  case bufferevent =>
    intro c f y buffers h
    rcases (events c f y buffers).mp h with ⟨rfl, rfl, rfl, rfl⟩ | before
    · exact (clients _ _ _).mpr (.inl ⟨rfl, rfl, rfl⟩)
    · exact (clients _ _ _).mpr (.inr (owned.bufferevent c f y buffers before))
  case distinct =>
    intro y z f c d hy hz
    rcases (clients y f c).mp hy with ⟨rfl, rfl, rfl⟩ | before
    · rcases (clients z f d).mp hz with ⟨rfl, -, -⟩ | before'
      · rfl
      · exact absurd before' (unknown z d)
    · rcases (clients z f d).mp hz with ⟨rfl, rfl, rfl⟩ | before'
      · exact absurd before (unknown y c)
      · exact owned.distinct y z f c d before before'
  case sockets =>
    intro f
    show f ∈ live Event.life (s.log ++ [.accepted fd]) ↔ _
    rw [members, Finset.mem_insert, owned.sockets]
    constructor
    · rintro (rfl | ⟨y, c, before⟩)
      · exact ⟨x, b, (clients _ _ _).mpr (.inl ⟨rfl, rfl, rfl⟩)⟩
      · exact ⟨y, c, (clients _ _ _).mpr (.inr before)⟩
    · rintro ⟨y, c, h⟩
      rcases (clients y f c).mp h with ⟨-, rfl, -⟩ | before
      · exact .inl rfl
      · exact .inr ⟨y, c, before⟩
  case files =>
    intro f
    show f ∈ insert fd s.files ↔ f ∈ base ∨ f ∈ live Event.life (s.log ++ [.accepted fd])
    rw [members, Finset.mem_insert, Finset.mem_insert, owned.files]
    tauto
  case apart =>
    intro f inside
    show f ∉ live Event.life (s.log ++ [.accepted fd])
    rw [members, Finset.mem_insert, not_or]
    refine ⟨?_, owned.apart f inside⟩
    rintro rfl
    exact fresh ((owned.files f).mpr (.inl inside))

/-- An arrival changes the buffers of one connection. -/
theorem Owned.receive (owned : Owned base s) (h : s.heap b = some (.bufferevent fd x buffers))
    (buffers' : Bufferevent) (chunk : List Byte) :
    Owned base (s.receive b fd x buffers' chunk) := by
  have members : live Event.life (s.log ++ [.arrived fd chunk]) = live Event.life s.log :=
    live_quiet (by simp [Event.life])
  have clients : ∀ y f c, (s.receive b fd x buffers' chunk).heap y = some (.client f c) ↔
      s.heap y = some (.client f c) := by
    intro y f c
    by_cases same : y = b
    · subst same
      simp [h]
    · simp [same]
  constructor
  case client =>
    intro y f c hy
    obtain ⟨old, pair⟩ := owned.client y f c ((clients y f c).mp hy)
    by_cases same : c = b
    · subst same
      rw [h] at pair
      obtain ⟨rfl, rfl, -⟩ := Block.bufferevent.inj (Option.some.inj pair)
      exact ⟨buffers', by simp⟩
    · exact ⟨old, by simp [same, pair]⟩
  case bufferevent =>
    intro c f y new hc
    refine (clients y f c).mpr ?_
    by_cases same : c = b
    · subst same
      have pair : s.heap c = some (.bufferevent f y buffers) := by
        obtain ⟨rfl, rfl, -⟩ : fd = f ∧ x = y ∧ buffers' = new := by simpa using hc
        exact h
      exact owned.bufferevent c f y buffers pair
    · exact owned.bufferevent c f y new (by simpa [same] using hc)
  case distinct =>
    intro y z f c d hy hz
    exact owned.distinct y z f c d ((clients y f c).mp hy) ((clients z f d).mp hz)
  case sockets =>
    intro f
    simp only [St.receive_log, members, owned.sockets, clients]
  case files =>
    intro f
    show f ∈ s.files ↔ f ∈ base ∨ f ∈ live Event.life (s.log ++ [.arrived fd chunk])
    rw [members, owned.files]
  case apart =>
    intro f inside
    show f ∉ live Event.life (s.log ++ [.arrived fd chunk])
    rw [members]
    exact owned.apart f inside

/-- The other clients keep their blocks when one is gone. -/
theorem Owned.gone (owned : Owned base s) (h : s.heap b = some (.bufferevent fd x buffers)) :
    Owned base (s.gone fd x b) := by
  have client := owned.bufferevent b fd x buffers h
  have members : live Event.life (s.log ++ [.closed fd]) = (live Event.life s.log).erase fd :=
    live_closes rfl
  have kept : ∀ y block, (s.gone fd x b).heap y = some block ↔
      y ≠ x ∧ y ≠ b ∧ s.heap y = some block := by
    intro y block
    by_cases first : y = x
    · simp [first]
    · by_cases second : y = b
      · simp [second, Function.update_apply]
      · simp [first, second]
  have other : ∀ {y f c}, s.heap y = some (.client f c) → y ≠ x → f ≠ fd ∧ c ≠ b := by
    intro y f c hy apart
    constructor
    · rintro rfl
      exact apart (owned.distinct y x f c b hy client)
    · rintro rfl
      obtain ⟨old, pair⟩ := owned.client y f c hy
      rw [h] at pair
      obtain ⟨-, same, -⟩ := Block.bufferevent.inj (Option.some.inj pair)
      exact apart same.symm
  constructor
  case client =>
    intro y f c hy
    obtain ⟨apart, -, before⟩ := (kept _ _).mp hy
    obtain ⟨old, pair⟩ := owned.client y f c before
    refine ⟨old, (kept _ _).mpr ⟨?_, (other before apart).2, pair⟩⟩
    rintro rfl
    rw [client] at pair
    cases pair
  case bufferevent =>
    intro c f y new hc
    obtain ⟨-, apart, before⟩ := (kept _ _).mp hc
    have back := owned.bufferevent c f y new before
    refine (kept _ _).mpr ⟨?_, ?_, back⟩
    · rintro rfl
      rw [client] at back
      obtain ⟨-, same⟩ := Block.client.inj (Option.some.inj back)
      exact apart same.symm
    · rintro rfl
      rw [h] at back
      cases back
  case distinct =>
    intro y z f c d hy hz
    exact owned.distinct y z f c d ((kept _ _).mp hy).2.2 ((kept _ _).mp hz).2.2
  case sockets =>
    intro f
    show f ∈ live Event.life (s.log ++ [.closed fd]) ↔ _
    rw [members, Finset.mem_erase, owned.sockets]
    constructor
    · rintro ⟨apart, y, c, before⟩
      refine ⟨y, c, (kept _ _).mpr ⟨?_, ?_, before⟩⟩
      · rintro rfl
        rw [client] at before
        exact apart (Block.client.inj (Option.some.inj before)).1.symm
      · rintro rfl
        rw [h] at before
        cases before
    · rintro ⟨y, c, hy⟩
      obtain ⟨apart, -, before⟩ := (kept _ _).mp hy
      exact ⟨(other before apart).1, y, c, before⟩
  case files =>
    intro f
    show f ∈ s.files.erase fd ↔ f ∈ base ∨ f ∈ live Event.life (s.log ++ [.closed fd])
    have outside : fd ∉ base := fun inside =>
      owned.apart fd inside ((owned.sockets fd).mpr ⟨x, b, client⟩)
    rw [members, Finset.mem_erase, Finset.mem_erase, owned.files]
    constructor
    · rintro ⟨apart, inside | open_⟩
      · exact .inl inside
      · exact .inr ⟨apart, open_⟩
    · rintro (inside | ⟨apart, open_⟩)
      · exact ⟨fun same => outside (same ▸ inside), .inl inside⟩
      · exact ⟨apart, .inr open_⟩
  case apart =>
    intro f inside
    show f ∉ live Event.life (s.log ++ [.closed fd])
    rw [members]
    exact fun member => owned.apart f inside (Finset.mem_of_mem_erase member)

theorem step_turn (readline : Readline) {a : Input} (owned : Owned base s) (lawful : Lawful s a) :
    ∃ t, step readline s a = some t ∧ Turn readline s a t := by
  cases a with
  | connects a =>
    refine ⟨_, rfl, ?_⟩
    unfold acceptCallback
    cases accepted : a.accept with
    | none => exact .refused a accepted
    | some fd =>
      cases allocated : a.client with
      | none => exact .exits a fd accepted allocated
      | some x => exact .enrolls a fd x accepted allocated
  | arrives b chunk =>
    obtain ⟨⟨fd, x, buffers⟩, found⟩ := Option.isSome_iff_exists.mp lawful.2
    exact ⟨_, by simp [step, found, St.receive],
      .receives b chunk fd x buffers (buffereventAt_eq found)⟩
  | fails b =>
    obtain ⟨⟨fd, x, buffers⟩, found⟩ := Option.isSome_iff_exists.mp lawful.2
    have h := buffereventAt_eq found
    exact ⟨_, by simp [step, found, bufErrorCallback_eq owned h], .leaves b fd x buffers h⟩

/-- Two connections that are on have two descriptors. -/
theorem Owned.ne (owned : Owned base s) {c y : Addr} {f : Fd} {more : Bufferevent}
    (h : s.heap b = some (.bufferevent fd x buffers))
    (h' : s.heap c = some (.bufferevent f y more)) (other : c ≠ b) : f ≠ fd := by
  rintro rfl
  have client := owned.bufferevent b f x buffers h
  have client' := owned.bufferevent c f y more h'
  obtain rfl := owned.distinct y x f c b client' client
  rw [client] at client'
  exact other (Block.client.inj (Option.some.inj client')).2.symm

/-- An event on another descriptor leaves the account of a connection as it is. -/
theorem Served.other {c y : Addr} {f : Fd} {more : Bufferevent} {e : Event}
    (served : Served readline s) (h : s.heap c = some (.bufferevent f y more))
    (apart : Apart Event.life f e) (silent : arrivedOn f [e] = []) : ∃ seg,
      tenure Event.life f (s.log ++ [e]) = some seg ∧ more = serve readline (arrivedOn f seg) := by
  obtain ⟨seg, on, same⟩ := served c f y more h
  refine ⟨seg ++ [e], tenure_append on (by simpa using apart), ?_⟩
  rw [arrivedOn_append, silent, List.append_nil, same]

theorem Served.enroll (owned : Owned base s) (served : Served readline s) (fresh : fd ∉ s.files)
    (other : x ≠ b) : Served readline (s.enroll fd x b) := by
  intro c f y more h
  by_cases second : c = b
  · subst second
    obtain ⟨rfl, rfl, rfl⟩ : fd = f ∧ x = y ∧ (⟨[], []⟩ : Bufferevent) = more := by
      simpa using h
    exact ⟨[], tenure_opens rfl, rfl⟩
  · have before : s.heap c = some (.bufferevent f y more) := by
      by_cases first : c = x
      · subst first
        simp [other] at h
      · simpa [second, first] using h
    have apart : f ≠ fd := by
      rintro rfl
      have client := owned.bufferevent c f y more before
      exact fresh ((owned.files f).mpr (.inr ((owned.sockets f).mpr ⟨y, c, client⟩)))
    exact served.other before ⟨by simp [Event.life, Ne.symm apart], by simp [Event.life]⟩ rfl

theorem Served.receive (owned : Owned base s) (served : Served readline s)
    (h : s.heap b = some (.bufferevent fd x buffers)) (chunk : List Byte) :
    Served readline (s.receive b fd x (arrives readline buffers chunk) chunk) := by
  intro c f y more hc
  by_cases same : c = b
  · subst same
    obtain ⟨rfl, rfl, rfl⟩ : fd = f ∧ x = y ∧ arrives readline buffers chunk = more := by
      simpa using hc
    obtain ⟨seg, on, account⟩ := served c fd x buffers h
    refine ⟨seg ++ [.arrived fd chunk], ?_, ?_⟩
    · exact tenure_append on (apart_of_all_neither (by simp [Event.life]))
    · have chunks : arrivedOn fd [.arrived fd chunk] = [chunk] := by simp [arrivedOn]
      rw [arrivedOn_append, chunks, serve_concat, account]
  · have before : s.heap c = some (.bufferevent f y more) := by
      simpa [same] using hc
    have apart := owned.ne h before same
    exact served.other before (apart_of_neither rfl) (by simp [arrivedOn, Ne.symm apart])

theorem Served.gone (owned : Owned base s) (served : Served readline s)
    (h : s.heap b = some (.bufferevent fd x buffers)) : Served readline (s.gone fd x b) := by
  intro c f y more hc
  have kept : c ≠ x ∧ c ≠ b ∧ s.heap c = some (.bufferevent f y more) := by
    by_cases first : c = x
    · simp [first] at hc
    · by_cases second : c = b
      · simp [second, Function.update_apply] at hc
      · exact ⟨first, second, by simpa [first, second] using hc⟩
  have apart := owned.ne h kept.2.2 kept.2.1
  exact served.other kept.2.2 ⟨by simp [Event.life], by simp [Event.life, Ne.symm apart]⟩ rfl

end Callbacks

section Runs

variable {readline : Readline} {base : Finset Fd} {s t : St}

theorem turn_sound {a : Input} (owned : Owned base s) (served : Served readline s)
    (lawful : Lawful s a) (turn : Turn readline s a t) (going : t.exited = false) :
    Owned base t ∧ Served readline t := by
  cases turn with
  | refused a _ => exact ⟨owned, served⟩
  | exits a fd _ _ => cases going
  | enrolls a fd x accepted allocated =>
    have fresh := lawful.2.1 fd accepted
    obtain ⟨clean, clear, other⟩ := lawful.2.2 x allocated
    exact ⟨owned.enroll fresh clean clear other, served.enroll owned fresh other⟩
  | receives b chunk fd x buffers h =>
    exact ⟨owned.receive h _ chunk, served.receive owned h chunk⟩
  | leaves b fd x buffers h => exact ⟨owned.gone h, served.gone owned h⟩

theorem owned_initial : Owned base (initial base) where
  client := by simp [initial]
  bufferevent := by simp [initial]
  distinct := by simp [initial]
  sockets := by simp [initial]
  files := by simp [initial]
  apart := by simp [initial]

theorem reachable_sound (h : (machine readline base).Reachable s) :
    s.exited = false → Owned base s ∧ Served readline s := by
  apply h.invariant
  · rintro s rfl _
    exact ⟨owned_initial, by simp [Served, initial]⟩
  · intro s a t _ sound lawful run going
    have lasts : s.exited = false := by cases a <;> exact lawful.1
    obtain ⟨owned, served⟩ := sound lasts
    obtain ⟨t', run', turn⟩ := step_turn readline owned lawful
    obtain rfl := Option.some.inj (run'.symm.trans run)
    exact turn_sound owned served lawful turn going

end Runs

/-- As long as the program has not ended for want of memory, no block leaks, dangles or is freed
twice, and neither does a descriptor: clients, bufferevents and accepted sockets correspond one to
one, no callback faults, and the error callback takes away its own client and no other. -/
theorem connections_owned (readline : Readline) (base : Finset Fd) (s : St)
    (h : (machine readline base).Reachable s) (going : s.exited = false) :
    Owned base s ∧ (∀ a, Lawful s a → ∃ t, step readline s a = some t) ∧
      ∀ b fd x buffers, s.heap b = some (.bufferevent fd x buffers) →
        step readline s (.fails b) = some (s.gone fd x b) := by
  obtain ⟨owned, -⟩ := reachable_sound h going
  refine ⟨owned, fun a lawful => ?_, fun b fd x buffers allocated => ?_⟩
  · obtain ⟨t, run, -⟩ := step_turn readline owned lawful
    exact ⟨t, run⟩
  · simp [step, buffereventAt_some allocated, bufErrorCallback_eq owned allocated]

/-- Whatever the other clients do, and whichever addresses and descriptors are used again, the
replies to a client are those of a server that serves it alone. -/
theorem connection_served (readline : Readline) (base : Finset Fd) (s : St)
    (h : (machine readline base).Reachable s) (going : s.exited = false) : Served readline s :=
  (reachable_sound h going).2

/-! Clients on 5 and 6 connect, the first one leaves, and its blocks and descriptor are used for
the next one. -/

def visits : List Input :=
  [.connects ⟨some 5, some 100, 101⟩, .connects ⟨some 6, some 102, 103⟩,
    .arrives 101 [104, 105, 10], .arrives 103 [121], .fails 101,
    .connects ⟨some 5, some 101, 100⟩, .arrives 103 [111, 10], .arrives 100 [120, 10]]

def visited : St := ((machine newlineLine {0, 1, 2, 3}).replay (initial {0, 1, 2, 3})
  visits).getD (initial {0, 1, 2, 3})

theorem visited_reachable : (machine newlineLine {0, 1, 2, 3}).Reachable visited := by
  have start : (machine newlineLine {0, 1, 2, 3}).Reachable (initial {0, 1, 2, 3}) := .start rfl
  exact start.replay_getD visits

theorem connections_owned_visited :
    visited.heap 101 = some (.client 5 100) ∧ Owned {0, 1, 2, 3} visited :=
  ⟨by decide +kernel,
    (connections_owned newlineLine _ visited visited_reachable (by decide +kernel)).1⟩

theorem connection_served_visited : visited.heap 103 =
      some (.bufferevent 6 102 ⟨[], [ascii "You said yo\n"]⟩) ∧ Served newlineLine visited :=
  ⟨by decide +kernel, connection_served newlineLine _ visited visited_reachable
    (by decide +kernel)⟩

end JiajiaNetwork.LineEcho
