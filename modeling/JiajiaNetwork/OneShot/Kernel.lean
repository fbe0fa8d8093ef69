/- The sockets and the epoll instance behind `test_epoll_epolloneshot.c`: connections with
   their input, and registrations that one delivered event disarms. -/
import JiajiaNetwork.Lib.CArray
import JiajiaNetwork.Lib.Channel
import JiajiaNetwork.Lib.Flags

set_option autoImplicit false
set_option relaxedAutoImplicit false

namespace JiajiaNetwork.OneShot

open Lib

abbrev Fd := Int
/-- The field `events` of `epoll_event`. -/
abbrev Mask := BitVec 32

def epollIn : Mask := 0x001
def epollOneShot : Mask := 0x40000000
def epollEt : Mask := 0x80000000

structure Socket where
  /-- which of the accepted connections this is, since descriptors are given out again -/
  connection : Nat
  stream : Channel Byte
  nonblocking : Bool

/-- There are bytes, or there is the end of the stream, to be read. -/
def Socket.Waiting (x : Socket) : Prop := x.stream.unread ≠ [] ∨ x.stream.finished = true

instance (x : Socket) : Decidable x.Waiting := inferInstanceAs (Decidable (_ ∨ _))

/-- A registration: the mask that is left of it and whether an event is pending. -/
structure Entry where
  mask : Mask
  ready : Bool

def Entry.Armed (e : Entry) : Prop := has e.mask epollIn

def Entry.Once (e : Entry) : Prop := has e.mask epollOneShot

instance (e : Entry) : Decidable e.Armed := inferInstanceAs (Decidable (has _ _))
instance (e : Entry) : Decidable e.Once := inferInstanceAs (Decidable (has _ _))

/-- An arrival makes an armed entry ready. -/
def Entry.wake (e : Entry) : Entry := { e with ready := e.ready || decide e.Armed }

/-- The delivery of an event. It leaves of a one-shot registration only the two flags that say
how it reports. -/
def Entry.deliver (e : Entry) : Entry where
  mask := if e.Once then e.mask &&& (epollEt ||| epollOneShot) else e.mask
  ready := false

structure Kernel where
  sockets : Fd → Option Socket
  entries : Fd → Option Entry
  /-- the number of connections accepted so far -/
  accepted : Nat

namespace Kernel

variable (k : Kernel) (fd : Fd)

def input : Bool := (k.sockets fd).any fun x => decide x.Waiting

/-- A change at the far end of a connection. -/
def arrives (change : Channel Byte → Channel Byte) : Kernel :=
  { k with
    sockets := Function.update k.sockets fd
      ((k.sockets fd).map fun x => { x with stream := change x.stream })
    entries := Function.update k.entries fd ((k.entries fd).map Entry.wake) }

/-- `epoll_wait` returns events of these descriptors. -/
def deliver (fds : List Fd) : Kernel :=
  { k with entries := fun fd =>
      if fd ∈ fds then (k.entries fd).map Entry.deliver else k.entries fd }

/-- `accept` returns `fd`, or -1. -/
def accept : Kernel :=
  if 0 ≤ fd then
    { k with
      sockets := Function.update k.sockets fd (some ⟨k.accepted, .empty, false⟩)
      accepted := k.accepted + 1 }
  else k

/-- `EPOLL_CTL_ADD`, which fails for a descriptor that is closed or registered already. -/
def ctlAdd (events : Mask) : Kernel :=
  if (k.sockets fd).isSome ∧ k.entries fd = none then
    { k with entries := Function.update k.entries fd (some ⟨events, k.input fd⟩) }
  else k

/-- `EPOLL_CTL_MOD`, which fails for a descriptor that is not registered. -/
def ctlMod (events : Mask) : Kernel :=
  { k with
    entries := Function.update k.entries fd
      ((k.entries fd).map fun _ => ⟨events, k.input fd⟩) }

def setnonblocking : Kernel :=
  { k with
    sockets := Function.update k.sockets fd
      ((k.sockets fd).map fun x => { x with nonblocking := true }) }

def addfd (oneshot : Bool) : Kernel :=
  let events := epollIn ||| epollEt
  (k.ctlAdd fd (if oneshot then events ||| epollOneShot else events)).setnonblocking fd

def resetOnshot : Kernel := k.ctlMod fd (epollIn ||| epollEt ||| epollOneShot)

/-- `recv` returns `n` bytes. -/
def consume (n : Nat) : Kernel :=
  { k with
    sockets := Function.update k.sockets fd
      ((k.sockets fd).map fun x => { x with stream := x.stream.consume n }) }

def close : Kernel :=
  { k with
    sockets := Function.update k.sockets fd none
    entries := Function.update k.entries fd none }

/-- Which connection a descriptor stands for. -/
def connection? : Option Nat := (k.sockets fd).map Socket.connection

/-- The descriptor is registered for one event at a time. -/
def Registered : Prop := ∃ e ∈ k.entries fd, e.Once

/-- The next event of the descriptor will be reported. -/
def ArmedOnce : Prop := ∃ e ∈ k.entries fd, e.Once ∧ e.Armed

/-- Where an event would be reported and there is input, an event is pending. -/
def Alert : Prop :=
  ∀ fd, ∀ e ∈ k.entries fd, ∀ x ∈ k.sockets fd, e.Once → e.Armed → x.Waiting → e.ready = true

/-- Every registration but that of the listening socket is for one event at a time. -/
def OnceBut (listenfd : Fd) : Prop := ∀ fd, fd ≠ listenfd → ∀ e ∈ k.entries fd, e.Once

end Kernel

/-! What each operation does to registrations and connections. -/

@[simp] theorem wake_once {e : Entry} : e.wake.Once ↔ e.Once := Iff.rfl

@[simp] theorem wake_armed {e : Entry} : e.wake.Armed ↔ e.Armed := Iff.rfl

theorem deliver_mask {e : Entry} (once : e.Once) :
    e.deliver.mask = e.mask &&& (epollEt ||| epollOneShot) := if_pos once

@[simp] theorem deliver_once {e : Entry} : e.deliver.Once ↔ e.Once := by
  by_cases once : e.Once
  · have keeps : (epollEt ||| epollOneShot) &&& epollOneShot = epollOneShot := by decide
    rw [Entry.Once, Entry.Once, deliver_mask once, has, BitVec.and_assoc, keeps]
    exact Iff.rfl
  · have same : e.deliver.mask = e.mask := if_neg once
    rw [Entry.Once, Entry.Once, same]

theorem deliver_disarms {e : Entry} (once : e.Once) : ¬ e.deliver.Armed := by
  have drops : (epollEt ||| epollOneShot) &&& epollIn = 0#32 := by decide
  rw [Entry.Armed, deliver_mask once, has, BitVec.and_assoc, drops, BitVec.and_zero]
  exact fun h => h rfl

theorem Socket.Waiting.of_consume {x : Socket} {n : Nat}
    (h : Socket.Waiting { x with stream := x.stream.consume n }) : x.Waiting := by
  rcases h with rest | finished
  · left
    intro none
    apply rest
    rw [Channel.unread_consume, none, List.drop_nil]
  · exact .inr finished

namespace Kernel

variable {k : Kernel} {fd : Fd}

theorem connection?_arrives (change : Channel Byte → Channel Byte) :
    (k.arrives fd change).connection? = k.connection? := by
  ext1 x
  by_cases same : x = fd
  · subst same
    simp [connection?, arrives, Option.map_map, Function.comp_def]
  · simp [connection?, arrives, same]

theorem connection?_consume (n : Nat) : (k.consume fd n).connection? = k.connection? := by
  ext1 x
  by_cases same : x = fd
  · subst same
    simp [connection?, consume, Option.map_map, Function.comp_def]
  · simp [connection?, consume, same]

theorem connection?_accept (lower : 0 ≤ fd) :
    (k.accept fd).connection? = Function.update k.connection? fd (some k.accepted) := by
  ext1 x
  by_cases same : x = fd
  · subst same
    simp [connection?, accept, lower]
  · simp [connection?, accept, lower, same]

theorem entries_accept : (k.accept fd).entries = k.entries := by
  unfold accept
  split_ifs <;> rfl

theorem connection?_addfd (oneshot : Bool) :
    (k.addfd fd oneshot).connection? = k.connection? := by
  have added : ∀ events, (k.ctlAdd fd events).sockets = k.sockets := by
    intro events
    unfold ctlAdd
    split_ifs <;> rfl
  ext1 x
  by_cases same : x = fd
  · subst same
    simp [connection?, addfd, setnonblocking, added, Option.map_map, Function.comp_def]
  · simp [connection?, addfd, setnonblocking, added, same]

/-- `addfd` registers an open descriptor that is not registered, armed and alert. -/
theorem entries_addfd (opened : (k.sockets fd).isSome) (new : k.entries fd = none) :
    (k.addfd fd true).entries = Function.update k.entries fd
      (some ⟨epollIn ||| epollEt ||| epollOneShot, k.input fd⟩) := by
  simp [addfd, setnonblocking, ctlAdd, opened, new]

/-- Everywhere else `addfd` leaves the registrations alone. -/
theorem entries_addfd_of_not (idle : ¬ ((k.sockets fd).isSome ∧ k.entries fd = none)) :
    (k.addfd fd true).entries = k.entries := by
  simp only [addfd, setnonblocking, ctlAdd, if_neg idle]

theorem registered_arrives (change : Channel Byte → Channel Byte) (x : Fd) :
    (k.arrives fd change).Registered x ↔ k.Registered x := by
  by_cases same : x = fd
  · subst same
    simp [Registered, arrives]
  · simp [Registered, arrives, same]

theorem armedOnce_arrives (change : Channel Byte → Channel Byte) (x : Fd) :
    (k.arrives fd change).ArmedOnce x ↔ k.ArmedOnce x := by
  by_cases same : x = fd
  · subst same
    simp [ArmedOnce, arrives]
  · simp [ArmedOnce, arrives, same]

theorem registered_deliver (fds : List Fd) (x : Fd) :
    (k.deliver fds).Registered x ↔ k.Registered x := by
  by_cases mem : x ∈ fds
  · simp [Registered, deliver, mem]
  · simp [Registered, deliver, mem]

theorem armedOnce_deliver (fds : List Fd) (x : Fd) :
    (k.deliver fds).ArmedOnce x ↔ k.ArmedOnce x ∧ x ∉ fds := by
  by_cases mem : x ∈ fds
  · simp only [ArmedOnce, deliver, mem, if_true, Option.mem_map, not_true, and_false, iff_false]
    rintro ⟨-, ⟨e, -, rfl⟩, once, armed⟩
    exact deliver_disarms (deliver_once.mp once) armed
  · simp [ArmedOnce, deliver, mem]

/-- The mask that `addfd` and `reset_onshot` give. -/
theorem fresh_once (ready : Bool) : Entry.Once ⟨epollIn ||| epollEt ||| epollOneShot, ready⟩ := by
  simp only [Entry.Once, has_or]
  exact .inr (by decide)

theorem fresh_armed (ready : Bool) :
    Entry.Armed ⟨epollIn ||| epollEt ||| epollOneShot, ready⟩ := by
  simp only [Entry.Armed, has_or]
  exact .inl (.inl (by decide))

theorem registered_resetOnshot (registered : k.Registered fd) (x : Fd) :
    (k.resetOnshot fd).Registered x ↔ k.Registered x := by
  by_cases same : x = fd
  · subst same
    obtain ⟨e, entry, -⟩ := id registered
    refine iff_of_true ⟨⟨epollIn ||| epollEt ||| epollOneShot, k.input x⟩, ?_, fresh_once _⟩
      registered
    simp [resetOnshot, ctlMod, Option.mem_def.mp entry]
  · simp [Registered, resetOnshot, ctlMod, same]

/-- `reset_onshot` arms the registration again. -/
theorem armedOnce_resetOnshot (registered : k.Registered fd) : (k.resetOnshot fd).ArmedOnce fd := by
  obtain ⟨e, entry, -⟩ := registered
  refine ⟨⟨epollIn ||| epollEt ||| epollOneShot, k.input fd⟩, ?_, fresh_once _, fresh_armed _⟩
  simp [resetOnshot, ctlMod, Option.mem_def.mp entry]

theorem armedOnce_resetOnshot_of_ne {x : Fd} (other : x ≠ fd) :
    (k.resetOnshot fd).ArmedOnce x ↔ k.ArmedOnce x := by
  simp [ArmedOnce, resetOnshot, ctlMod, other]

theorem registered_close (x : Fd) : (k.close fd).Registered x ↔ k.Registered x ∧ x ≠ fd := by
  by_cases same : x = fd
  · subst same
    simp [Registered, close]
  · simp [Registered, close, same]

theorem armedOnce_close (x : Fd) : (k.close fd).ArmedOnce x ↔ k.ArmedOnce x ∧ x ≠ fd := by
  by_cases same : x = fd
  · subst same
    simp [ArmedOnce, close]
  · simp [ArmedOnce, close, same]

theorem connection?_close : (k.close fd).connection? = Function.update k.connection? fd none := by
  ext1 x
  by_cases same : x = fd
  · subst same
    simp [connection?, close]
  · simp [connection?, close, same]

end Kernel

namespace Kernel.OnceBut

variable {k : Kernel} {fd listenfd : Fd}

theorem arrives (h : k.OnceBut listenfd) (change : Channel Byte → Channel Byte) :
    (k.arrives fd change).OnceBut listenfd := by
  intro x other e he
  by_cases same : x = fd
  · subst same
    simp only [Kernel.arrives, Function.update_self, Option.mem_map] at he
    obtain ⟨old, hold, rfl⟩ := he
    exact h x other old hold
  · simp only [Kernel.arrives, Function.update_of_ne same] at he
    exact h x other e he

theorem deliver (h : k.OnceBut listenfd) (fds : List Fd) :
    (k.deliver fds).OnceBut listenfd := by
  intro x other e he
  simp only [Kernel.deliver] at he
  split_ifs at he
  · obtain ⟨old, hold, rfl⟩ := Option.mem_map.mp he
    exact deliver_once.mpr (h x other old hold)
  · exact h x other e he

theorem accept (h : k.OnceBut listenfd) : (k.accept fd).OnceBut listenfd := by
  unfold Kernel.OnceBut
  rw [entries_accept]
  exact h

theorem addfd (h : k.OnceBut listenfd) : (k.addfd fd true).OnceBut listenfd := by
  intro x other e he
  by_cases idle : (k.sockets fd).isSome ∧ k.entries fd = none
  · rw [entries_addfd idle.1 idle.2] at he
    by_cases same : x = fd
    · subst same
      simp only [Function.update_self, Option.mem_def, Option.some.injEq] at he
      subst he
      exact fresh_once _
    · rw [Function.update_of_ne same] at he
      exact h x other e he
  · rw [entries_addfd_of_not idle] at he
    exact h x other e he

theorem resetOnshot (h : k.OnceBut listenfd) : (k.resetOnshot fd).OnceBut listenfd := by
  intro x other e he
  by_cases same : x = fd
  · subst same
    simp only [Kernel.resetOnshot, ctlMod, Function.update_self, Option.mem_map] at he
    obtain ⟨-, -, rfl⟩ := he
    exact fresh_once _
  · simp only [Kernel.resetOnshot, ctlMod, Function.update_of_ne same] at he
    exact h x other e he

theorem close (h : k.OnceBut listenfd) : (k.close fd).OnceBut listenfd := by
  intro x other e he
  by_cases same : x = fd
  · subst same
    simp [Kernel.close] at he
  · simp only [Kernel.close, Function.update_of_ne same] at he
    exact h x other e he

end Kernel.OnceBut

/-! Each operation keeps the entries alert. -/

namespace Kernel.Alert

variable {k : Kernel} {fd : Fd}

theorem arrives (h : k.Alert) (change : Channel Byte → Channel Byte) :
    (k.arrives fd change).Alert := by
  intro x e he y hy once armed waiting
  by_cases same : x = fd
  · subst same
    simp only [Kernel.arrives, Function.update_self, Option.mem_map] at he
    obtain ⟨old, -, rfl⟩ := he
    have ready : old.wake.ready = (old.ready || decide old.Armed) := rfl
    rw [ready, decide_eq_true (wake_armed.mp armed), Bool.or_true]
  · simp only [Kernel.arrives, Function.update_of_ne same] at he hy
    exact h x e he y hy once armed waiting

theorem deliver (h : k.Alert) (fds : List Fd) : (k.deliver fds).Alert := by
  intro x e he y hy once armed waiting
  simp only [Kernel.deliver] at he hy
  by_cases mem : x ∈ fds
  · rw [if_pos mem] at he
    obtain ⟨old, -, rfl⟩ := Option.mem_map.mp he
    exact absurd armed (deliver_disarms (deliver_once.mp once))
  · rw [if_neg mem] at he
    exact h x e he y hy once armed waiting

theorem accept (h : k.Alert) : (k.accept fd).Alert := by
  intro x e he y hy once armed waiting
  rw [entries_accept] at he
  by_cases lower : 0 ≤ fd
  · by_cases same : x = fd
    · subst same
      simp only [Kernel.accept, lower, if_true, Function.update_self, Option.mem_def,
        Option.some.injEq] at hy
      subst hy
      -- a new connection has no input yet
      simp [Socket.Waiting, Channel.empty, Channel.unread] at waiting
    · simp only [Kernel.accept, lower, if_true, Function.update_of_ne same] at hy
      exact h x e he y hy once armed waiting
  · simp only [Kernel.accept, lower, if_false] at hy
    exact h x e he y hy once armed waiting

/-- Input that is there is found by an operation that looks for it. -/
theorem input_of_waiting {x : Socket} (hx : x ∈ k.sockets fd) (waiting : x.Waiting) :
    k.input fd = true := by
  rw [Kernel.input, Option.mem_def.mp hx, Option.any_some, decide_eq_true waiting]

theorem ctlAdd (h : k.Alert) (events : Mask) : (k.ctlAdd fd events).Alert := by
  unfold Kernel.ctlAdd
  split_ifs with idle
  · intro x e he y hy once armed waiting
    by_cases same : x = fd
    · subst same
      simp only [Function.update_self, Option.mem_def, Option.some.injEq] at he
      subst he
      exact input_of_waiting hy waiting
    · simp only [Function.update_of_ne same] at he
      exact h x e he y hy once armed waiting
  · exact h

theorem setnonblocking (h : k.Alert) : (k.setnonblocking fd).Alert := by
  intro x e he y hy once armed waiting
  by_cases same : x = fd
  · subst same
    simp only [Kernel.setnonblocking, Function.update_self, Option.mem_map] at hy
    obtain ⟨old, hold, rfl⟩ := hy
    exact h x e he old hold once armed waiting
  · simp only [Kernel.setnonblocking, Function.update_of_ne same] at hy
    exact h x e he y hy once armed waiting

theorem addfd (h : k.Alert) (oneshot : Bool) : (k.addfd fd oneshot).Alert :=
  (h.ctlAdd _).setnonblocking

theorem resetOnshot (h : k.Alert) : (k.resetOnshot fd).Alert := by
  intro x e he y hy once armed waiting
  by_cases same : x = fd
  · subst same
    simp only [Kernel.resetOnshot, ctlMod, Function.update_self, Option.mem_map] at he
    obtain ⟨-, -, rfl⟩ := he
    exact input_of_waiting hy waiting
  · simp only [Kernel.resetOnshot, ctlMod, Function.update_of_ne same] at he
    exact h x e he y hy once armed waiting

theorem consume (h : k.Alert) (n : Nat) : (k.consume fd n).Alert := by
  intro x e he y hy once armed waiting
  by_cases same : x = fd
  · subst same
    simp only [Kernel.consume, Function.update_self, Option.mem_map] at hy
    obtain ⟨old, hold, rfl⟩ := hy
    exact h x e he old hold once armed waiting.of_consume
  · simp only [Kernel.consume, Function.update_of_ne same] at hy
    exact h x e he y hy once armed waiting

theorem close (h : k.Alert) : (k.close fd).Alert := by
  intro x e he y hy once armed waiting
  by_cases same : x = fd
  · subst same
    simp [Kernel.close] at he
  · simp only [Kernel.close, Function.update_of_ne same] at he hy
    exact h x e he y hy once armed waiting

end Kernel.Alert

end JiajiaNetwork.OneShot
