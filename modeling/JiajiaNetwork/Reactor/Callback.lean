/- What one callback can do. An entry of `g_events` with status 1 is active; under the
   registration invariant a callback of an active entry never faults, and it adopts a new
   connection, re-arms its own entry or releases it. -/
import JiajiaNetwork.Reactor.Loop

set_option autoImplicit false
set_option relaxedAutoImplicit false

namespace JiajiaNetwork.Reactor

open Lib

theorem apart_accepted {fd c : Fd} (other : fd ≠ c) : Apart Event.life fd (.accepted c) :=
  ⟨by simp [Event.life, Ne.symm other], by simp [Event.life]⟩

theorem apart_closed {fd c : Fd} (other : fd ≠ c) : Apart Event.life fd (.closed c) :=
  ⟨by simp [Event.life], by simp [Event.life, Ne.symm other]⟩

/-! The registration invariant. -/

/-- The entry at `k` has status 1. -/
structure Active (s : St) (k : Int) : Prop where
  lower : 0 ≤ k
  upper : k ≤ maxEvents
  on : (s.gEvents.cell k).status = 1

instance (s : St) (k : Int) : Decidable (Active s k) :=
  decidable_of_iff (0 ≤ k ∧ k ≤ maxEvents ∧ (s.gEvents.cell k).status = 1)
    ⟨fun h => ⟨h.1, h.2.1, h.2.2⟩, fun h => ⟨h.lower, h.upper, h.on⟩⟩

/-- The descriptor and the mask of an active entry. -/
def slot (s : St) (k : Int) : Option (Fd × Mask) :=
  if Active s k then some ((s.gEvents.cell k).fd, (s.gEvents.cell k).events) else none

/-- An entry waits for input in `recvdata`, or for room in `senddata`. -/
inductive Serves (ev : Myevent) : Prop
  | reading : ev.callBack = some .recvdata → ev.events = epollIn → Serves ev
  | writing : ev.callBack = some .senddata → ev.events = epollOut → Serves ev

structure Inv (s : St) : Prop where
  mirrors : Mirrors (slot s) s.interest
  opened : ∀ k, Active s k → (s.gEvents.cell k).fd ∈ s.files
  self : ∀ k, Active s k → (s.gEvents.cell k).arg = some k
  clients : ∀ k, Active s k → k ≠ maxEvents →
    (s.gEvents.cell k).fd ∈ live Event.life s.log ∧ Serves (s.gEvents.cell k)
  listener : Active s maxEvents ∧ (s.gEvents.cell maxEvents).fd = s.lfd ∧
    (s.gEvents.cell maxEvents).callBack = some .acceptconn ∧
    (s.gEvents.cell maxEvents).events = epollIn
  unlisted : s.lfd ∉ live Event.life s.log
  sockets : ∀ fd ∈ live Event.life s.log, fd ∈ s.files
  closes : Always (ClosesLive Event.life) s.log
  position : 0 ≤ s.checkpos ∧ s.checkpos ≤ maxEvents

/-- Only the table says which entries are active. -/
theorem Active.congr {s t : St} {k : Int} (active : Active s k)
    (h : t.gEvents = s.gEvents := by rfl) : Active t k where
  lower := active.lower
  upper := active.upper
  on := h ▸ active.on

theorem slot_active {s : St} {k : Int} (active : Active s k) :
    slot s k = some ((s.gEvents.cell k).fd, (s.gEvents.cell k).events) := if_pos active

theorem slot_idle {s : St} {k : Int} (idle : ¬ Active s k) : slot s k = none := if_neg idle

theorem slot_eq_some {s : St} {k : Int} {fd : Fd} {mask : Mask} :
    slot s k = some (fd, mask) ↔
      Active s k ∧ (s.gEvents.cell k).fd = fd ∧ (s.gEvents.cell k).events = mask := by
  by_cases active : Active s k
  · rw [slot_active active]
    simp [active]
  · rw [slot_idle active]
    simp [active]

/-- Active entries hold different descriptors. -/
theorem Inv.distinct {s : St} (inv : Inv s) {k l : Int} (hk : Active s k) (hl : Active s l)
    (same : (s.gEvents.cell k).fd = (s.gEvents.cell l).fd) : k = l := by
  apply inv.mirrors.unique (slot_active hk)
  rw [same]
  exact slot_active hl

theorem Active.get {s : St} {k : Int} (active : Active s k) :
    s.gEvents.get k = some (s.gEvents.cell k) := by
  have lower := active.lower
  have upper := active.upper
  exact CArray.get_eq_some _ lower (by omega)

theorem Active.set {s : St} {k : Int} (active : Active s k) (ev : Myevent) :
    s.gEvents.set k ev = some (s.gEvents.put k ev) := by
  have lower := active.lower
  have upper := active.upper
  exact CArray.set_eq_some _ _ lower (by omega)

/-! The states a callback can end in. -/

namespace St

/-- Entry `i` takes the connection on `cfd`. -/
@[simps ctl gEvents checkpos lfd files interest log]
def adopt (s : St) (i : Int) (cfd : Fd) (time : Int) : St :=
  { s with
    gEvents := s.gEvents.put i { s.gEvents.cell i with
      fd := cfd, callBack := some .recvdata, events := epollIn, arg := some i, status := 1
      lastActive := time }
    files := insert cfd s.files
    interest := s.interest.add cfd epollIn i
    log := s.log ++ [.accepted cfd] }

/-- Entry `k` goes idle and its descriptor is closed. -/
@[simps ctl gEvents checkpos lfd files interest log]
def release (s : St) (k : Int) : St :=
  { s with
    gEvents := s.gEvents.put k { s.gEvents.cell k with status := 0 }
    files := s.files.erase (s.gEvents.cell k).fd
    interest := s.interest.del (s.gEvents.cell k).fd
    log := s.log ++ [.closed (s.gEvents.cell k).fd] }

/-- Entry `k` becomes `ev`, which waits on the same descriptor. -/
@[simps ctl gEvents checkpos lfd files interest log]
def rearm (s : St) (k : Int) (ev : Myevent) : St :=
  { s with
    gEvents := s.gEvents.put k ev
    interest := (s.interest.del (s.gEvents.cell k).fd).add (s.gEvents.cell k).fd ev.events k }

/-- The history goes on with `new`. -/
@[simps ctl gEvents checkpos lfd files interest log]
def told (s : St) (new : List Event) : St := { s with log := s.log ++ new }

end St

/-- The entry behind `eventset` and `eventadd`. -/
@[simps fd events arg callBack status buf len lastActive]
def Myevent.await (ev : Myevent) (k : Int) (f : Callback) (events : Mask) (time : Int) : Myevent :=
  { ev with
    callBack := some f, events, arg := some k, status := 1, lastActive := time }

/-- What `recvdata` and `senddata` do with their entry `ev` at `k`: the events they log, and
the entry they re-arm, or none when they give it up. -/
inductive Outcome (k : Int) (ev : Myevent) (a : Answers) :
    Callback → List Event → Option Myevent → Prop
  | ended :
      a.recv = none ∨ a.recv = some [] → Outcome k ev a .recvdata [.recv ev.fd a.recv] none
  | filled (bytes : List Byte) :
      a.recv = some bytes → bytes ≠ [] → bytes.length < buflen →
      Outcome k ev a .recvdata [.recv ev.fd (some bytes)]
        (some ({ ev with
          buf := (overlay bytes ev.buf).set bytes.length 0
          len := BitVec.ofNat 32 bytes.length }.await k .senddata epollOut a.time))
  | overfilled (bytes : List Byte) :
      a.recv = some bytes → bytes.length = buflen →
      Outcome k ev a .recvdata [.recv ev.fd (some bytes), .spilled k]
        (some ({ ev with buf := overlay bytes ev.buf, len := 0 }.await k .senddata epollOut a.time))
  | failed (len : Option Nat) :
      a.taken ev.outgoing = len → len.getD 0 = 0 →
      Outcome k ev a .senddata [.send ev.fd ev.outgoing len] none
  | sent (len : Nat) :
      a.taken ev.outgoing = some len → 0 < len →
      Outcome k ev a .senddata [.send ev.fd ev.outgoing (some len)]
        (some (ev.await k .recvdata epollIn a.time))

/-- The results of a callback of entry `k`, from the state that has logged its call. -/
inductive Called (s : St) (k : Int) (a : Answers) : Callback → St → Prop
  | refused : a.accept = none → Called s k a .acceptconn s
  | leaked (cfd : Fd) :
      a.accept = some cfd → freeSlot s = maxEvents ∨ a.fcntl = false →
      Called s k a .acceptconn (s.opened cfd)
  | adopted (cfd : Fd) :
      a.accept = some cfd → 0 ≤ freeSlot s → freeSlot s < maxEvents →
      (s.gEvents.cell (freeSlot s)).status = 0 → a.fcntl = true →
      Called s k a .acceptconn (s.adopt (freeSlot s) cfd a.time)
  | released (f : Callback) (new : List Event) :
      Outcome k (s.gEvents.cell k) a f new none → Called s k a f ((s.told new).release k)
  | rearmed (f : Callback) (new : List Event) (ev : Myevent) :
      Outcome k (s.gEvents.cell k) a f new (some ev) → Called s k a f ((s.told new).rearm k ev)

/-! The operations on entries that are in range. -/

section Checked

variable {s : St} {k : Int} {fd : Fd} {events : Mask} {a : Answers} {time : Int}

theorem eventset_eq (lower : 0 ≤ k) (upper : k ≤ maxEvents) (f : Callback) (arg : Int) :
    s.eventset k fd f arg time = some { s with
      gEvents := s.gEvents.put k { s.gEvents.cell k with
        fd, callBack := some f, events := 0, arg := some arg, status := 0
        lastActive := time } } := by
  simp [St.eventset, CArray.get_eq_some s.gEvents lower (by omega),
    CArray.set_eq_some s.gEvents _ lower (by omega)]

/-- Adding an idle entry whose descriptor is open. -/
theorem eventadd_eq (lower : 0 ≤ k) (upper : k ≤ maxEvents)
    (idle : (s.gEvents.cell k).status ≠ 1) (opened : (s.gEvents.cell k).fd ∈ s.files) :
    s.eventadd events k = some { s with
      gEvents := s.gEvents.put k { s.gEvents.cell k with events, status := 1 }
      interest := s.interest.add (s.gEvents.cell k).fd events k } := by
  simp [St.eventadd, CArray.get_eq_some s.gEvents lower (by omega),
    CArray.set_eq_some s.gEvents _ lower (by omega), idle, opened]

theorem eventdel_eq (active : Active s k) :
    s.eventdel k = some { s with
      gEvents := s.gEvents.put k { s.gEvents.cell k with status := 0 }
      interest := s.interest.del (s.gEvents.cell k).fd } := by
  simp [St.eventdel, active.get, active.set, active.on]

theorem close_eq (opened : fd ∈ s.files) :
    s.close fd = some { s with
      files := s.files.erase fd, interest := s.interest.del fd, log := s.log ++ [.closed fd] } :=
  if_pos opened

/-- `eventdel` and `close`, in this order, release the entry. -/
theorem eventdel_close_eq (active : Active s k) (opened : (s.gEvents.cell k).fd ∈ s.files) :
    (do
      let s ← s.eventdel k
      let ev ← s.gEvents.get k
      s.close ev.fd) = some (s.release k) := by
  have lower := active.lower
  have upper := active.upper
  rw [eventdel_eq active]
  simp [CArray.get_eq_some _ lower (show k < maxEvents + 1 by omega), St.close, opened,
    St.release]

/-- `close` and `eventdel`, as the sweep does it, release the entry as well. -/
theorem close_eventdel_eq (active : Active s k) (opened : (s.gEvents.cell k).fd ∈ s.files) :
    (do
      let s ← s.close (s.gEvents.cell k).fd
      s.eventdel k) = some (s.release k) := by
  rw [close_eq opened]
  have kept : Active { s with
      files := s.files.erase (s.gEvents.cell k).fd
      interest := s.interest.del (s.gEvents.cell k).fd
      log := s.log ++ [.closed (s.gEvents.cell k).fd] } k := active.congr
  simp [eventdel_eq kept, St.release]

/-- `eventdel`, changes to other fields, `eventset` and `eventadd` re-arm the entry. -/
theorem eventset_eventadd_eq (lower : 0 ≤ k) (upper : k ≤ maxEvents) (opened : fd ∈ s.files)
    (f : Callback) :
    (do
      let s ← s.eventset k fd f k time
      s.eventadd events k) = some { s with
        gEvents := s.gEvents.put k { s.gEvents.cell k with
          fd, callBack := some f, events, arg := some k, status := 1, lastActive := time }
        interest := s.interest.add fd events k } := by
  rw [eventset_eq lower upper]
  simp [eventadd_eq, lower, upper, opened]

/-- The search ends at an entry with status 0, or finds all of them taken. -/
theorem freeSlot_spec (s : St) :
    (0 ≤ freeSlot s ∧ freeSlot s < maxEvents ∧ (s.gEvents.cell (freeSlot s)).status = 0) ∨
    (freeSlot s = maxEvents ∧
      ∀ j, 0 ≤ j → j < maxEvents → (s.gEvents.cell j).status ≠ 0) := by
  have count : (0 : Int) + (maxEvents.toNat : Int) = maxEvents := by decide
  rcases firstIndex_spec (fun i => decide ((s.gEvents.cell i).status = 0)) maxEvents.toNat 0
    with ⟨lower, upper, passes⟩ | ⟨stop, none⟩
  · rw [count] at upper
    exact .inl ⟨lower, upper, of_decide_eq_true passes⟩
  · rw [count] at stop none
    exact .inr ⟨stop, fun j lower upper => of_decide_eq_false (none j lower upper)⟩

theorem acceptconn_called (s : St) (k : Int) (a : Answers) :
    ∃ t, acceptconn s a = some t ∧ Called s k a .acceptconn t := by
  cases answer : a.accept with
  | none => exact ⟨s, by simp [acceptconn, answer], .refused answer⟩
  | some cfd =>
    have search : freeSlot (s.opened cfd) = freeSlot s := rfl
    have range : 0 ≤ freeSlot s ∧ freeSlot s ≤ maxEvents := by
      rcases freeSlot_spec s with ⟨lower, upper, -⟩ | ⟨full, -⟩
      · exact ⟨lower, by omega⟩
      · exact ⟨by rw [full]; decide, by omega⟩
    have get : ∀ m : St, m.gEvents.get (freeSlot s) = some (m.gEvents.cell (freeSlot s)) :=
      fun m => CArray.get_eq_some _ range.1 (by omega)
    by_cases full : freeSlot s = maxEvents
    · refine ⟨s.opened cfd, ?_, .leaked cfd answer (.inl full)⟩
      have last : (s.opened cfd).gEvents.get maxEvents = some (s.gEvents.cell maxEvents) :=
        CArray.get_eq_some _ (by decide) (by omega)
      simp [acceptconn, answer, search, full, last]
    · rcases freeSlot_spec s with ⟨lower, upper, free⟩ | ⟨taken, -⟩
      · cases nonblocking : a.fcntl with
        | false =>
          refine ⟨s.opened cfd, ?_, .leaked cfd answer (.inr nonblocking)⟩
          simp [acceptconn, answer, search, get, full, nonblocking]
        | true =>
          refine ⟨_, ?_, .adopted cfd answer lower upper free nonblocking⟩
          have added := @eventset_eventadd_eq (s.opened cfd) (freeSlot s) cfd epollIn a.time
            range.1 range.2 (by simp [St.opened]) .recvdata
          simp only [acceptconn, answer, search, if_neg full, nonblocking, Bool.true_eq_false,
            if_false]
          rw [← bind_assoc, added]
          simp [get, St.adopt, St.opened]
      · exact absurd taken full

theorem recvdata_called (active : Active s k) (opened : (s.gEvents.cell k).fd ∈ s.files)
    (allowed : ∀ bytes ∈ a.recv, bytes.length ≤ buflen) :
    ∃ t, recvdata s (s.gEvents.cell k).fd k a = some t ∧ Called s k a .recvdata t := by
  have lower := active.lower
  have upper := active.upper
  have told : Active (s.told [.recv (s.gEvents.cell k).fd a.recv]) k := active.congr
  have finish : a.recv = none ∨ a.recv = some [] →
      recvdata s (s.gEvents.cell k).fd k a =
        some ((s.told [.recv (s.gEvents.cell k).fd a.recv]).release k) := by
    intro ends
    rw [← eventdel_close_eq told opened]
    rcases ends with failed | closed
    · simp [recvdata, opened, active.get, failed, St.emit, St.told]
    · simp [recvdata, opened, active.get, closed, St.emit, St.told]
  by_cases ends : a.recv = none ∨ a.recv = some []
  · exact ⟨_, finish ends, .released _ _ (.ended ends)⟩
  · obtain ⟨bytes, answer, nonempty⟩ : ∃ bytes, a.recv = some bytes ∧ bytes ≠ [] := by
      obtain ⟨failed, closed⟩ := not_or.mp ends
      obtain ⟨bytes, answer⟩ := Option.ne_none_iff_exists'.mp failed
      exact ⟨bytes, answer, fun empty => closed (empty ▸ answer)⟩
    have short := allowed bytes answer
    have stored : recvdata s (s.gEvents.cell k).fd k a = (do
        let m ← { s.emit (.recv (s.gEvents.cell k).fd a.recv) with
          gEvents := s.gEvents.put k { s.gEvents.cell k with
            buf := overlay bytes (s.gEvents.cell k).buf, status := 0 }
          interest := s.interest.del (s.gEvents.cell k).fd }.storeLen k bytes.length
        let m ← m.eventset k (s.gEvents.cell k).fd .senddata k a.time
        m.eventadd epollOut k) := by
      cases bytes with
      | nil => exact absurd rfl nonempty
      | cons b rest =>
        have filled : Active { s.emit (.recv (s.gEvents.cell k).fd a.recv) with
            gEvents := s.gEvents.put k { s.gEvents.cell k with
              buf := overlay (b :: rest) (s.gEvents.cell k).buf } } k :=
          ⟨lower, upper, by simp [active.on]⟩
        have deleted := eventdel_eq filled
        simp only [St.emit, answer] at deleted
        simp [recvdata, opened, active.get, active.set, answer, St.emit, deleted]
    have get : ∀ g : CArray (maxEvents + 1) Myevent, g.get k = some (g.cell k) :=
      fun g => CArray.get_eq_some g lower (by omega)
    have set : ∀ (g : CArray (maxEvents + 1) Myevent) (ev : Myevent),
        g.set k ev = some (g.put k ev) :=
      fun g ev => CArray.set_eq_some g ev lower (by omega)
    by_cases full : bytes.length = buflen
    · refine ⟨_, ?_, .rearmed _ _ _ (.overfilled bytes answer full)⟩
      -- the zero behind the buffer clears the low byte of 128
      have cleared : BitVec.ofNat 32 buflen &&& 4294967040#32 = 0#32 := by decide
      rw [stored]
      simp [St.storeLen, get, set, full, eventset_eq, eventadd_eq, lower, upper, St.emit, opened,
        St.rearm, St.told, Myevent.await, cleared, answer]
    · refine ⟨_, ?_, .rearmed _ _ _ (.filled bytes answer nonempty (by omega))⟩
      rw [stored]
      have fits : bytes.length < buflen := by omega
      simp [St.storeLen, get, set, fits, eventset_eq, eventadd_eq, lower, upper, St.emit, opened,
        St.rearm, St.told, Myevent.await, answer]

theorem senddata_called (active : Active s k) (opened : (s.gEvents.cell k).fd ∈ s.files) :
    ∃ t, senddata s (s.gEvents.cell k).fd k a = some t ∧ Called s k a .senddata t := by
  have lower := active.lower
  have upper := active.upper
  have told : ∀ new, Active (s.told new) k := fun new => active.congr
  have finish : ∀ len, a.taken (s.gEvents.cell k).outgoing = len → len.getD 0 = 0 →
      senddata s (s.gEvents.cell k).fd k a = some ((s.told
        [.send (s.gEvents.cell k).fd (s.gEvents.cell k).outgoing len]).release k) := by
    intro len answer none
    rw [← eventdel_close_eq (told _) opened]
    simp [senddata, opened, active.get, answer, none, St.emit, St.told]
  cases answer : a.taken (s.gEvents.cell k).outgoing with
  | none => exact ⟨_, finish none answer rfl, .released _ _ (.failed none answer rfl)⟩
  | some len =>
    by_cases positive : 0 < len
    · refine ⟨_, ?_, .rearmed _ _ _ (.sent len answer positive)⟩
      have deleted := eventdel_eq (told [.send (s.gEvents.cell k).fd
        (s.gEvents.cell k).outgoing (some len)])
      simp only [St.told] at deleted
      simp [senddata, opened, active.get, answer, positive, deleted, eventset_eq, eventadd_eq,
        lower, upper, St.rearm, St.emit, St.told, Myevent.await]
    · have none : (some len).getD 0 = 0 := by simpa using positive
      exact ⟨_, finish (some len) answer none, .released _ _ (.failed (some len) answer none)⟩

end Checked

/-! A callback of an active entry. -/

theorem Inv.callBack_called {s : St} (inv : Inv s) {k : Int} {a : Answers} (active : Active s k)
    (allowed : Allowed s a) :
    ∃ f t, (s.gEvents.cell k).callBack = some f ∧ callBack s k a = some t ∧
      Called (s.emit (.invoked k f (s.gEvents.cell k).fd)) k a f t := by
  have arg := inv.self k active
  have opened := inv.opened k active
  have logged : ∀ f, Active (s.emit (.invoked k f (s.gEvents.cell k).fd)) k := fun f => active.congr
  obtain ⟨f, held⟩ : ∃ f, (s.gEvents.cell k).callBack = some f := by
    by_cases last : k = maxEvents
    · subst last
      exact ⟨_, inv.listener.2.2.1⟩
    · cases (inv.clients k active last).2 with
      | reading held _ => exact ⟨_, held⟩
      | writing held _ => exact ⟨_, held⟩
  cases f with
  | acceptconn =>
    obtain ⟨t, ran, called⟩ := acceptconn_called (s.emit (.invoked k .acceptconn _)) k a
    exact ⟨_, t, held, by simpa [callBack, active.get, held, arg] using ran, called⟩
  | recvdata =>
    have same : callBack s k a = recvdata (s.emit (.invoked k .recvdata (s.gEvents.cell k).fd))
        (s.gEvents.cell k).fd k a := by
      simp [callBack, active.get, held, arg]
    obtain ⟨t, ran, called⟩ := recvdata_called (logged .recvdata) opened allowed.recv
    exact ⟨_, t, held, same.trans ran, called⟩
  | senddata =>
    have same : callBack s k a = senddata (s.emit (.invoked k .senddata (s.gEvents.cell k).fd))
        (s.gEvents.cell k).fd k a := by
      simp [callBack, active.get, held, arg]
    obtain ⟨t, ran, called⟩ := senddata_called (logged .senddata) opened
    exact ⟨_, t, held, same.trans ran, called⟩

end JiajiaNetwork.Reactor
