/- The table of the reactor across the elementary changes of state: a socket is opened or
   closed, an entry is armed or disarmed. Every callback is made of these. -/
import JiajiaNetwork.Reactor.Callback

set_option autoImplicit false
set_option relaxedAutoImplicit false

namespace JiajiaNetwork.Reactor

open Lib

section Entries

variable {s t : St} {k l : Int} {ev : Myevent}

theorem active_congr (h : t.gEvents = s.gEvents) : Active t k ↔ Active s k :=
  ⟨fun active => active.congr h.symm, fun active => active.congr h⟩

theorem slot_congr (h : t.gEvents = s.gEvents) : slot t = slot s := by
  ext1 l
  unfold slot
  simp only [active_congr h, h]

theorem active_put (h : t.gEvents = s.gEvents.put k ev) (other : l ≠ k) :
    Active t l ↔ Active s l := by
  constructor
  · intro active
    exact ⟨active.lower, active.upper, by simpa [h, other] using active.on⟩
  · intro active
    exact ⟨active.lower, active.upper, by simpa [h, other] using active.on⟩

/-- Overwriting an entry in range changes its slot only. -/
theorem slot_put (h : t.gEvents = s.gEvents.put k ev) (lower : 0 ≤ k) (upper : k ≤ maxEvents) :
    slot t = Function.update (slot s) k
      (if ev.status = 1 then some (ev.fd, ev.events) else none) := by
  ext1 l
  by_cases same : l = k
  · subst same
    rw [Function.update_self]
    split_ifs with on
    · exact slot_eq_some.mpr ⟨⟨lower, upper, by simp [h, on]⟩, by simp [h], by simp [h]⟩
    · exact slot_idle fun active => on (by simpa [h] using active.on)
  · rw [Function.update_of_ne same]
    unfold slot
    simp only [active_put h same]
    simp [h, same]

end Entries

/-! What the elementary changes of state preserve. -/

section Preserved

variable {s t : St} {k : Int}

/-- Changes of the control location and of the sweep position, and events that neither open
nor close a descriptor. -/
theorem Inv.congr (inv : Inv s) (entries : t.gEvents = s.gEvents)
    (registered : t.interest = s.interest) (files : t.files = s.files) (lfd : t.lfd = s.lfd)
    (log : ∃ new, t.log = s.log ++ new ∧ ∀ e ∈ new, e.life = .neither)
    (position : 0 ≤ t.checkpos ∧ t.checkpos ≤ maxEvents) : Inv t := by
  obtain ⟨new, extended, quiet⟩ := log
  have sockets : live Event.life t.log = live Event.life s.log := by
    rw [extended, live_quiet quiet]
  constructor
  case mirrors =>
    rw [slot_congr entries, registered]
    exact inv.mirrors
  case opened =>
    intro l active
    rw [entries, files]
    exact inv.opened l ((active_congr entries).mp active)
  case self =>
    intro l active
    rw [entries]
    exact inv.self l ((active_congr entries).mp active)
  case clients =>
    intro l active client
    rw [entries, sockets]
    exact inv.clients l ((active_congr entries).mp active) client
  case listener =>
    obtain ⟨active, rest⟩ := inv.listener
    rw [entries, lfd]
    exact ⟨(active_congr entries).mpr active, rest⟩
  case unlisted =>
    rw [sockets, lfd]
    exact inv.unlisted
  case sockets =>
    rw [sockets, files]
    exact inv.sockets
  case closes =>
    rw [extended]
    exact closesLive_quiet inv.closes quiet
  case position => exact position

theorem Inv.goto (inv : Inv s) (ctl : Control) : Inv { s with ctl } :=
  inv.congr rfl rfl rfl rfl ⟨[], by simp, by simp⟩ inv.position

theorem Inv.emit (inv : Inv s) {e : Event} (quiet : e.life = .neither) : Inv (s.emit e) :=
  inv.congr rfl rfl rfl rfl ⟨[e], rfl, by simpa using quiet⟩ inv.position

theorem live_opened {cfd : Fd} :
    live Event.life (s.opened cfd).log = insert cfd (live Event.life s.log) :=
  live_opens rfl

/-- A connection that no entry takes. -/
theorem Inv.opened_socket (inv : Inv s) {cfd : Fd} (fresh : cfd ∉ s.files) :
    Inv (s.opened cfd) := by
  have sockets : live Event.life (s.opened cfd).log = insert cfd (live Event.life s.log) :=
    live_opened
  have entries : (s.opened cfd).gEvents = s.gEvents := rfl
  constructor
  case mirrors => exact (slot_congr entries).symm ▸ inv.mirrors
  case opened =>
    intro l active
    exact Finset.mem_insert_of_mem (inv.opened l ((active_congr entries).mp active))
  case self => exact fun l active => inv.self l ((active_congr entries).mp active)
  case clients =>
    intro l active client
    obtain ⟨member, serves⟩ := inv.clients l ((active_congr entries).mp active) client
    rw [sockets]
    exact ⟨Finset.mem_insert_of_mem member, serves⟩
  case listener =>
    obtain ⟨active, rest⟩ := inv.listener
    exact ⟨(active_congr entries).mpr active, rest⟩
  case unlisted =>
    rw [sockets, Finset.mem_insert, not_or]
    refine ⟨?_, inv.unlisted⟩
    rintro (same : s.lfd = cfd)
    obtain ⟨active, held, -⟩ := inv.listener
    exact fresh (same ▸ held ▸ inv.opened maxEvents active)
  case sockets =>
    intro fd member
    rw [sockets] at member
    rcases Finset.mem_insert.mp member with rfl | old
    · exact Finset.mem_insert_self fd s.files
    · exact Finset.mem_insert_of_mem (inv.sockets fd old)
  case closes =>
    refine always_append.mpr ⟨inv.closes, ?_⟩
    simp [always_cons, ClosesLive, Event.life]
  case position => exact inv.position

/-- A connection is closed that no entry holds. -/
def St.shut (s : St) (fd : Fd) : St :=
  { s with files := s.files.erase fd, log := s.log ++ [.closed fd] }

theorem active_shut {l : Int} {fd : Fd} : Active (s.shut fd) l ↔ Active s l :=
  active_congr (s := s) rfl

theorem Inv.shut (inv : Inv s) {fd : Fd} (member : fd ∈ live Event.life s.log)
    (unheld : ∀ l, Active s l → (s.gEvents.cell l).fd ≠ fd) : Inv (s.shut fd) := by
  have sockets : live Event.life (s.shut fd).log = (live Event.life s.log).erase fd :=
    live_closes rfl
  constructor
  case mirrors =>
    have same : slot (s.shut fd) = slot s := slot_congr rfl
    rw [same]
    exact inv.mirrors
  case opened =>
    intro l active
    have before := active_shut.mp active
    exact Finset.mem_erase.mpr ⟨unheld l before, inv.opened l before⟩
  case self => exact fun l active => inv.self l (active_shut.mp active)
  case clients =>
    intro l active client
    have before := active_shut.mp active
    obtain ⟨old, serves⟩ := inv.clients l before client
    rw [sockets]
    exact ⟨Finset.mem_erase.mpr ⟨unheld l before, old⟩, serves⟩
  case listener =>
    obtain ⟨active, rest⟩ := inv.listener
    exact ⟨active_shut.mpr active, rest⟩
  case unlisted =>
    rw [sockets]
    exact fun old => inv.unlisted (Finset.mem_of_mem_erase old)
  case sockets =>
    intro f old
    rw [sockets] at old
    obtain ⟨other, before⟩ := Finset.mem_erase.mp old
    exact Finset.mem_erase.mpr ⟨other, inv.sockets f before⟩
  case closes =>
    refine always_append.mpr ⟨inv.closes, ?_⟩
    simp [always_cons, ClosesLive, Event.life, member]
  case position => exact inv.position

/-- An entry goes idle and its descriptor is taken off the interest list. -/
def St.disarm (s : St) (k : Int) : St :=
  { s with
    gEvents := s.gEvents.put k { s.gEvents.cell k with status := 0 }
    interest := s.interest.del (s.gEvents.cell k).fd }

theorem not_active_disarm : ¬ Active (s.disarm k) k :=
  fun active => absurd active.on (by simp [St.disarm])

theorem active_disarm {l : Int} (other : l ≠ k) : Active (s.disarm k) l ↔ Active s l :=
  active_put rfl other

/-- The entries that are still active are other ones. -/
theorem Active.of_disarm {l : Int} (still : Active (s.disarm k) l) : l ≠ k ∧ Active s l := by
  have other : l ≠ k := by
    intro same
    subst same
    exact not_active_disarm still
  exact ⟨other, (active_disarm other).mp still⟩

theorem Inv.disarm (inv : Inv s) (active : Active s k) (client : k ≠ maxEvents) :
    Inv (s.disarm k) := by
  have entry : ∀ {l}, l ≠ k → (s.disarm k).gEvents.cell l = s.gEvents.cell l :=
    fun other => CArray.put_cell_of_ne _ _ other
  constructor
  case mirrors =>
    have idle : slot (s.disarm k) = Function.update (slot s) k none := by
      rw [slot_put (s := s) rfl active.lower active.upper]
      simp
    rw [idle]
    exact inv.mirrors.del (slot_active active)
  case opened =>
    intro l still
    obtain ⟨other, old⟩ := still.of_disarm
    rw [entry other]
    exact inv.opened l old
  case self =>
    intro l still
    obtain ⟨other, old⟩ := still.of_disarm
    rw [entry other]
    exact inv.self l old
  case clients =>
    intro l still
    obtain ⟨other, old⟩ := still.of_disarm
    rw [entry other]
    exact inv.clients l old
  case listener =>
    obtain ⟨last, rest⟩ := inv.listener
    rw [entry (Ne.symm client)]
    exact ⟨(active_disarm (Ne.symm client)).mpr last, rest⟩
  case unlisted => exact inv.unlisted
  case sockets => exact inv.sockets
  case closes => exact inv.closes
  case position => exact inv.position

/-- An idle entry takes over an open connection that no entry holds. -/
theorem Inv.arm (inv : Inv s) (lower : 0 ≤ k) (upper : k < maxEvents) (idle : ¬ Active s k)
    {ev : Myevent} (on : ev.status = 1) (self : ev.arg = some k) (serves : Serves ev)
    (member : ev.fd ∈ live Event.life s.log)
    (unheld : ∀ l, Active s l → (s.gEvents.cell l).fd ≠ ev.fd) :
    Inv { s with
      gEvents := s.gEvents.put k ev, interest := s.interest.add ev.fd ev.events k } := by
  have active : ∀ {l : Int}, l ≠ k → (Active { s with
      gEvents := s.gEvents.put k ev, interest := s.interest.add ev.fd ev.events k } l ↔
        Active s l) := fun other => active_put rfl other
  constructor
  case mirrors =>
    have armed : slot { s with
        gEvents := s.gEvents.put k ev, interest := s.interest.add ev.fd ev.events k } =
          Function.update (slot s) k (some (ev.fd, ev.events)) := by
      rw [slot_put (s := s) rfl lower (by omega), if_pos on]
    rw [armed]
    refine inv.mirrors.add (slot_idle idle) ?_
    intro l mask held
    obtain ⟨old, same, -⟩ := slot_eq_some.mp held
    exact unheld l old same
  case opened =>
    intro l now
    by_cases same : l = k
    · subst same
      rw [CArray.put_cell_same]
      exact inv.sockets _ member
    · rw [CArray.put_cell_of_ne _ _ same]
      exact inv.opened l ((active same).mp now)
  case self =>
    intro l now
    by_cases same : l = k
    · subst same
      rw [CArray.put_cell_same]
      exact self
    · rw [CArray.put_cell_of_ne _ _ same]
      exact inv.self l ((active same).mp now)
  case clients =>
    intro l now client
    by_cases same : l = k
    · subst same
      rw [CArray.put_cell_same]
      exact ⟨member, serves⟩
    · rw [CArray.put_cell_of_ne _ _ same]
      exact inv.clients l ((active same).mp now) client
  case listener =>
    obtain ⟨last, rest⟩ := inv.listener
    have other : maxEvents ≠ k := by omega
    rw [CArray.put_cell_of_ne _ _ other]
    exact ⟨(active other).mpr last, rest⟩
  case unlisted => exact inv.unlisted
  case sockets => exact inv.sockets
  case closes => exact inv.closes
  case position => exact inv.position

theorem Inv.adopt (inv : Inv s) {i : Int} {cfd : Fd} {time : Int} (lower : 0 ≤ i)
    (upper : i < maxEvents) (free : (s.gEvents.cell i).status = 0) (fresh : cfd ∉ s.files) :
    Inv (s.adopt i cfd time) := by
  have entries : (s.opened cfd).gEvents = s.gEvents := rfl
  refine (inv.opened_socket fresh).arm lower upper ?_ rfl rfl (.reading rfl rfl) ?_ ?_
  · intro active
    have on := active.on
    rw [entries, free] at on
    exact absurd on (by decide)
  · rw [live_opened]
    exact Finset.mem_insert_self cfd _
  · rintro l active (same : (s.gEvents.cell l).fd = cfd)
    exact fresh (same ▸ inv.opened l ((active_congr entries).mp active))

/-- Once an entry is idle, no entry holds its descriptor. -/
theorem Inv.unheld (inv : Inv s) (active : Active s k) :
    ∀ l, Active (s.disarm k) l → ((s.disarm k).gEvents.cell l).fd ≠ (s.gEvents.cell k).fd := by
  intro l still same
  obtain ⟨other, old⟩ := still.of_disarm
  rw [St.disarm, CArray.put_cell_of_ne _ _ other] at same
  exact other (inv.distinct old active same)

theorem Inv.release (inv : Inv s) (active : Active s k) (client : k ≠ maxEvents) :
    Inv (s.release k) :=
  (inv.disarm active client).shut (inv.clients k active client).1 (inv.unheld active)

theorem Inv.rearm (inv : Inv s) (active : Active s k) (client : k ≠ maxEvents) {ev : Myevent}
    (same : ev.fd = (s.gEvents.cell k).fd) (on : ev.status = 1) (self : ev.arg = some k)
    (serves : Serves ev) : Inv (s.rearm k ev) := by
  have upper := active.upper
  have member : ev.fd ∈ live Event.life (s.disarm k).log :=
    same ▸ (inv.clients k active client).1
  have again := (inv.disarm active client).arm active.lower (by omega) not_active_disarm on self
    serves member (same ▸ inv.unheld active)
  simpa [St.disarm, St.rearm, same] using again

end Preserved

/-! A callback keeps the invariant, and the other active entries as they are. -/

section Called

variable {s t : St} {k l : Int} {a : Answers} {f : Callback}

theorem Inv.client_of_callBack (inv : Inv s) (held : (s.gEvents.cell k).callBack = some f)
    (other : f ≠ .acceptconn) : k ≠ maxEvents := by
  rintro rfl
  rw [inv.listener.2.2.1] at held
  exact other (Option.some.inj held).symm

theorem Outcome.quiet {ev : Myevent} {new : List Event} {result : Option Myevent}
    (h : Outcome k ev a f new result) : ∀ e ∈ new, e.life = .neither := by
  cases h <;> simp [Event.life]

/-- A re-armed entry waits on the same descriptor for the other callback. -/
theorem Outcome.armed {ev ev' : Myevent} {new : List Event}
    (h : Outcome k ev a f new (some ev')) :
    ev'.fd = ev.fd ∧ ev'.status = 1 ∧ ev'.arg = some k ∧ Serves ev' := by
  cases h with
  | filled bytes _ _ _ => exact ⟨rfl, rfl, rfl, .writing rfl rfl⟩
  | overfilled bytes _ _ => exact ⟨rfl, rfl, rfl, .writing rfl rfl⟩
  | sent len _ _ => exact ⟨rfl, rfl, rfl, .reading rfl rfl⟩

theorem Outcome.not_acceptconn {ev : Myevent} {new : List Event} {result : Option Myevent}
    (h : Outcome k ev a f new result) : f ≠ .acceptconn := by
  cases h <;> decide

theorem Inv.told (inv : Inv s) {new : List Event} (quiet : ∀ e ∈ new, e.life = .neither) :
    Inv (s.told new) :=
  inv.congr rfl rfl rfl rfl ⟨new, rfl, quiet⟩ inv.position

theorem Inv.called (inv : Inv s) (active : Active s k)
    (held : (s.gEvents.cell k).callBack = some f) (fresh : ∀ fd ∈ a.accept, fd ∉ s.files)
    (called : Called s k a f t) : Inv t := by
  have told : ∀ new, Active (s.told new) k := fun new => active.congr
  cases called with
  | refused _ => exact inv
  | leaked cfd answer _ => exact inv.opened_socket (fresh cfd answer)
  | adopted cfd answer lower upper free _ =>
    exact inv.adopt lower upper free (fresh cfd answer)
  | released f new outcome =>
    have client := inv.client_of_callBack held outcome.not_acceptconn
    exact (inv.told outcome.quiet).release (told new) client
  | rearmed f new ev outcome =>
    have client := inv.client_of_callBack held outcome.not_acceptconn
    obtain ⟨same, on, self, serves⟩ := outcome.armed
    exact (inv.told outcome.quiet).rearm (told new) client same on self serves

/-- A new connection takes an entry that was idle, and the other callbacks change their own. -/
theorem Called.frame (called : Called s k a f t) (other : l ≠ k) (active : Active s l) :
    t.gEvents.cell l = s.gEvents.cell l := by
  cases called with
  | refused _ => rfl
  | leaked cfd _ _ => rfl
  | adopted cfd _ _ _ free _ =>
    have apart : l ≠ freeSlot s := by
      rintro rfl
      have on := active.on
      rw [free] at on
      exact absurd on (by decide)
    exact CArray.put_cell_of_ne _ _ apart
  | released f new _ => exact CArray.put_cell_of_ne _ _ other
  | rearmed f new ev _ => exact CArray.put_cell_of_ne _ _ other

end Called

end JiajiaNetwork.Reactor
