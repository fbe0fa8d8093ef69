/- Who may touch a socket that is registered for one event at a time: the kernel while the
   registration is armed, the main thread while it dispatches the event, or one worker until it
   arms the registration again. With it no readiness is lost between the three. -/
import JiajiaNetwork.Lib.Ownership
import JiajiaNetwork.OneShot.Server

set_option autoImplicit false
set_option relaxedAutoImplicit false

namespace JiajiaNetwork.OneShot

open Lib

inductive Place
  | kernel
  | ahead
  | thread (thread : Nat)

def At (s : St) (fd : Fd) : Place → Prop
  | .kernel => s.kernel.ArmedOnce fd
  | .ahead => fd ≠ s.listenfd ∧ ∃ r ∈ s.ctl.ahead, r.fd = fd
  | .thread thread => ∃ w ∈ s.workers thread, w.event.fd = fd ∧ w.stage ≠ .finished

structure Owned (s : St) : Prop where
  placed : Placed s.kernel.Registered (At s)
  alert : s.kernel.Alert
  once : s.kernel.OnceBut s.listenfd
  opened : ∀ fd, s.kernel.Registered fd → (s.kernel.connection? fd).isSome
  distinct : (s.ctl.ahead.map Report.fd).Nodup
  reported : ∀ r ∈ s.ctl.ahead, r.fd ≠ s.listenfd →
    has r.events epollIn ∧ s.kernel.connection? r.fd = some r.connection
  serves : ∀ thread, ∀ w ∈ s.workers thread, w.stage ≠ .finished →
    s.kernel.connection? w.event.fd = some w.event.connection
  arg : ∀ thread, ∀ w ∈ s.workers thread, ∀ arg, w.stage.arg? = some arg →
    arg = ⟨s.epollfd, w.event.fd⟩
  filled : ∀ event rest, s.ctl = .filled event rest → event.fd ≠ s.listenfd
  listening : s.kernel.connection? s.listenfd = none

/-- Every worker reads the record that the main thread filled for it. -/
def Received (s : St) : Input → Prop
  | .worker thread stale _ => ∀ w ∈ s.workers thread, w.stage = .started →
      s.record.getD stale = ⟨s.epollfd, w.event.fd⟩
  | _ => True

theorem mem_update {f : Nat → Option Worker} {i j : Nat} {v w : Worker}
    (h : v ∈ Function.update f i (some w) j) : (j = i ∧ v = w) ∨ (j ≠ i ∧ v ∈ f j) := by
  by_cases same : j = i
  · subst same
    rw [Function.update_self, Option.mem_def, Option.some.injEq] at h
    exact .inl ⟨rfl, h.symm⟩
  · rw [Function.update_of_ne same] at h
    exact .inr ⟨same, h⟩

section Steps

variable {s : St}

/-- A change of the registrations that keeps the connections. -/
theorem Owned.rearranged (owned : Owned s) {k : Kernel}
    (connections : k.connection? = s.kernel.connection?)
    (placed : Placed k.Registered (At { s with kernel := k }))
    (opened : ∀ fd, k.Registered fd → (s.kernel.connection? fd).isSome)
    (alert : k.Alert) (once : k.OnceBut s.listenfd) : Owned { s with kernel := k } where
  placed := placed
  alert := alert
  once := once
  opened fd known := by
    show (k.connection? fd).isSome
    rw [connections]
    exact opened fd known
  distinct := owned.distinct
  reported := by
    show ∀ r ∈ s.ctl.ahead, r.fd ≠ s.listenfd →
      has r.events epollIn ∧ k.connection? r.fd = some r.connection
    rw [connections]
    exact owned.reported
  serves := by
    show ∀ thread, ∀ w ∈ s.workers thread, w.stage ≠ .finished →
      k.connection? w.event.fd = some w.event.connection
    rw [connections]
    exact owned.serves
  arg := owned.arg
  filled := owned.filled
  listening := by
    show k.connection? s.listenfd = none
    rw [connections]
    exact owned.listening

/-- Input arrives or is read. -/
theorem Owned.kernel (owned : Owned s) {k : Kernel}
    (connections : k.connection? = s.kernel.connection?)
    (registered : ∀ fd, k.Registered fd ↔ s.kernel.Registered fd)
    (armed : ∀ fd, k.ArmedOnce fd ↔ s.kernel.ArmedOnce fd) (alert : k.Alert)
    (once : k.OnceBut s.listenfd) : Owned { s with kernel := k } := by
  apply owned.rearranged connections ?_ ?_ alert once
  · apply owned.placed.congr registered
    intro fd p
    cases p with
    | kernel => exact armed fd
    | ahead => exact Iff.rfl
    | thread thread => exact Iff.rfl
  · intro fd known
    exact owned.opened fd ((registered fd).mp known)

/-- The main thread goes on and drops at most an event of the listening socket. -/
theorem Owned.goto (owned : Owned s) (record : Option Fds) (ctl : Control)
    (sub : ctl.ahead.Sublist s.ctl.ahead)
    (kept : ∀ r ∈ s.ctl.ahead, r.fd ≠ s.listenfd → r ∈ ctl.ahead)
    (filled : ∀ event rest, ctl = .filled event rest → event.fd ≠ s.listenfd) :
    Owned { s with ctl, record } where
  placed := by
    apply owned.placed.congr fun _ => Iff.rfl
    intro fd p
    cases p with
    | kernel => exact Iff.rfl
    | ahead =>
      constructor
      · rintro ⟨other, r, mem, about⟩
        exact ⟨other, r, sub.subset mem, about⟩
      · rintro ⟨other, r, mem, about⟩
        exact ⟨other, r, kept r mem (about ▸ other), about⟩
    | thread thread => exact Iff.rfl
  alert := owned.alert
  once := owned.once
  opened := owned.opened
  distinct := owned.distinct.sublist (sub.map Report.fd)
  reported r mem := owned.reported r (sub.subset mem)
  serves := owned.serves
  arg := owned.arg
  filled := filled
  listening := owned.listening

/-- The main thread goes on with the same events ahead. -/
theorem Owned.goes_on (owned : Owned s) (record : Option Fds) (ctl : Control)
    (same : ctl.ahead = s.ctl.ahead)
    (filled : ∀ event rest, ctl = .filled event rest → event.fd ≠ s.listenfd) :
    Owned { s with ctl, record } := by
  apply owned.goto record ctl ?_ ?_ filled
  · rw [same]
  · intro r hr _
    rwa [same]

theorem Control.Calling.ahead {ctl : Control} (calling : ctl.Calling) : ctl.ahead = [] := by
  cases ctl with
  | events rest =>
    cases rest with
    | nil => rfl
    | cons r rest => exact calling.elim
  | adding connfd rest => exact calling.elim
  | filled event rest => exact calling.elim
  | created thread rest => exact calling.elim
  | left => exact calling.elim

/-- The listening socket is registered for every event. -/
theorem Owned.unregistered (owned : Owned s) : ¬ s.kernel.Registered s.listenfd := by
  intro known
  have opened := owned.opened s.listenfd known
  rw [owned.listening] at opened
  exact absurd opened (by simp)

/-- `epoll_wait` takes the events that it returns from the kernel. -/
theorem Owned.wait (owned : Owned s) {batch : List Report} (calling : s.ctl.Calling)
    (distinct : (batch.map Report.fd).Nodup)
    (due : ∀ r ∈ batch, r.fd = s.listenfd ∨ Due s.kernel r) :
    Owned { s with ctl := .events batch, kernel := s.kernel.deliver (batch.map Report.fd) } where
  placed := by
    have idle := calling.ahead
    apply owned.placed.moves (fun fd => fd ≠ s.listenfd ∧ fd ∈ batch.map Report.fd) (o := .kernel)
      (q := .ahead)
    · rintro fd ⟨other, mem⟩
      obtain ⟨r, hr, rfl⟩ := List.mem_map.mp mem
      obtain ⟨e, entry, armed, -⟩ := ((due r hr).resolve_left other).pending
      exact ⟨e, entry, owned.once r.fd other e entry, armed⟩
    · rintro fd ⟨other, mem⟩
      obtain ⟨r, hr, about⟩ := List.mem_map.mp mem
      exact ⟨other, r, hr, about⟩
    · rintro fd ⟨other, mem⟩ armed
      exact absurd mem ((Kernel.armedOnce_deliver _ fd).mp armed).2
    · intro fd p stays
      cases p with
      | kernel =>
        have absent : s.kernel.ArmedOnce fd → fd ∉ batch.map Report.fd := by
          rintro ⟨e, entry, once, -⟩ mem
          have other : fd ≠ s.listenfd := by
            rintro rfl
            exact owned.unregistered ⟨e, entry, once⟩
          exact absurd rfl (stays ⟨other, mem⟩).1
        show (s.kernel.deliver _).ArmedOnce fd ↔ s.kernel.ArmedOnce fd
        rw [Kernel.armedOnce_deliver]
        exact ⟨fun h => h.1, fun h => ⟨h, absent h⟩⟩
      | ahead =>
        constructor
        · rintro ⟨other, r, hr, rfl⟩
          exact absurd rfl (stays ⟨other, List.mem_map_of_mem hr⟩).2
        · rintro ⟨-, r, hr, -⟩
          rw [idle] at hr
          cases hr
      | thread thread => exact Iff.rfl
    · exact Kernel.registered_deliver _
  alert := owned.alert.deliver _
  once := owned.once.deliver _
  opened fd known := owned.opened fd ((Kernel.registered_deliver _ fd).mp known)
  distinct := distinct
  reported r hr other := by
    obtain ⟨-, ⟨x, hx, -, same⟩, readable⟩ := (due r hr).resolve_left other
    refine ⟨readable, ?_⟩
    show (s.kernel.sockets r.fd).map Socket.connection = some r.connection
    rw [Option.mem_def.mp hx, Option.map_some, same]
  serves := owned.serves
  arg := owned.arg
  filled event rest ctl := absurd ctl (by simp)
  listening := owned.listening

/-- A new connection, not registered yet. -/
theorem Owned.accept (owned : Owned s) {connfd : Fd} (fresh : Fresh s connfd) :
    Owned { s with kernel := s.kernel.accept connfd } := by
  by_cases lower : 0 ≤ connfd
  · obtain rfl | ⟨-, apart, -, closed⟩ := fresh
    · exact absurd lower (by decide)
    · have absent : s.kernel.connection? connfd = none := by
        simp [Kernel.connection?, closed]
      -- the connections that there were keep their numbers
      have keeps : ∀ {fd c}, s.kernel.connection? fd = some c →
          (s.kernel.accept connfd).connection? fd = some c := by
        intro fd c found
        have other : fd ≠ connfd := by
          rintro rfl
          rw [absent] at found
          cases found
        rw [Kernel.connection?_accept lower, Function.update_of_ne other]
        exact found
      constructor
      case placed =>
        apply owned.placed.congr
        · intro fd
          simp only [Kernel.Registered, Kernel.entries_accept]
        · intro fd p
          cases p with
          | kernel => simp only [At, Kernel.ArmedOnce, Kernel.entries_accept]
          | ahead => exact Iff.rfl
          | thread thread => exact Iff.rfl
      case alert => exact owned.alert.accept
      case once => exact owned.once.accept
      case opened =>
        intro fd known
        have before : s.kernel.Registered fd := by
          simpa only [Kernel.Registered, Kernel.entries_accept] using known
        obtain ⟨c, found⟩ := Option.isSome_iff_exists.mp (owned.opened fd before)
        exact Option.isSome_iff_exists.mpr ⟨c, keeps found⟩
      case distinct => exact owned.distinct
      case reported =>
        intro r hr other
        obtain ⟨readable, found⟩ := owned.reported r hr other
        exact ⟨readable, keeps found⟩
      case serves => exact fun thread w hw going => keeps (owned.serves thread w hw going)
      case arg => exact owned.arg
      case filled => exact owned.filled
      case listening =>
        show (s.kernel.accept connfd).connection? s.listenfd = none
        rw [Kernel.connection?_accept lower, Function.update_of_ne (Ne.symm apart)]
        exact owned.listening
  · have none : s.kernel.accept connfd = s.kernel := if_neg lower
    rw [none]
    exact owned

/-- `addfd` gives a new registration to the kernel. -/
theorem Owned.addfd (owned : Owned s) (connfd : Fd) :
    Owned { s with kernel := s.kernel.addfd connfd true } := by
  have connections : (s.kernel.addfd connfd true).connection? = s.kernel.connection? :=
    Kernel.connection?_addfd true
  by_cases idle : (s.kernel.sockets connfd).isSome ∧ s.kernel.entries connfd = none
  · obtain ⟨socket, new⟩ := idle
    have entries := Kernel.entries_addfd socket new
    have registered : ∀ fd, (s.kernel.addfd connfd true).Registered fd ↔
        s.kernel.Registered fd ∨ fd = connfd := by
      intro fd
      by_cases same : fd = connfd
      · subst same
        simp [Kernel.Registered, entries, Kernel.fresh_once]
      · simp [Kernel.Registered, entries, same]
    have armed : ∀ fd, fd ≠ connfd →
        ((s.kernel.addfd connfd true).ArmedOnce fd ↔ s.kernel.ArmedOnce fd) := by
      intro fd other
      simp [Kernel.ArmedOnce, entries, other]
    apply owned.rearranged connections ?_ ?_ (owned.alert.addfd true) owned.once.addfd
    · apply owned.placed.enters (x := connfd) (q := .kernel)
      · rintro ⟨e, entry, -⟩
        rw [new] at entry
        cases entry
      · exact ⟨⟨epollIn ||| epollEt ||| epollOneShot, s.kernel.input connfd⟩, by simp [entries],
          Kernel.fresh_once _, Kernel.fresh_armed _⟩
      · intro fd p stays
        cases p with
        | kernel => exact armed fd fun same => stays same rfl
        | ahead => exact Iff.rfl
        | thread thread => exact Iff.rfl
      · exact registered
    · intro fd known
      rcases (registered fd).mp known with before | rfl
      · exact owned.opened fd before
      · simpa [Kernel.connection?] using socket
  · have entries := Kernel.entries_addfd_of_not idle
    apply owned.kernel connections
    · intro fd
      simp only [Kernel.Registered, entries]
    · intro fd
      simp only [Kernel.ArmedOnce, entries]
    · exact owned.alert.addfd true
    · exact owned.once.addfd

/-- A worker is created for the event that the main thread has dispatched. -/
theorem Owned.create (owned : Owned s) {event : Report} {rest : List Report} {thread : Nat}
    (ctl : s.ctl = .filled event rest) (new : s.workers thread = none) :
    Owned { s with
      ctl := .created thread rest
      workers := Function.update s.workers thread (some ⟨event, .started⟩) } := by
  have ahead : s.ctl.ahead = event :: rest := by rw [ctl]; rfl
  have apart := owned.filled event rest ctl
  have distinct : event.fd ∉ rest.map Report.fd ∧ (rest.map Report.fd).Nodup := by
    have all := owned.distinct
    rw [ahead, List.map_cons, List.nodup_cons] at all
    exact all
  have reported := owned.reported
  rw [ahead] at reported
  constructor
  case placed =>
    apply owned.placed.moves (fun fd => fd = event.fd) (o := .ahead) (q := .thread thread)
    · rintro fd rfl
      exact ⟨apart, event, by simp [ahead], rfl⟩
    · rintro fd rfl
      exact ⟨⟨event, .started⟩, by simp, rfl, by simp⟩
    · rintro fd rfl ⟨-, r, hr, about⟩
      exact absurd (List.mem_map.mpr ⟨r, hr, about⟩) distinct.1
    · intro fd p stays
      cases p with
      | kernel => exact Iff.rfl
      | ahead =>
        have other : fd ≠ event.fd := fun same => (stays same).1 rfl
        simp only [At, ahead, List.mem_cons, exists_eq_or_imp]
        show _ ∧ (∃ r ∈ rest, r.fd = fd) ↔ _
        rw [or_iff_right (Ne.symm other)]
      | thread other =>
        by_cases same : other = thread
        · subst same
          have moved : fd ≠ event.fd := fun here => (stays here).2 rfl
          simp [At, new, Ne.symm moved]
        · simp [At, same]
    · exact fun _ => Iff.rfl
  case alert => exact owned.alert
  case once => exact owned.once
  case opened => exact owned.opened
  case distinct => exact distinct.2
  case reported => exact fun r hr => reported r (List.mem_cons_of_mem event hr)
  case serves =>
    intro other w hw going
    rcases mem_update hw with ⟨-, rfl⟩ | ⟨-, old⟩
    · exact (reported event (by simp) apart).2
    · exact owned.serves other w old going
  case arg =>
    intro other w hw arg found
    rcases mem_update hw with ⟨-, rfl⟩ | ⟨-, old⟩
    · simp [Stage.arg?] at found
    · exact owned.arg other w old arg found
  case filled => exact fun _ _ other => absurd other (by simp)
  case listening => exact owned.listening

variable {thread : Nat} {w : Worker}

/-- A worker goes on. -/
theorem Owned.stage (owned : Owned s) (hw : w ∈ s.workers thread) (going : w.stage ≠ .finished)
    {stage : Stage} (still : stage ≠ .finished)
    (own : ∀ arg, stage.arg? = some arg → arg = ⟨s.epollfd, w.event.fd⟩) :
    Owned (s.goto thread w stage) where
  placed := by
    apply owned.placed.congr fun _ => Iff.rfl
    intro fd p
    cases p with
    | kernel => exact Iff.rfl
    | ahead => exact Iff.rfl
    | thread other =>
      by_cases same : other = thread
      · subst same
        simp [At, St.goto, Option.mem_def.mp hw, going, still]
      · simp [At, St.goto, same]
  alert := owned.alert
  once := owned.once
  opened := owned.opened
  distinct := owned.distinct
  reported := owned.reported
  serves other v hv still' := by
    rcases mem_update hv with ⟨-, rfl⟩ | ⟨-, old⟩
    · exact owned.serves thread w hw going
    · exact owned.serves other v old still'
  arg other v hv arg found := by
    rcases mem_update hv with ⟨-, rfl⟩ | ⟨-, old⟩
    · exact own arg found
    · exact owned.arg other v old arg found
  filled := owned.filled
  listening := owned.listening

/-- A worker that ends no longer holds its socket; what the others hold is as before. -/
theorem thread_of_finish {k : Kernel} {fd : Fd} {p : Nat} (hw : w ∈ s.workers thread)
    (stays : fd = w.event.fd → p ≠ thread) :
    At { s.goto thread w .finished with kernel := k } fd (.thread p) ↔ At s fd (.thread p) := by
  by_cases same : p = thread
  · subst same
    have other : fd ≠ w.event.fd := fun here => stays here rfl
    simp [At, St.goto, Option.mem_def.mp hw, Ne.symm other]
  · simp [At, St.goto, same]

/-- A worker ends; it was alone with its socket, so nobody else is concerned. -/
theorem Owned.ends (owned : Owned s) (hw : w ∈ s.workers thread) (going : w.stage ≠ .finished)
    {k : Kernel} (alert : k.Alert) (once : k.OnceBut s.listenfd)
    (keeps : ∀ fd, fd ≠ w.event.fd → k.connection? fd = s.kernel.connection? fd)
    (opened : ∀ fd, k.Registered fd → (k.connection? fd).isSome)
    (placed : Placed k.Registered (At { s.goto thread w .finished with kernel := k })) :
    Owned { s.goto thread w .finished with kernel := k } where
  placed := placed
  alert := alert
  once := once
  opened := opened
  distinct := owned.distinct
  reported r hr other := by
    obtain ⟨readable, found⟩ := owned.reported r hr other
    refine ⟨readable, ?_⟩
    have elsewhere : r.fd ≠ w.event.fd := by
      intro same
      have first : At s w.event.fd .ahead := ⟨same ▸ other, r, hr, same⟩
      have second : At s w.event.fd (.thread thread) := ⟨w, hw, rfl, going⟩
      cases owned.placed.unique _ _ _ first second
    show k.connection? r.fd = some r.connection
    rw [keeps r.fd elsewhere]
    exact found
  serves other v hv still := by
    rcases mem_update hv with ⟨-, rfl⟩ | ⟨apart, old⟩
    · exact absurd rfl still
    · have elsewhere : v.event.fd ≠ w.event.fd := by
        intro same
        have first : At s w.event.fd (.thread other) := ⟨v, old, same, still⟩
        have second : At s w.event.fd (.thread thread) := ⟨w, hw, rfl, going⟩
        exact apart (Place.thread.inj (owned.placed.unique _ _ _ first second))
      show k.connection? v.event.fd = some v.event.connection
      rw [keeps v.event.fd elsewhere]
      exact owned.serves other v old still
  arg other v hv arg found := by
    rcases mem_update hv with ⟨-, rfl⟩ | ⟨-, old⟩
    · simp [Stage.arg?] at found
    · exact owned.arg other v old arg found
  filled := owned.filled
  listening := by
    have elsewhere : s.listenfd ≠ w.event.fd := by
      intro same
      have serves := owned.serves thread w hw going
      rw [← same, owned.listening] at serves
      cases serves
    show k.connection? s.listenfd = none
    rw [keeps s.listenfd elsewhere]
    exact owned.listening

/-- `reset_onshot` gives the socket back to the kernel. -/
theorem Owned.rearm (owned : Owned s) (hw : w ∈ s.workers thread) (going : w.stage ≠ .finished) :
    Owned { s.goto thread w .finished with kernel := s.kernel.resetOnshot w.event.fd } := by
  have mine : At s w.event.fd (.thread thread) := ⟨w, hw, rfl, going⟩
  have known := owned.placed.known _ _ mine
  have registered := Kernel.registered_resetOnshot known
  apply owned.ends hw going owned.alert.resetOnshot owned.once.resetOnshot
  · exact fun fd _ => rfl
  · intro fd still
    exact owned.opened fd ((registered fd).mp still)
  · apply owned.placed.moves (fun fd => fd = w.event.fd) (o := .thread thread)
      (q := .kernel)
    · rintro fd rfl
      exact mine
    · rintro fd rfl
      exact Kernel.armedOnce_resetOnshot known
    · rintro fd rfl ⟨v, hv, -, still⟩
      rcases mem_update hv with ⟨-, rfl⟩ | ⟨apart, -⟩
      · exact absurd rfl still
      · exact absurd rfl apart
    · intro fd p stays
      cases p with
      | kernel => exact Kernel.armedOnce_resetOnshot_of_ne fun same => (stays same).2 rfl
      | ahead => exact Iff.rfl
      | thread other =>
        apply thread_of_finish hw
        rintro same rfl
        exact (stays same).1 rfl
    · exact registered

/-- The worker closes its socket. -/
theorem Owned.shut (owned : Owned s) (hw : w ∈ s.workers thread) (going : w.stage ≠ .finished) :
    Owned { s.goto thread w .finished with kernel := s.kernel.close w.event.fd } := by
  have mine : At s w.event.fd (.thread thread) := ⟨w, hw, rfl, going⟩
  apply owned.ends hw going owned.alert.close owned.once.close
  · intro fd other
    rw [Kernel.connection?_close, Function.update_of_ne other]
  · intro fd still
    obtain ⟨before, other⟩ := (Kernel.registered_close fd).mp still
    rw [Kernel.connection?_close, Function.update_of_ne other]
    exact owned.opened fd before
  · apply owned.placed.leaves mine
    · rintro ⟨v, hv, -, still⟩
      rcases mem_update hv with ⟨-, rfl⟩ | ⟨apart, -⟩
      · exact absurd rfl still
      · exact absurd rfl apart
    · intro fd p stays
      cases p with
      | kernel =>
        have unarmed : fd = w.event.fd → ¬ s.kernel.ArmedOnce fd := by
          rintro rfl armed
          cases owned.placed.unique _ _ _ (show At s w.event.fd .kernel from armed) mine
        show (s.kernel.close w.event.fd).ArmedOnce fd ↔ s.kernel.ArmedOnce fd
        rw [Kernel.armedOnce_close]
        exact ⟨fun h => h.1, fun h => ⟨h, fun same => unarmed same h⟩⟩
      | ahead => exact Iff.rfl
      | thread other =>
        apply thread_of_finish hw
        rintro same rfl
        exact stays same rfl
    · exact Kernel.registered_close

variable {t : St}

theorem Owned.mainStep (owned : Owned s) {connfd : Fd} (fresh : Fresh s connfd)
    (new : s.workers thread = none) (run : mainStep s connfd thread = some t) : Owned t := by
  unfold OneShot.mainStep at run
  split at run
  · rename_i event rest ctl
    have ahead : s.ctl.ahead = event :: rest := by rw [ctl]; rfl
    have drops : rest.Sublist s.ctl.ahead := ahead ▸ List.sublist_cons_self event rest
    split_ifs at run with listening readable
    · obtain rfl := Option.some.inj run
      have gone := owned.goto s.record (.adding connfd rest) drops ?_ (by simp)
      · exact gone.accept fresh
      · intro r hr other
        rw [ahead] at hr
        rcases List.mem_cons.mp hr with rfl | hr
        · exact absurd listening other
        · exact hr
    · obtain rfl := Option.some.inj run
      apply owned.goes_on (some ⟨s.epollfd, event.fd⟩) (.filled event rest)
      · exact ahead.symm
      · intro event' rest' same
        obtain ⟨rfl, -⟩ := Control.filled.inj same
        exact listening
    · have reported := owned.reported event (by simp [ahead]) listening
      exact absurd reported.1 readable
  · rename_i connfd' rest ctl
    obtain rfl := Option.some.inj run
    have gone := owned.goes_on s.record (.events rest) (by rw [ctl]; rfl) (by simp)
    exact gone.addfd connfd'
  · rename_i event rest ctl
    obtain rfl := Option.some.inj run
    exact owned.create ctl new
  · rename_i thread' rest ctl
    obtain rfl := Option.some.inj run
    exact owned.goes_on none (.events rest) (by rw [ctl]; rfl) (by simp)
  · cases run
  · cases run

theorem Owned.recvStep (owned : Owned s) (hw : w ∈ s.workers thread) {arg : Fds}
    (stage : w.stage = .serving arg) (answer : Answer) :
    Owned (recvStep s thread w arg answer) := by
  have going : w.stage ≠ .finished := by simp [stage]
  have own : arg = ⟨s.epollfd, w.event.fd⟩ := owned.arg thread w hw arg (by rw [stage]; rfl)
  cases answer with
  | received bytes =>
    simp only [OneShot.recvStep]
    split_ifs with ended
    · exact owned.stage hw going (by simp) fun arg' found => Option.some.inj found ▸ own
    · exact owned.kernel (Kernel.connection?_consume _) (fun _ => Iff.rfl) (fun _ => Iff.rfl)
        (owned.alert.consume _) owned.once
  | eagain => exact owned.stage hw going (by simp) fun arg' found => Option.some.inj found ▸ own
  | failed => exact owned

theorem Owned.workerStep (owned : Owned s) (hw : w ∈ s.workers thread) {stale : Fds}
    {answer : Answer}
    (received : w.stage = .started → s.record.getD stale = ⟨s.epollfd, w.event.fd⟩)
    (run : workerStep s thread w stale answer = some t) : Owned t := by
  unfold OneShot.workerStep at run
  cases stage : w.stage with
  | started =>
    simp only [stage, Option.some.injEq] at run
    subst run
    apply owned.stage hw (by simp [stage]) (by simp)
    intro arg found
    rw [← Option.some.inj found]
    exact received stage
  | serving arg =>
    simp only [stage, Option.some.injEq] at run
    subst run
    exact owned.recvStep hw stage answer
  | again arg =>
    have own : arg = ⟨s.epollfd, w.event.fd⟩ := owned.arg thread w hw arg (by rw [stage]; rfl)
    simp only [stage, own, if_true, Option.some.injEq] at run
    subst run
    exact owned.rearm hw (by simp [stage])
  | closing arg =>
    have own : arg = ⟨s.epollfd, w.event.fd⟩ := owned.arg thread w hw arg (by rw [stage]; rfl)
    simp only [stage, own, Option.some.injEq] at run
    subst run
    exact owned.shut hw (by simp [stage])
  | finished => simp [stage] at run

end Steps

theorem boot_unregistered (listenfd epollfd fd : Fd) :
    ¬ (boot listenfd epollfd).kernel.Registered fd := by
  rintro ⟨e, entry, once⟩
  by_cases same : fd = listenfd
  · subst same
    simp only [boot, Function.update_self, Option.mem_def, Option.some.injEq] at entry
    subst entry
    exact absurd once (by decide)
  · simp [boot, same] at entry

theorem boot_owned (listenfd epollfd : Fd) : Owned (boot listenfd epollfd) where
  placed := by
    have idle : ∀ fd p, ¬ At (boot listenfd epollfd) fd p := by
      intro fd p held
      cases p with
      | kernel =>
        obtain ⟨e, entry, once, -⟩ := held
        exact boot_unregistered listenfd epollfd fd ⟨e, entry, once⟩
      | ahead =>
        obtain ⟨-, r, hr, -⟩ := held
        cases hr
      | thread thread =>
        obtain ⟨w, hw, -⟩ := held
        cases hw
    exact ⟨fun fd known => absurd known (boot_unregistered listenfd epollfd fd),
      fun fd p held => absurd held (idle fd p), fun fd p _ held => absurd held (idle fd p)⟩
  alert := by
    intro fd e _ x hx
    cases hx
  once := by
    intro fd other e entry
    have apart : fd ≠ listenfd := other
    simp [boot, apart] at entry
  opened fd known := absurd known (boot_unregistered listenfd epollfd fd)
  distinct := List.nodup_nil
  reported r hr := by cases hr
  serves thread w hw := by cases hw
  arg thread w hw := by cases hw
  filled event rest ctl := by cases ctl
  listening := rfl

theorem reachable_owned {s : St} (h : (machine.guard Received).Reachable s) : Owned s := by
  apply h.invariant
  · rintro s ⟨listenfd, epollfd, -, -, -, rfl⟩
    exact boot_owned listenfd epollfd
  · intro s a t _ owned lawful run
    obtain ⟨promised, received⟩ := lawful
    cases a with
    | arrives fd bytes =>
      obtain rfl := Option.some.inj run
      exact owned.kernel (Kernel.connection?_arrives _) (Kernel.registered_arrives _)
        (Kernel.armedOnce_arrives _) (owned.alert.arrives _) (owned.once.arrives _)
    | finishes fd =>
      obtain rfl := Option.some.inj run
      exact owned.kernel (Kernel.connection?_arrives _) (Kernel.registered_arrives _)
        (Kernel.armedOnce_arrives _) (owned.alert.arrives _) (owned.once.arrives _)
    | wait batch =>
      obtain rfl := Option.some.inj run
      obtain ⟨calling, distinct, due⟩ := promised
      exact owned.wait calling distinct due
    | waitFailed =>
      obtain rfl := Option.some.inj run
      have calling : s.ctl.Calling := promised
      exact owned.goes_on s.record .left calling.ahead.symm (by simp)
    | main connfd thread => exact owned.mainStep promised.1 promised.2 run
    | worker thread stale answer =>
      obtain ⟨w, hw, next⟩ := Option.bind_eq_some_iff.mp run
      exact owned.workerStep hw (received w hw) next

/-- A readiness event of the descriptor is pending in epoll. -/
def Pending (s : St) (fd : Fd) : Prop := ∃ e ∈ s.kernel.entries fd, e.Armed ∧ e.ready = true

/-- An event of the connection was returned and is being dispatched. -/
def Dispatched (s : St) (fd : Fd) (connection : Nat) : Prop :=
  ∃ r ∈ s.ctl.ahead, r.fd = fd ∧ r.connection = connection

/-- A worker for the connection has neither armed the socket again nor closed it. -/
def InHands (s : St) (fd : Fd) (connection : Nat) : Prop :=
  ∃ thread, ∃ w ∈ s.workers thread, w.event.fd = fd ∧ w.event.connection = connection ∧
    w.stage ≠ .finished

/-- When every worker receives its own socket, input of an open connection that is registered
for one event at a time is never forgotten. -/
theorem wakeup_kept {s : St} (h : (machine.guard Received).Reachable s) {fd : Fd} {x : Socket}
    (registered : s.kernel.Registered fd) (opened : x ∈ s.kernel.sockets fd)
    (waiting : x.Waiting) :
    Pending s fd ∨ Dispatched s fd x.connection ∨ InHands s fd x.connection := by
  have owned := reachable_owned h
  have connection : s.kernel.connection? fd = some x.connection := by
    rw [Kernel.connection?, Option.mem_def.mp opened, Option.map_some]
  obtain ⟨p, held⟩ := owned.placed.held fd registered
  cases p with
  | kernel =>
    obtain ⟨e, entry, once, armed⟩ := held
    exact .inl ⟨e, entry, armed, owned.alert fd e entry x opened once armed waiting⟩
  | ahead =>
    obtain ⟨other, r, hr, rfl⟩ := held
    have reported := (owned.reported r hr other).2
    rw [connection] at reported
    exact .inr (.inl ⟨r, hr, rfl, (Option.some.inj reported).symm⟩)
  | thread thread =>
    obtain ⟨w, hw, rfl, going⟩ := held
    have serves := owned.serves thread w hw going
    rw [connection] at serves
    exact .inr (.inr ⟨thread, w, hw, rfl, (Option.some.inj serves).symm, going⟩)

instance (s : St) : (a : Input) → Decidable (Received s a)
  | .worker thread _ _ => inferInstanceAs (Decidable (∀ w, w ∈ s.workers thread → _))
  | .arrives _ _ | .finishes _ | .wait _ | .waitFailed | .main _ _ => isTrue trivial

instance (s : St) (a : Input) : Decidable ((machine.guard Received).Lawful s a) :=
  inferInstanceAs (Decidable (Lawful s a ∧ Received s a))

theorem boot_start : Start (boot 3 4) :=
  ⟨3, 4, by decide, by decide, by decide, rfl⟩

/-- The main thread accepts connection `n` on `fd` and registers it. -/
def joins (fd : Fd) (n thread : Nat) : List Input :=
  [.wait [⟨3, epollIn, n⟩], .main fd thread, .main (-1) thread]

/-- The worker of 5 has found nothing more to read when "i" arrives. -/
def overtaken : St := ((machine.guard Received).replay (boot 3 4) (joins 5 0 0 ++
  [.arrives 5 [104], .wait [⟨5, epollIn, 0⟩], .main (-1) 0, .main (-1) 0,
    .worker 0 ⟨0, 0⟩ .failed, .main (-1) 1, .worker 0 ⟨0, 0⟩ (.received [104]),
    .worker 0 ⟨0, 0⟩ .eagain, .arrives 5 [105]])).getD (boot 3 4)

theorem overtaken_reachable : (machine.guard Received).Reachable overtaken := by
  have start : (machine.guard Received).Reachable (boot 3 4) := .start boot_start
  exact start.replay_getD _

theorem wakeup_kept_overtaken :
    ∃ x ∈ overtaken.kernel.sockets 5, x.Waiting ∧ (Pending overtaken 5 ∨
      Dispatched overtaken 5 x.connection ∨ InHands overtaken 5 x.connection) := by
  have registered : overtaken.kernel.Registered 5 := by
    have entry : ((overtaken.kernel.entries 5).any fun e => decide e.Once) = true := by
      decide +kernel
    simpa [Kernel.Registered, Option.any_eq_true] using entry
  have socket : ((overtaken.kernel.sockets 5).any fun x => decide x.Waiting) = true := by
    decide +kernel
  obtain ⟨x, opened, waiting⟩ := (Option.any_eq_true _ _).mp socket
  have waits : x.Waiting := by simpa using waiting
  exact ⟨x, opened, waits, wakeup_kept overtaken_reachable registered opened waits⟩

end JiajiaNetwork.OneShot
