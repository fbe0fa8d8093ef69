/- The table of the reactor and the kernel's interest list say the same in every reachable
   state, and no lawful step faults. -/
import JiajiaNetwork.Reactor.Table

set_option autoImplicit false
set_option relaxedAutoImplicit false

namespace JiajiaNetwork.Reactor

open Lib

/-! The reports of a batch that are still to be handled. -/

/-- The entry of a report is active, with the reported descriptor and a mask that explains the
reported bits. -/
structure Ready (s : St) (r : Report) : Prop extends Active s r.ptr where
  fd : (s.gEvents.cell r.ptr).fd = r.fd
  bits : Within r.events ((s.gEvents.cell r.ptr).events ||| (epollErr ||| epollHup))

/-- What holds of the reports ahead. Between the two tests of a report, it has no writable bit
or its callback is still due. -/
def Upcoming (P : Report → Prop) : Control → Prop
  | .handling batch => ∀ r ∈ batch, P r
  | .second r rest => (has r.events epollOut → P r) ∧ ∀ x ∈ rest, P x
  | _ => True

/-- The report at hand and those ahead. -/
def reportsOf : Control → List Report
  | .handling batch => batch
  | .second r rest => r :: rest
  | _ => []

structure Batched (s : St) : Prop where
  distinct : ((reportsOf s.ctl).map Report.ptr).Nodup
  range : ∀ r ∈ reportsOf s.ctl, 0 ≤ r.ptr ∧ r.ptr ≤ maxEvents
  ready : Upcoming (Ready s) s.ctl

/-- The `if` that comes next: its report, its bit, and where the program goes from there. -/
def testing (s : St) : Option (Report × Mask × Control) :=
  match s.ctl with
  | .handling (r :: rest) => some (r, epollIn, .second r rest)
  | .second r rest => some (r, epollOut, .handling rest)
  | _ => none

theorem testing_cases {s : St} {r : Report} {bit : Mask} {next : Control}
    (h : testing s = some (r, bit, next)) : ∃ rest,
      s.ctl = .handling (r :: rest) ∧ bit = epollIn ∧ next = .second r rest ∨
      s.ctl = .second r rest ∧ bit = epollOut ∧ next = .handling rest := by
  unfold testing at h
  split at h
  · rename_i r' rest ctl
    obtain ⟨rfl, rfl, rfl⟩ : r' = r ∧ epollIn = bit ∧ .second r' rest = next := by simpa using h
    exact ⟨rest, .inl ⟨ctl, rfl, rfl⟩⟩
  · rename_i r' rest ctl
    obtain ⟨rfl, rfl, rfl⟩ : r' = r ∧ epollOut = bit ∧ .handling rest = next := by simpa using h
    exact ⟨rest, .inr ⟨ctl, rfl, rfl⟩⟩
  · simp at h

/-- One test further: the reports ahead keep what they have, and the report at hand has it for
the second test if its writable bit is set. -/
theorem Upcoming.next {s : St} {r : Report} {bit : Mask} {next : Control} {P Q : Report → Prop}
    (h : Upcoming P s.ctl) (here : testing s = some (r, bit, next))
    (distinct : ((reportsOf s.ctl).map Report.ptr).Nodup)
    (kept : ∀ x : Report, x.ptr ≠ r.ptr → P x → Q x)
    (due : bit = epollIn → P r → has r.events epollOut → Q r) : Upcoming Q next := by
  obtain ⟨rest, ⟨ctl, rfl, rfl⟩ | ⟨ctl, rfl, rfl⟩⟩ := testing_cases here
  · rw [ctl] at h distinct
    have apart := (List.nodup_cons.mp distinct).1
    refine ⟨due rfl (h r (by simp)), fun x member => ?_⟩
    refine kept x ?_ (h x (List.mem_cons_of_mem r member))
    exact fun same => apart (List.mem_map.mpr ⟨x, member, same⟩)
  · rw [ctl] at h distinct
    have apart := (List.nodup_cons.mp distinct).1
    refine fun x member => kept x ?_ (h.2 x member)
    exact fun same => apart (List.mem_map.mpr ⟨x, member, same⟩)

theorem Ready.transfer {s t : St} {r : Report} (ready : Ready s r)
    (same : t.gEvents.cell r.ptr = s.gEvents.cell r.ptr) : Ready t r where
  lower := ready.lower
  upper := ready.upper
  on := same ▸ ready.on
  fd := same ▸ ready.fd
  bits := same ▸ ready.bits

theorem Ready.has {s : St} {r : Report} (ready : Ready s r) {bit : Mask}
    (h : has r.events bit) (plain : ¬ has (epollErr ||| epollHup) bit) :
    has (s.gEvents.cell r.ptr).events bit := by
  rcases has_or.mp (ready.bits.has h) with asked | unasked
  · exact asked
  · exact absurd unasked plain

/-- The masks of the table ask for one of the two bits. -/
theorem Inv.mask {s : St} (inv : Inv s) {k : Int} (active : Active s k) :
    ((s.gEvents.cell k).events = epollIn ∧ (s.gEvents.cell k).callBack ≠ some .senddata) ∨
    ((s.gEvents.cell k).events = epollOut ∧ (s.gEvents.cell k).callBack = some .senddata) := by
  by_cases last : k = maxEvents
  · subst last
    obtain ⟨-, -, held, mask⟩ := inv.listener
    exact .inl ⟨mask, by simp [held]⟩
  · cases (inv.clients k active last).2 with
    | reading held mask => exact .inl ⟨mask, by simp [held]⟩
    | writing held mask => exact .inr ⟨mask, held⟩

/-- A step of the program, by the place it starts from. -/
inductive Move (s : St) : Input → St → Prop
  | clock (now : Int) : s.ctl = .top → Move s (.clock now) { s with ctl := .sweeping 0 now }
  | swept (i now : Int) :
      s.ctl = .sweeping i now → sweepRounds ≤ i → Move s .check { s with ctl := .waiting }
  | passed (i now k : Int) :
      s.ctl = .sweeping i now → i < sweepRounds → 0 ≤ k → k < maxEvents →
      (k = s.checkpos ∨ s.checkpos = maxEvents ∧ k = 0) →
      (Active s k → now - (s.gEvents.cell k).lastActive < idleLimit) →
      Move s .check { s with ctl := .sweeping (i + 1) now, checkpos := k + 1 }
  | expired (i now k : Int) :
      s.ctl = .sweeping i now → i < sweepRounds → Active s k → k < maxEvents →
      (k = s.checkpos ∨ s.checkpos = maxEvents ∧ k = 0) →
      idleLimit ≤ now - (s.gEvents.cell k).lastActive →
      Move s .check { s.release k with ctl := .sweeping (i + 1) now, checkpos := k + 1 }
  | waited (batch : List Report) :
      s.ctl = .waiting → (batch.map Report.ptr).Nodup → (∀ r ∈ batch, Ready s r) →
      Move s (.wait batch) ({ s with ctl := .handling batch }.emit
        (.waited (batch.map fun r => (r, (s.gEvents.cell r.ptr).callBack))))
  | failed : s.ctl = .waiting → Move s .waitFailed { s with ctl := .exited }
  | emptied (a : Answers) : s.ctl = .handling [] → Move s (.turn a) { s with ctl := .top }
  | skipped (a : Answers) (r : Report) (bit : Mask) (next : Control) :
      testing s = some (r, bit, next) → ¬ Selects s r bit → Move s (.turn a) { s with ctl := next }
  | called (a : Answers) (r : Report) (bit : Mask) (next : Control) (f : Callback) (t : St) :
      testing s = some (r, bit, next) → Selects s r bit → Ready s r →
      (s.gEvents.cell r.ptr).callBack = some f → Allowed s a →
      Called (s.emit (.invoked r.ptr f (s.gEvents.cell r.ptr).fd)) r.ptr a f t →
      Move s (.turn a) { t with ctl := next }

section Step

variable {s : St}

/-- The entry that a round of the sweep looks at. -/
theorem Inv.examined (inv : Inv s) : ∃ k, (if s.checkpos = maxEvents then 0 else s.checkpos) = k ∧
    0 ≤ k ∧ k < maxEvents ∧ (k = s.checkpos ∨ s.checkpos = maxEvents ∧ k = 0) := by
  obtain ⟨lower, upper⟩ := inv.position
  by_cases wrap : s.checkpos = maxEvents
  · exact ⟨0, by simp [wrap], le_rfl, by decide, .inr ⟨wrap, rfl⟩⟩
  · exact ⟨s.checkpos, by simp [wrap], lower, by omega, .inl rfl⟩

theorem Inv.sweepRound_move (inv : Inv s) {i now : Int} (ctl : s.ctl = .sweeping i now)
    (more : i < sweepRounds) : ∃ t, step s .check = some t ∧ Move s .check t := by
  obtain ⟨k, position, lower, upper, cursor⟩ := inv.examined
  have get : s.gEvents.get k = some (s.gEvents.cell k) := CArray.get_eq_some _ lower (by omega)
  by_cases on : (s.gEvents.cell k).status = 1
  · have active : Active s k := ⟨lower, by omega, on⟩
    by_cases expired : now - (s.gEvents.cell k).lastActive ≥ idleLimit
    · refine ⟨_, ?_, .expired i now k ctl more active upper cursor expired⟩
      have released := close_eventdel_eq (s := { s with checkpos := k }) (k := k)
        ⟨lower, by omega, on⟩ (inv.opened k active)
      simp only [step, ctl, if_pos more, sweepRound, position, get, Option.bind_eq_bind,
        Option.bind_some, on, ne_eq, not_true, if_false, if_pos expired] at released ⊢
      rw [← Option.bind_assoc, released]
      rfl
    · refine ⟨_, ?_, .passed i now k ctl more lower upper cursor fun _ => by omega⟩
      simp [step, ctl, more, sweepRound, position, get, on, expired]
  · refine ⟨_, ?_, .passed i now k ctl more lower upper cursor fun active => absurd active.on on⟩
    simp [step, ctl, more, sweepRound, position, get, on]

theorem testing_turn {r : Report} {bit : Mask} {next : Control} {a : Answers}
    (h : testing s = some (r, bit, next)) :
    step s (.turn a) = (test s r bit a).map fun t => { t with ctl := next } := by
  obtain ⟨rest, ⟨ctl, rfl, rfl⟩ | ⟨ctl, rfl, rfl⟩⟩ := testing_cases h
  · simp only [step, ctl]
    cases test s r epollIn a <;> rfl
  · simp only [step, ctl]
    cases test s r epollOut a <;> rfl

/-- The report at hand is in range, and when its test succeeds its entry is ready. -/
theorem Batched.report (batched : Batched s) {r : Report} {bit : Mask} {next : Control}
    (h : testing s = some (r, bit, next)) :
    (0 ≤ r.ptr ∧ r.ptr ≤ maxEvents) ∧ (Selects s r bit → Ready s r) := by
  obtain ⟨distinct, range, ready⟩ := batched
  obtain ⟨rest, ⟨ctl, rfl, -⟩ | ⟨ctl, rfl, -⟩⟩ := testing_cases h
  · rw [ctl] at range ready
    exact ⟨range r (by simp [reportsOf]), fun _ => ready r (by simp)⟩
  · rw [ctl] at range ready
    exact ⟨range r (by simp [reportsOf]), fun selects => ready.1 selects.1⟩

theorem Inv.turn_move (inv : Inv s) (batched : Batched s) {a : Answers}
    (dispatching : s.ctl.isDispatching = true) (allowed : Allowed s a) :
    ∃ t, step s (.turn a) = some t ∧ Move s (.turn a) t := by
  by_cases empty : s.ctl = .handling []
  · exact ⟨_, by simp [step, empty], .emptied a empty⟩
  · obtain ⟨r, bit, next, here⟩ : ∃ r bit next, testing s = some (r, bit, next) := by
      unfold testing
      cases ctl : s.ctl with
      | handling batch =>
        cases batch with
        | nil => exact absurd ctl empty
        | cons r rest => exact ⟨_, _, _, rfl⟩
      | second r rest => exact ⟨_, _, _, rfl⟩
      | top => simp [ctl, Control.isDispatching] at dispatching
      | sweeping i now => simp [ctl, Control.isDispatching] at dispatching
      | waiting => simp [ctl, Control.isDispatching] at dispatching
      | exited => simp [ctl, Control.isDispatching] at dispatching
    obtain ⟨⟨lower, upper⟩, due⟩ := batched.report here
    have get : s.gEvents.get r.ptr = some (s.gEvents.cell r.ptr) :=
      CArray.get_eq_some _ lower (by omega)
    rw [testing_turn here]
    by_cases selects : Selects s r bit
    · obtain ⟨f, t, held, ran, called⟩ := inv.callBack_called (due selects).toActive allowed
      refine ⟨{ t with ctl := next }, by simp [test, get, selects, ran], ?_⟩
      exact .called a r bit next f t here selects (due selects) held allowed called
    · refine ⟨{ s with ctl := next }, by simp [test, get, selects], ?_⟩
      exact .skipped a r bit next here selects

theorem Inv.reported_ready (inv : Inv s) {r : Report} (reported : Reported s r) : Ready s r := by
  unfold Reported at reported
  split at reported
  · rename_i mask ptr entry
    obtain ⟨rfl, within⟩ := reported
    obtain ⟨active, fd, events⟩ := slot_eq_some.mp ((inv.mirrors r.fd mask r.ptr).mp entry)
    exact ⟨active, fd, events.symm ▸ within⟩
  · exact absurd reported id

/-- No lawful step faults. -/
theorem step_move (inv : Inv s) (batched : Batched s) {a : Input} (lawful : Lawful s a) :
    ∃ t, step s a = some t ∧ Move s a t := by
  cases a with
  | clock now => exact ⟨_, rfl, .clock now lawful⟩
  | check =>
    have sweeping : s.ctl.isSweeping = true := lawful
    cases ctl : s.ctl with
    | sweeping i now =>
      by_cases more : i < sweepRounds
      · exact inv.sweepRound_move ctl more
      · exact ⟨_, by simp [step, ctl, more], .swept i now ctl (by omega)⟩
    | top => simp [ctl, Control.isSweeping] at sweeping
    | waiting => simp [ctl, Control.isSweeping] at sweeping
    | handling batch => simp [ctl, Control.isSweeping] at sweeping
    | second r rest => simp [ctl, Control.isSweeping] at sweeping
    | exited => simp [ctl, Control.isSweeping] at sweeping
  | wait batch =>
    obtain ⟨ctl, distinct, reported⟩ := lawful
    exact ⟨_, rfl, .waited batch ctl distinct fun r member =>
      inv.reported_ready (reported r member)⟩
  | waitFailed => exact ⟨_, rfl, .failed lawful⟩
  | turn a => exact inv.turn_move batched lawful.1 lawful.2

end Step

section Invariant

variable {s t : St} {a : Input}

theorem Inv.move (inv : Inv s) (move : Move s a t) : Inv t := by
  cases move with
  | clock now _ => exact inv.goto _
  | swept i now _ _ => exact inv.goto _
  | passed i now k _ _ lower upper _ _ =>
    exact inv.congr rfl rfl rfl rfl ⟨[], by simp, by simp⟩
      ⟨show 0 ≤ k + 1 by omega, show k + 1 ≤ maxEvents by omega⟩
  | expired i now k _ _ active upper _ _ =>
    have lower := active.lower
    exact (inv.release active (by omega)).congr rfl rfl rfl rfl ⟨[], by simp, by simp⟩
      ⟨show 0 ≤ k + 1 by omega, show k + 1 ≤ maxEvents by omega⟩
  | waited batch _ _ _ => exact (inv.goto _).emit rfl
  | failed _ => exact inv.goto _
  | emptied a _ => exact inv.goto _
  | skipped a r bit next _ _ => exact inv.goto _
  | called a r bit next f t _ _ ready held allowed called =>
    have logged : Active (s.emit (.invoked r.ptr f (s.gEvents.cell r.ptr).fd)) r.ptr :=
      ready.toActive.congr
    exact ((inv.emit rfl).called logged held (fun fd h => (allowed.accept fd h).1) called).goto _

/-- The masks ask for one bit, so a report that calls back in the first test has no writable
bit left for the second one. -/
theorem Inv.not_writable (inv : Inv s) {r : Report} (ready : Ready s r)
    (selects : Selects s r epollIn) : ¬ has r.events epollOut := by
  intro writable
  have asked := ready.has writable (by decide)
  have readable := selects.2
  rcases inv.mask ready.toActive with ⟨mask, -⟩ | ⟨mask, -⟩
  · rw [mask] at asked
    exact absurd asked (by decide)
  · rw [mask] at readable
    exact absurd readable (by decide)

theorem Batched.next (batched : Batched s) {r : Report} {bit : Mask} {next : Control}
    (here : testing s = some (r, bit, next)) (ctl : t.ctl = next)
    (ready : Upcoming (Ready t) next) : Batched t := by
  obtain ⟨distinct, range, -⟩ := batched
  obtain ⟨rest, ⟨before, -, rfl⟩ | ⟨before, -, rfl⟩⟩ := testing_cases here
  · rw [before] at distinct range
    exact ⟨ctl ▸ distinct, ctl ▸ range, ctl ▸ ready⟩
  · rw [before] at distinct range
    refine ⟨?_, ?_, ctl ▸ ready⟩
    · rw [ctl]
      exact (List.nodup_cons.mp distinct).2
    · rw [ctl]
      exact fun x member => range x (List.mem_cons_of_mem r member)

theorem batched_of_empty (h : reportsOf s.ctl = []) (up : Upcoming (Ready s) s.ctl) : Batched s :=
  ⟨by simp [h], by simp [h], up⟩

theorem Batched.move (inv : Inv s) (batched : Batched s) (move : Move s a t) : Batched t := by
  cases move with
  | clock now _ => exact batched_of_empty rfl trivial
  | swept i now _ _ => exact batched_of_empty rfl trivial
  | passed i now k _ _ _ _ _ _ => exact batched_of_empty rfl trivial
  | expired i now k _ _ _ _ _ _ => exact batched_of_empty rfl trivial
  | waited batch _ distinct ready =>
    refine ⟨distinct, fun r member => ?_, fun r member => (ready r member).transfer rfl⟩
    exact ⟨(ready r member).lower, (ready r member).upper⟩
  | failed _ => exact batched_of_empty rfl trivial
  | emptied a _ => exact batched_of_empty rfl trivial
  | skipped a r bit next here _ =>
    refine batched.next here rfl (batched.ready.next here batched.distinct ?_ ?_)
    · exact fun x _ ready => ready.transfer rfl
    · exact fun _ ready _ => ready.transfer rfl
  | called a r bit next f t here selects ready held _ called =>
    refine batched.next here rfl (batched.ready.next here batched.distinct ?_ ?_)
    · intro x other before
      have logged : Active (s.emit (.invoked r.ptr f (s.gEvents.cell r.ptr).fd)) x.ptr :=
        before.toActive.congr
      exact before.transfer (called.frame other logged)
    · intro first _ writable
      subst first
      exact absurd writable (inv.not_writable ready selects)

end Invariant

/-! Reachable states. -/

theorem initial_eq (lfd : Fd) (files : Finset Fd) (time : Int) (listening : lfd ∈ files) :
    initial lfd files time = some
      { ctl := .top
        gEvents := (⟨fun _ => blank⟩ : CArray (maxEvents + 1) Myevent).put maxEvents { blank with
          fd := lfd, callBack := some .acceptconn, events := epollIn, arg := some maxEvents
          status := 1, lastActive := time }
        checkpos := 0, lfd, files, interest := Interest.empty.add lfd epollIn maxEvents
        log := [] } := by
  have upper : (0 : Int) ≤ maxEvents := by decide
  simp [initial, eventset_eq upper le_rfl, eventadd_eq upper le_rfl, listening]

theorem Start.inv {s : St} (h : Start s) : Inv s ∧ Batched s := by
  obtain ⟨lfd, files, time, listening, start⟩ := h
  rw [initial_eq lfd files time listening, Option.some.injEq] at start
  have entry : ∀ k, s.gEvents.cell k = if k = maxEvents then { blank with
      fd := lfd, callBack := some .acceptconn, events := epollIn, arg := some maxEvents
      status := 1, lastActive := time } else blank := by
    intro k
    rw [← start, CArray.put_cell]
  have last : Active s maxEvents := ⟨by decide, le_rfl, by rw [entry, if_pos rfl]⟩
  have only : ∀ k, Active s k → k = maxEvents := by
    intro k active
    by_contra other
    have on := active.on
    rw [entry, if_neg other] at on
    exact absurd on (by decide)
  have log : s.log = [] := by rw [← start]
  refine ⟨?_, batched_of_empty (by rw [← start]; rfl) (by rw [← start]; trivial)⟩
  constructor
  case mirrors =>
    have idle : Mirrors (fun _ : Int => none) (Interest.empty : Interest Fd Mask Int) := by
      intro fd mask k
      simp [Interest.empty]
    have table : slot s = Function.update (fun _ => none) maxEvents (some (lfd, epollIn)) := by
      ext1 k
      by_cases same : k = maxEvents
      · subst same
        rw [Function.update_self]
        exact slot_eq_some.mpr ⟨last, by rw [entry, if_pos rfl], by rw [entry, if_pos rfl]⟩
      · rw [Function.update_of_ne same]
        exact slot_idle fun active => same (only k active)
    have registered : s.interest = Interest.empty.add lfd epollIn maxEvents := by rw [← start]
    rw [table, registered]
    exact idle.add rfl (by simp)
  case opened =>
    intro k active
    obtain rfl := only k active
    rw [entry, if_pos rfl, ← start]
    exact listening
  case self =>
    intro k active
    obtain rfl := only k active
    rw [entry, if_pos rfl]
  case clients => exact fun k active client => absurd (only k active) client
  case listener =>
    rw [entry, if_pos rfl]
    exact ⟨last, by rw [← start], rfl, rfl⟩
  case unlisted => simp [log]
  case sockets => simp [log]
  case closes => simp [log]
  case position =>
    rw [← start]
    exact ⟨le_rfl, show (0 : Int) ≤ maxEvents by decide⟩

theorem Inv.move_of_step {s t : St} {a : Input} (inv : Inv s) (batched : Batched s)
    (lawful : Lawful s a) (run : step s a = some t) : Move s a t := by
  obtain ⟨t', run', move⟩ := step_move inv batched lawful
  obtain rfl := Option.some.inj (run'.symm.trans run)
  exact move

theorem reachable_inv {s : St} (h : machine.Reachable s) : Inv s ∧ Batched s := by
  refine h.invariant (fun s start => Start.inv start) ?_
  intro s a t _ both lawful run
  obtain ⟨inv, batched⟩ := both
  have move := inv.move_of_step batched lawful run
  exact ⟨inv.move move, batched.move inv move⟩

/-- Every step out of a reachable state is a `Move`. -/
theorem reachable_move {s t : St} {a : Input} (h : machine.Reachable s)
    (lawful : machine.Lawful s a) (run : machine.step s a = some t) : Move s a t := by
  obtain ⟨inv, batched⟩ := reachable_inv h
  exact inv.move_of_step batched lawful run

/-- The table of the program against the kernel's. -/
structure Registered (s : St) : Prop where
  consistent : ∀ k, 0 ≤ k → k ≤ maxEvents → ((s.gEvents.cell k).status = 1 ↔
    (s.gEvents.cell k).fd ∈ s.files ∧
      s.interest.entry (s.gEvents.cell k).fd = some ((s.gEvents.cell k).events, k))
  distinct : ∀ k l, Active s k → Active s l →
    (s.gEvents.cell k).fd = (s.gEvents.cell l).fd → k = l
  listener : (s.gEvents.cell maxEvents).status = 1 ∧ (s.gEvents.cell maxEvents).fd = s.lfd ∧
    (s.gEvents.cell maxEvents).callBack = some .acceptconn
  clients : ∀ k, 0 ≤ k → k < maxEvents → (s.gEvents.cell k).status = 1 →
    Serves (s.gEvents.cell k)

/-- In every reachable state an entry has status 1 if and only if its descriptor is open and
registered with its mask and its address. -/
theorem registration_consistent (s : St) (h : machine.Reachable s) : Registered s := by
  obtain ⟨inv, -⟩ := reachable_inv h
  constructor
  case consistent =>
    intro k lower upper
    constructor
    · intro on
      have active : Active s k := ⟨lower, upper, on⟩
      exact ⟨inv.opened k active, (inv.mirrors _ _ k).mpr (slot_active active)⟩
    · rintro ⟨-, entry⟩
      exact (slot_eq_some.mp ((inv.mirrors _ _ k).mp entry)).1.on
  case distinct =>
    intro k l active active' same
    exact inv.distinct active active' same
  case listener =>
    obtain ⟨active, fd, held, -⟩ := inv.listener
    exact ⟨active.on, fd, held⟩
  case clients =>
    intro k lower upper on
    exact (inv.clients k ⟨lower, by omega, on⟩ (by omega)).2

/-! A run in which one client connects. -/

/-- The server listens on 4. -/
def boot : St := (initial 4 {0, 1, 2, 3, 4} 0).get (by decide +kernel)

theorem boot_start : Start boot := ⟨4, {0, 1, 2, 3, 4}, 0, by simp, by simp [boot]⟩

theorem boot_reachable : machine.Reachable boot := .start boot_start

/-- One pass of the `while` loop up to the return of `epoll_wait`. -/
def pass (now : Int) (batch : List Report) : List Input :=
  .clock now :: List.replicate 101 .check ++ [.wait batch]

def idleIf : Input := .turn ⟨none, true, none, none, 0⟩
def acceptIf (cfd : Fd) : Input := .turn ⟨some cfd, true, none, none, 0⟩
def recvIf (bytes : List Byte) : Input := .turn ⟨none, true, some bytes, none, 0⟩
def sendIf (room : Nat) : Input := .turn ⟨none, true, none, some room, 0⟩

/-- A client connects on 5 and gets entry 0. -/
def connects : List Input :=
  pass 1 [⟨4, epollIn, 1024⟩] ++ [acceptIf 5, idleIf, idleIf]

def connected : St := (machine.replay boot connects).getD boot

theorem connected_reachable : machine.Reachable connected := boot_reachable.replay_getD connects

theorem registration_consistent_connected :
    (connected.gEvents.cell 0).status = 1 ∧ Registered connected :=
  ⟨by decide +kernel, registration_consistent connected connected_reachable⟩

end JiajiaNetwork.Reactor
