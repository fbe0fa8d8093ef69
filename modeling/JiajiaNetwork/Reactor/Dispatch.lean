/- The dispatch loop is safe: a callback runs for a report of the batch at hand, at most once
   for each, with the callback and the connection that its entry held when `epoll_wait`
   returned. The callbacks of one connection alternate. -/
import JiajiaNetwork.Reactor.Dialogue

set_option autoImplicit false
set_option relaxedAutoImplicit false

namespace JiajiaNetwork.Reactor

open Lib

/-- A return of `epoll_wait`: its reports, each with the callback that was registered then. -/
def Event.batch : Event → Option (List (Report × Option Callback))
  | .waited batch => some batch
  | _ => none

def Event.invokes (k : Int) : Event → Bool
  | .invoked l _ _ => l = k
  | _ => false

/-- Since the batch was returned, nothing happened to the report's connection, its entry was
not called, and the entry still holds the callback it held then. -/
def Pending (s : St) (r : Report) : Prop :=
  ∃ batch seg, since Event.batch s.log = some (batch, seg) ∧
    (r, (s.gEvents.cell r.ptr).callBack) ∈ batch ∧
    ∀ e ∈ seg, Apart Event.life r.fd e ∧ e.invokes r.ptr = false

section Pending

variable {s t : St} {k : Int} {a : Answers} {f : Callback}

theorem Pending.extend {r : Report} (pending : Pending s r) (new : List Event)
    (log : t.log = s.log ++ new) (same : t.gEvents.cell r.ptr = s.gEvents.cell r.ptr)
    (aloof : ∀ e ∈ new, e.batch = none ∧ Apart Event.life r.fd e ∧ e.invokes r.ptr = false) :
    Pending t r := by
  obtain ⟨batch, seg, returned, member, untouched⟩ := pending
  refine ⟨batch, seg ++ new, ?_, ?_, ?_⟩
  · rw [log]
    exact since_append returned fun e here => (aloof e here).1
  · rw [same]
    exact member
  · intro e here
    rcases List.mem_append.mp here with old | recent
    · exact untouched e old
    · exact (aloof e recent).2

/-- A callback itself returns no batch and calls no entry. -/
theorem Outcome.plain {ev : Myevent} {new : List Event} {result : Option Myevent}
    (h : Outcome k ev a f new result) : ∀ e ∈ new, e.batch = none ∧ ∀ l, e.invokes l = false := by
  cases h <;> simp [Event.batch, Event.invokes]

/-- What a callback adds to the history touches its own connection and a new one only. -/
theorem Called.log (called : Called s k a f t) : ∃ new, t.log = s.log ++ new ∧
    ∀ e ∈ new, e.batch = none ∧ (∀ l, e.invokes l = false) ∧
      ∀ fd, fd ≠ (s.gEvents.cell k).fd → (∀ cfd ∈ a.accept, fd ≠ cfd) → Apart Event.life fd e := by
  cases called with
  | refused _ => exact ⟨[], by simp, by simp⟩
  | leaked cfd answer _ =>
    refine ⟨[.accepted cfd], rfl, fun e here => ?_⟩
    obtain rfl := List.mem_singleton.mp here
    exact ⟨rfl, fun _ => rfl, fun fd _ fresh => apart_accepted (fresh cfd answer)⟩
  | adopted cfd answer _ _ _ _ =>
    refine ⟨[.accepted cfd], rfl, fun e here => ?_⟩
    obtain rfl := List.mem_singleton.mp here
    exact ⟨rfl, fun _ => rfl, fun fd _ fresh => apart_accepted (fresh cfd answer)⟩
  | released f new outcome =>
    refine ⟨new ++ [.closed (s.gEvents.cell k).fd], by simp, fun e here => ?_⟩
    rcases List.mem_append.mp here with word | last
    · obtain ⟨batch, invokes⟩ := outcome.plain e word
      exact ⟨batch, invokes, fun fd _ _ => apart_of_neither (outcome.quiet e word)⟩
    · obtain rfl := List.mem_singleton.mp last
      exact ⟨rfl, fun _ => rfl, fun fd other _ => apart_closed other⟩
  | rearmed f new ev outcome =>
    refine ⟨new, rfl, fun e word => ?_⟩
    obtain ⟨batch, invokes⟩ := outcome.plain e word
    exact ⟨batch, invokes, fun fd _ _ => apart_of_neither (outcome.quiet e word)⟩

theorem Upcoming.and {P Q : Report → Prop} {ctl : Control} (p : Upcoming P ctl)
    (q : Upcoming Q ctl) : Upcoming (fun r => P r ∧ Q r) ctl := by
  cases ctl with
  | handling batch => exact fun r member => ⟨p r member, q r member⟩
  | second r rest =>
    constructor
    · exact fun writable => ⟨p.1 writable, q.1 writable⟩
    · exact fun x member => ⟨p.2 x member, q.2 x member⟩
  | top => trivial
  | sweeping i now => trivial
  | waiting => trivial
  | exited => trivial

/-- Handling one report leaves the others pending. -/
theorem Pending.aside (inv : Inv s) {r x : Report} (ready : Ready s r) (other : x.ptr ≠ r.ptr)
    (allowed : Allowed s a) (due : Ready s x ∧ Pending s x)
    (called : Called (s.emit (.invoked r.ptr f (s.gEvents.cell r.ptr).fd)) r.ptr a f t) :
    Pending t x := by
  obtain ⟨ahead, pending⟩ := due
  have logged : Active (s.emit (.invoked r.ptr f (s.gEvents.cell r.ptr).fd)) x.ptr :=
    ahead.toActive.congr
  obtain ⟨new, log, plain⟩ := called.log
  have apart : x.fd ≠ (s.gEvents.cell r.ptr).fd := by
    intro same
    exact other (inv.distinct ahead.toActive ready.toActive (ahead.fd.trans same))
  have fresh : ∀ cfd ∈ a.accept, x.fd ≠ cfd := by
    rintro cfd answer same
    apply (allowed.accept cfd answer).1
    rw [← same, ← ahead.fd]
    exact inv.opened x.ptr ahead.toActive
  refine pending.extend (.invoked r.ptr f (s.gEvents.cell r.ptr).fd :: new) ?_
    (called.frame other logged) ?_
  · rw [log]
    simp [St.emit]
  · intro e here
    rcases List.mem_cons.mp here with rfl | later
    · exact ⟨rfl, apart_of_neither rfl, by simp [Event.invokes, Ne.symm other]⟩
    · obtain ⟨batch, invokes, aloof⟩ := plain e later
      exact ⟨batch, aloof x.fd apart fresh, invokes x.ptr⟩

theorem pending_move {i : Input} (inv : Inv s) (batched : Batched s)
    (pending : Upcoming (Pending s) s.ctl) (move : Move s i t) : Upcoming (Pending t) t.ctl := by
  have due := batched.ready.and pending
  cases move with
  | clock now _ => trivial
  | swept i now _ _ => trivial
  | passed i now k _ _ _ _ _ _ => trivial
  | expired i now k _ _ _ _ _ _ => trivial
  | failed _ => trivial
  | emptied a _ => trivial
  | waited batch _ _ _ =>
    intro r member
    refine ⟨_, [], since_mark rfl, ?_, by simp⟩
    exact List.mem_map.mpr ⟨r, member, rfl⟩
  | skipped a r bit next here _ =>
    apply pending.next here batched.distinct
    · exact fun x _ waits => waits.extend [] (by simp) rfl (by simp)
    · exact fun _ waits _ => waits.extend [] (by simp) rfl (by simp)
  | called a r bit next f t here selects ready held allowed called =>
    apply due.next here batched.distinct
    · intro x other waits
      exact (Pending.aside inv ready other allowed waits called).extend [] (by simp) rfl
        (by simp)
    · intro first _ writable
      subst first
      exact absurd writable (inv.not_writable ready selects)

end Pending

theorem reachable_pending {s : St} (h : machine.Reachable s) : Upcoming (Pending s) s.ctl := by
  apply h.invariant (I := fun s => Upcoming (Pending s) s.ctl)
  · rintro s ⟨lfd, files, time, listening, start⟩
    rw [initial_eq lfd files time listening, Option.some.injEq] at start
    rw [← start]
    trivial
  · intro s a t reach pending lawful run
    obtain ⟨inv, batched⟩ := reachable_inv reach
    exact pending_move inv batched pending (reachable_move reach lawful run)

/-- What holds when the entry at `k` is called with descriptor `fd`. -/
structure Due (s : St) (k : Int) (f : Callback) (fd : Fd) : Prop where
  /-- a report for this entry and descriptor is in the batch, `f` was registered then, and
  since then the entry was not called and the descriptor neither closed nor accepted again -/
  reported : ∃ r batch seg, since Event.batch s.log = some (batch, seg) ∧ (r, some f) ∈ batch ∧
    r.ptr = k ∧ r.fd = fd ∧ ∀ e ∈ seg, Apart Event.life fd e ∧ e.invokes k = false
  active : Active s k
  owned : (s.gEvents.cell k).fd = fd
  opened : fd ∈ s.files
  connection : f ≠ .acceptconn → fd ∈ live Event.life s.log

theorem due_of_calling {s : St} (h : machine.Reachable s) {k : Int} {f : Callback}
    (calls : calling s = some (k, f)) : Due s k f (s.gEvents.cell k).fd := by
  obtain ⟨inv, batched⟩ := reachable_inv h
  unfold calling at calls
  split at calls
  · rename_i r bit next here
    split_ifs at calls with selects
    obtain ⟨f', held, pair⟩ := Option.map_eq_some_iff.mp calls
    obtain ⟨rfl, rfl⟩ := Prod.mk.inj pair
    have ready := (batched.report here).2 selects
    have pending : Pending s r := by
      have ahead := reachable_pending h
      obtain ⟨rest, ⟨ctl, -⟩ | ⟨ctl, rfl, -⟩⟩ := testing_cases here
      · rw [ctl] at ahead
        exact ahead r (by simp)
      · rw [ctl] at ahead
        exact ahead.1 selects.1
    obtain ⟨batch, seg, returned, member, untouched⟩ := pending
    constructor
    case reported =>
      rw [held] at member
      exact ⟨r, batch, seg, returned, member, rfl, ready.fd.symm, ready.fd.symm ▸ untouched⟩
    case active => exact ready.toActive
    case owned => rfl
    case opened => exact inv.opened r.ptr ready.toActive
    case connection =>
      intro other
      exact (inv.clients r.ptr ready.toActive (inv.client_of_callBack held other)).1
  · simp at calls

/-! The callbacks of one connection. -/

def callbacks (log : List Event) : List Callback :=
  log.filterMap fun
    | .invoked _ f _ => some f
    | _ => none

/-- A callback continues the alternation of those in the dialogue so far. -/
def InTurn (seg : List Event) : Event → Prop
  | .invoked _ f _ => Alternates .recvdata .senddata (callbacks seg ++ [f])
  | _ => True

/-- The entry holds the callback that is next in the alternation. -/
structure NextInTurn (ev : Myevent) (seg : List Event) : Prop where
  past : Alternates .recvdata .senddata (callbacks seg)
  next : ev.callBack = some (upNext .recvdata .senddata (callbacks seg))

theorem Outcome.callbacks_said {k : Int} {ev : Myevent} {a : Answers} {f : Callback}
    {new : List Event} {result : Option Myevent} (h : Outcome k ev a f new result) :
    callbacks (said k f ev.fd new) = [f] := by
  cases h <;> simp [callbacks, said, concerns]

/-- A callback leaves the other one behind. -/
theorem Outcome.turns {k : Int} {ev ev' : Myevent} {a : Answers} {f : Callback}
    {new : List Event} (h : Outcome k ev a f new (some ev')) :
    (f = .recvdata ∧ ev'.callBack = some .senddata) ∨
    (f = .senddata ∧ ev'.callBack = some .recvdata) := by
  cases h with
  | filled bytes _ _ _ => exact .inl ⟨rfl, rfl⟩
  | overfilled bytes _ _ => exact .inl ⟨rfl, rfl⟩
  | sent len _ _ => exact .inr ⟨rfl, rfl⟩

theorem alternation : Conversation (fun _ _ _ => True) NextInTurn InTurn where
  opens ev fresh := ⟨trivial, fresh⟩
  calls k ev a f new result seg holds held _ outcome := by
    have now : f = upNext .recvdata .senddata (callbacks seg) := by
      rw [holds.next] at held
      exact (Option.some.inj held).symm
    have past : Alternates .recvdata .senddata (callbacks seg ++ [f]) :=
      alternates_concat.mpr ⟨holds.past, now⟩
    have extended : callbacks (seg ++ said k f ev.fd new) = callbacks seg ++ [f] := by
      rw [← outcome.callbacks_said]
      exact List.filterMap_append
    constructor
    · unfold said
      rw [always_cons]
      constructor
      · simpa [InTurn] using past
      · apply always_of_forall_mem
        intro e member pre
        have silent := (outcome.plain e (List.mem_filter.mp member).1).2
        cases e with
        | invoked l f fd => exact absurd (silent l) (by simp [Event.invokes])
        | waited _ => trivial
        | accepted _ => trivial
        | closed _ => trivial
        | recv _ _ => trivial
        | send _ _ _ => trivial
        | spilled _ => trivial
    · rintro ev' rfl
      refine ⟨extended ▸ past, ?_⟩
      rw [extended, upNext_concat]
      rcases outcome.turns with ⟨rfl, next⟩ | ⟨rfl, next⟩
      · rcases upNext_swap (a := Callback.recvdata) (b := .senddata) (l := callbacks seg) with
          ⟨-, other⟩ | ⟨this, -⟩
        · rw [other, next]
        · exact absurd (now.trans this) (by decide)
      · rcases upNext_swap (a := Callback.recvdata) (b := .senddata) (l := callbacks seg) with
          ⟨this, -⟩ | ⟨-, other⟩
        · exact absurd (now.trans this) (by decide)
        · rw [other, next]

/-- A step calls nothing but the callback that is due. -/
theorem Move.calls {s t : St} {a : Input} (move : Move s a t) {k : Int} {f : Callback} {fd : Fd}
    (invoked : .invoked k f fd ∈ t.log.drop s.log.length) :
    calling s = some (k, f) ∧ fd = (s.gEvents.cell k).fd := by
  cases move with
  | clock now _ => simp at invoked
  | swept i now _ _ => simp at invoked
  | passed i now k _ _ _ _ _ _ => simp at invoked
  | expired i now k _ _ _ _ _ _ => simp at invoked
  | waited batch _ _ _ => simp [St.emit] at invoked
  | failed _ => simp at invoked
  | emptied a _ => simp at invoked
  | skipped a r bit next _ _ => simp at invoked
  | called a r bit next g m here selects ready held _ called =>
    obtain ⟨new, log, plain⟩ := called.log
    have tail : m.log.drop s.log.length =
        .invoked r.ptr g (s.gEvents.cell r.ptr).fd :: new := by
      rw [log]
      simp [St.emit]
    have member : Event.invoked k f fd ∈ Event.invoked r.ptr g (s.gEvents.cell r.ptr).fd :: new :=
      tail ▸ invoked
    rcases List.mem_cons.mp member with same | later
    · obtain ⟨rfl, rfl, rfl⟩ := Event.invoked.inj same
      exact ⟨calling_eq here selects held, rfl⟩
    · exact absurd ((plain _ later).2.1 k) (by simp [Event.invokes])

/-- The dispatch loop in a state: no step faults, what the next step calls is due, and what was
called so far alternates on every connection. -/
structure DispatchSafe (s : St) : Prop where
  runs : ∀ a, machine.Lawful s a → (machine.step s a).isSome
  due : ∀ a t, machine.Lawful s a → machine.step s a = some t → ∀ k f fd,
    .invoked k f fd ∈ t.log.drop s.log.length → Due s k f fd
  alternates : Always (Speaks InTurn) s.log

theorem dispatch_safe (s : St) (h : machine.Reachable s) : DispatchSafe s := by
  obtain ⟨inv, batched⟩ := reachable_inv h
  constructor
  case runs =>
    intro a lawful
    obtain ⟨t, run, -⟩ := step_move inv batched lawful
    exact Option.isSome_of_mem run
  case due =>
    intro a t lawful run k f fd invoked
    obtain ⟨calls, rfl⟩ := (reachable_move h lawful run).calls invoked
    exact due_of_calling h calls
  case alternates =>
    have answered : ∀ s a, Meets (fun _ _ _ => True) s a := by
      intro s a
      cases a <;> simp [Meets]
    exact (alternation.talks (h.guard answered)).said

/-- The client on 5 has written, and its report is the next to be handled. -/
def readable : St := (machine.replay connected (pass 2 [⟨5, epollIn, 0⟩])).getD connected

theorem dispatch_safe_readable :
    calling readable = some (0, .recvdata) ∧ DispatchSafe readable :=
  ⟨by decide +kernel, dispatch_safe readable (connected_reachable.replay_getD _)⟩

end JiajiaNetwork.Reactor
