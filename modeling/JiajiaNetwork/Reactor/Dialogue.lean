/- The dialogue of a connection: its callbacks and its calls of `recv` and `send` since it was
   accepted. A property of an entry and its dialogue is proved once for all runs by looking at
   one callback. -/
import JiajiaNetwork.Reactor.Registration

set_option autoImplicit false
set_option relaxedAutoImplicit false

namespace JiajiaNetwork.Reactor

open Lib

/-- The events that are part of the dialogue on `fd`. -/
def concerns (fd : Fd) : Event → Bool
  | .invoked _ _ f | .recv f _ | .send f _ _ => f = fd
  | _ => false

/-- What was said on the connection that is now on `fd`. -/
def dialogue (fd : Fd) (log : List Event) : Option (List Event) :=
  (tenure Event.life fd log).map (List.filter (concerns fd))

theorem dialogue_append {fd : Fd} {log new : List Event}
    (apart : ∀ e ∈ new, Apart Event.life fd e) :
    dialogue fd (log ++ new) = (dialogue fd log).map (· ++ new.filter (concerns fd)) := by
  unfold dialogue
  rw [tenure_append_map apart]
  cases tenure Event.life fd log with
  | none => rfl
  | some seg => simp

theorem dialogue_silent {fd : Fd} {log new : List Event}
    (apart : ∀ e ∈ new, Apart Event.life fd e) (silent : ∀ e ∈ new, concerns fd e = false) :
    dialogue fd (log ++ new) = dialogue fd log := by
  have none : new.filter (concerns fd) = [] :=
    List.filter_eq_nil_iff.mpr fun e member => by simp [silent e member]
  rw [dialogue_append apart, none]
  cases dialogue fd log <;> simp

theorem dialogue_isSome {fd : Fd} {log : List Event} :
    (dialogue fd log).isSome ↔ fd ∈ live Event.life log := by
  rw [dialogue, Option.isSome_map, tenure_isSome]

@[simp] theorem dialogue_accepted {fd : Fd} {log : List Event} :
    dialogue fd (log ++ [.accepted fd]) = some [] := by
  have fresh : tenure Event.life fd (log ++ [.accepted fd]) = some [] := tenure_opens rfl
  rw [dialogue, fresh]
  rfl

/-- The callback that the next step invokes, with its entry. -/
def calling (s : St) : Option (Int × Callback) :=
  match testing s with
  | some (r, bit, _) =>
    if Selects s r bit then (s.gEvents.cell r.ptr).callBack.map fun f => (r.ptr, f) else none
  | none => none

/-- The answers of the step meet `G` at the entry whose callback it invokes. -/
def Meets (G : Myevent → Callback → Answers → Prop) (s : St) : Input → Prop
  | .turn a => ∀ k f, calling s = some (k, f) → G (s.gEvents.cell k) f a
  | _ => True

theorem calling_eq {s : St} {r : Report} {bit : Mask} {next : Control} {f : Callback}
    (here : testing s = some (r, bit, next)) (selects : Selects s r bit)
    (held : (s.gEvents.cell r.ptr).callBack = some f) : calling s = some (r.ptr, f) := by
  simp [calling, here, selects, held]

theorem meets_calling {G : Myevent → Callback → Answers → Prop} {s : St} {a : Answers} {k : Int}
    {f : Callback} (calls : calling s = some (k, f)) :
    Meets G s (.turn a) ↔ G (s.gEvents.cell k) f a := by
  constructor
  · exact fun meets => meets k f calls
  · rintro answered k' f' now
    obtain ⟨rfl, rfl⟩ := Prod.mk.inj (Option.some.inj (calls.symm.trans now))
    exact answered

theorem meets_idle {G : Myevent → Callback → Answers → Prop} {s : St} {a : Answers}
    (idle : calling s = none) : Meets G s (.turn a) := by
  intro k f now
  simp [idle] at now

instance (G : Myevent → Callback → Answers → Prop) [∀ ev f a, Decidable (G ev f a)] (s : St) :
    (i : Input) → Decidable (Meets G s i)
  | .turn _ =>
    match calls : calling s with
    | some _ => decidable_of_iff _ (meets_calling calls).symm
    | none => isTrue (meets_idle calls)
  | .clock _ | .check | .wait _ | .waitFailed => isTrue trivial

instance (G : Myevent → Callback → Answers → Prop) [∀ ev f a, Decidable (G ev f a)] (s : St)
    (i : Input) : Decidable ((machine.guard (Meets G)).Lawful s i) :=
  inferInstanceAs (Decidable (_ ∧ _))

/-- What one callback adds to the dialogue on `fd`. -/
def said (k : Int) (f : Callback) (fd : Fd) (new : List Event) : List Event :=
  .invoked k f fd :: new.filter (concerns fd)

/-- `I` holds of every fresh entry, and every callback whose answers meet `G` keeps it and says
nothing that `R` forbids. -/
structure Conversation (G : Myevent → Callback → Answers → Prop)
    (I : Myevent → List Event → Prop) (R : List Event → Event → Prop) : Prop where
  opens : ∀ ev, ev.callBack = some .recvdata → I ev []
  calls : ∀ k ev a f new result seg, I ev seg → ev.callBack = some f → G ev f a →
    Outcome k ev a f new result →
    Always (fun pre e => R (seg ++ pre) e) (said k f ev.fd new) ∧
      ∀ ev' ∈ result, I ev' (seg ++ said k f ev.fd new)

/-- The property `R` at an event of the history, against the dialogue it is part of. -/
def Speaks (R : List Event → Event → Prop) (pre : List Event) (e : Event) : Prop :=
  ∀ fd seg, concerns fd e = true → dialogue fd pre = some seg → R seg e

/-- Every client's entry and dialogue satisfy `I`, and everything that was said satisfies `R`. -/
structure Talks (I : Myevent → List Event → Prop) (R : List Event → Event → Prop) (s : St) :
    Prop where
  clients : ∀ k, Active s k → k ≠ maxEvents → ∃ seg,
    dialogue (s.gEvents.cell k).fd s.log = some seg ∧ I (s.gEvents.cell k) seg
  said : Always (Speaks R) s.log

section Rule

variable {G : Myevent → Callback → Answers → Prop} {I : Myevent → List Event → Prop}
  {R : List Event → Event → Prop} {s t : St}

/-- Events outside every dialogue say nothing. -/
theorem speaks_silent {log new : List Event} (old : Always (Speaks R) log)
    (silent : ∀ e ∈ new, ∀ fd, concerns fd e = false) : Always (Speaks R) (log ++ new) := by
  refine always_append.mpr ⟨old, always_of_forall_mem ?_⟩
  intro e member pre fd seg concerned
  simp [silent e member fd] at concerned

/-- Steps that leave the entries of clients alone and add nothing to their dialogues. -/
theorem Talks.frame (talks : Talks I R s) (new : List Event) (log : t.log = s.log ++ new)
    (said : Always (Speaks R) t.log)
    (clients : ∀ k, Active t k → k ≠ maxEvents → Active s k ∧
      t.gEvents.cell k = s.gEvents.cell k ∧
      ∀ e ∈ new, Apart Event.life (s.gEvents.cell k).fd e ∧
        concerns (s.gEvents.cell k).fd e = false) : Talks I R t where
  said := said
  clients k active client := by
    obtain ⟨before, same, aloof⟩ := clients k active client
    obtain ⟨seg, on, holds⟩ := talks.clients k before client
    refine ⟨seg, ?_, same ▸ holds⟩
    rw [same, log, dialogue_silent (fun e he => (aloof e he).1) fun e he => (aloof e he).2]
    exact on

/-- Steps that touch no entry and log nothing. -/
theorem Talks.same (talks : Talks I R s) (entries : t.gEvents = s.gEvents) (log : t.log = s.log) :
    Talks I R t := by
  refine talks.frame [] (by simp [log]) (log ▸ talks.said) ?_
  intro k active _
  exact ⟨(active_congr entries).mp active, by rw [entries], by simp⟩

/-- `new` opens and closes nothing and is part of no dialogue but the one on `fd`. -/
structure Words (fd : Fd) (new : List Event) : Prop where
  quiet : ∀ e ∈ new, e.life = .neither
  own : ∀ e ∈ new, ∀ f, concerns f e = true → f = fd

theorem Words.nil (fd : Fd) : Words fd [] := ⟨by simp, by simp⟩

/-- Words on one connection do not touch another. -/
theorem Words.aloof {fd f : Fd} {new : List Event} (words : Words fd new) (other : f ≠ fd) :
    ∀ e ∈ new, Apart Event.life f e ∧ concerns f e = false := by
  intro e member
  refine ⟨apart_of_neither (words.quiet e member), ?_⟩
  by_contra heard
  exact other (words.own e member f (by simpa using heard))

/-- What a callback says is judged against the dialogue so far. -/
theorem speaks_said {log new : List Event} {fd : Fd} {seg : List Event}
    (old : Always (Speaks R) log) (on : dialogue fd log = some seg) (words : Words fd new)
    (speaks : Always (fun pre e => R (seg ++ pre) e) (new.filter (concerns fd))) :
    Always (Speaks R) (log ++ new) := by
  refine always_append.mpr ⟨old, ?_⟩
  intro pre e post split f seg' concerned now
  obtain rfl := words.own e (by simp [split]) f concerned
  have extended : dialogue f (log ++ pre) = some (seg ++ pre.filter (concerns f)) := by
    have before : ∀ x ∈ pre, x.life = .neither :=
      fun x member => words.quiet x (by simp [split, member])
    rw [dialogue_append (apart_of_all_neither before), on]
    rfl
  obtain rfl := Option.some.inj (extended.symm.trans now)
  exact always_filter.mp speaks pre e post split concerned

theorem said_eq (k : Int) (f : Callback) (fd : Fd) (new : List Event) :
    said k f fd new = (Event.invoked k f fd :: new).filter (concerns fd) := by
  rw [List.filter_cons_of_pos (by simp [concerns]), said]

theorem Outcome.own {k : Int} {ev : Myevent} {a : Answers} {f : Callback} {new : List Event}
    {result : Option Myevent} (h : Outcome k ev a f new result) :
    ∀ e ∈ new, ∀ fd, concerns fd e = true → fd = ev.fd := by
  intro e member fd concerned
  have first : ∀ {x : Event}, concerns fd x = true → (∀ f, concerns f x = decide (ev.fd = f)) →
      fd = ev.fd := fun here kind => (of_decide_eq_true (kind fd ▸ here)).symm
  cases h with
  | ended _ =>
    obtain rfl := List.mem_singleton.mp member
    exact first concerned fun _ => rfl
  | filled bytes _ _ _ =>
    obtain rfl := List.mem_singleton.mp member
    exact first concerned fun _ => rfl
  | overfilled bytes _ _ =>
    simp only [List.mem_cons, List.not_mem_nil, or_false] at member
    rcases member with rfl | rfl
    · exact first concerned fun _ => rfl
    · simp [concerns] at concerned
  | failed len _ _ =>
    obtain rfl := List.mem_singleton.mp member
    exact first concerned fun _ => rfl
  | sent len _ _ =>
    obtain rfl := List.mem_singleton.mp member
    exact first concerned fun _ => rfl

/-- A callback and what it does. -/
theorem Outcome.words {k : Int} {ev : Myevent} {a : Answers} {f : Callback} {new : List Event}
    {result : Option Myevent} (h : Outcome k ev a f new result) :
    Words ev.fd (.invoked k f ev.fd :: new) := by
  constructor
  case quiet =>
    intro e member
    rcases List.mem_cons.mp member with first | later
    · rw [first]
      rfl
    · exact h.quiet e later
  case own =>
    intro e member fd concerned
    rcases List.mem_cons.mp member with first | later
    · rw [first] at concerned
      exact (of_decide_eq_true concerned).symm
    · exact h.own e later fd concerned

theorem Inv.listener_of_callBack (inv : Inv s) {k : Int} (active : Active s k)
    (held : (s.gEvents.cell k).callBack = some .acceptconn) : k = maxEvents := by
  by_contra client
  cases (inv.clients k active client).2 with
  | reading other _ => rw [other] at held; exact absurd held (by decide)
  | writing other _ => rw [other] at held; exact absurd held (by decide)

/-- A call of the listener's callback is part of no dialogue. -/
theorem speaks_listener (inv : Inv s) (old : Always (Speaks R) s.log) (k : Int) (f : Callback) :
    Always (Speaks R) (s.log ++ [.invoked k f s.lfd]) := by
  refine always_append.mpr ⟨old, ?_⟩
  rw [always_cons]
  refine ⟨?_, always_nil _⟩
  intro fd seg concerned on
  obtain rfl : s.lfd = fd := by simpa [concerns] using concerned
  rw [List.append_nil] at on
  exact absurd (dialogue_isSome.mp (by simp [on])) inv.unlisted

/-- An entry says its last words and gives up its connection. -/
theorem Talks.release (inv : Inv s) (talks : Talks I R s) {k : Int} (new : List Event)
    (active : Active s k) (words : Words (s.gEvents.cell k).fd new)
    (said : Always (Speaks R) (s.log ++ new)) : Talks I R ((s.told new).release k) := by
  refine talks.frame (new ++ [.closed (s.gEvents.cell k).fd]) (by simp)
    (speaks_silent said (by simp [concerns])) ?_
  intro l now _
  have other : l ≠ k := by
    rintro rfl
    exact absurd now.on (by simp)
  have told : Active (s.told new) l := (active_put rfl other).mp now
  have before : Active s l := told.congr
  have apart : (s.gEvents.cell l).fd ≠ (s.gEvents.cell k).fd :=
    fun same => other (inv.distinct before active same)
  refine ⟨before, CArray.put_cell_of_ne _ _ other, fun e member => ?_⟩
  rcases List.mem_append.mp member with word | last
  · exact words.aloof apart e word
  · obtain rfl := List.mem_singleton.mp last
    exact ⟨apart_closed apart, rfl⟩

theorem Talks.listener (inv : Inv s) (talks : Talks I R s) :
    Talks I R (s.emit (.invoked maxEvents .acceptconn s.lfd)) := by
  refine talks.frame _ rfl (speaks_listener inv talks.said maxEvents .acceptconn) ?_
  intro l now client
  have before : Active s l := now.congr
  refine ⟨before, rfl, fun e member => ?_⟩
  obtain rfl := List.mem_singleton.mp member
  refine ⟨apart_of_neither rfl, ?_⟩
  obtain ⟨last, fd, -⟩ := inv.listener
  have other : s.lfd ≠ (s.gEvents.cell l).fd := by
    intro same
    exact client (inv.distinct before last (same.symm.trans fd.symm))
  simpa [concerns] using other

theorem Talks.opened_socket (inv : Inv s) (talks : Talks I R s) {cfd : Fd}
    (fresh : cfd ∉ s.files) : Talks I R (s.opened cfd) := by
  refine talks.frame _ rfl (speaks_silent talks.said (by simp [concerns])) ?_
  intro l now _
  have before : Active s l := now.congr
  refine ⟨before, rfl, fun e member => ?_⟩
  obtain rfl := List.mem_singleton.mp member
  have other : (s.gEvents.cell l).fd ≠ cfd := by
    rintro rfl
    exact fresh (inv.opened l before)
  exact ⟨apart_accepted other, rfl⟩

theorem Talks.adopt (inv : Inv s) (talks : Talks I R s) (conv : Conversation G I R) {i : Int}
    {cfd : Fd} {time : Int} (fresh : cfd ∉ s.files) : Talks I R (s.adopt i cfd time) := by
  have accepted := talks.opened_socket inv fresh
  refine ⟨fun l now client => ?_, accepted.said⟩
  by_cases same : l = i
  · subst same
    refine ⟨[], ?_, ?_⟩
    · simp
    · rw [St.adopt_gEvents, CArray.put_cell_same]
      exact conv.opens _ rfl
  · have before : Active (s.opened cfd) l := (active_put (s := s.opened cfd) rfl same).mp now
    obtain ⟨seg, on, holds⟩ := accepted.clients l before client
    rw [St.adopt_gEvents, CArray.put_cell_of_ne _ _ same]
    exact ⟨seg, on, holds⟩

theorem Talks.rearm (inv : Inv s) (talks : Talks I R s) {k : Int} {ev : Myevent}
    {new seg : List Event} (active : Active s k) (same : ev.fd = (s.gEvents.cell k).fd)
    (words : Words (s.gEvents.cell k).fd new) (said : Always (Speaks R) (s.log ++ new))
    (on : dialogue (s.gEvents.cell k).fd (s.log ++ new) = some seg) (holds : I ev seg) :
    Talks I R ((s.told new).rearm k ev) := by
  refine ⟨fun l now client => ?_, said⟩
  by_cases here : l = k
  · subst here
    rw [St.rearm_gEvents, CArray.put_cell_same]
    exact ⟨seg, same ▸ on, holds⟩
  · have told : Active (s.told new) l := (active_put rfl here).mp now
    have before : Active s l := told.congr
    obtain ⟨seg', on', holds'⟩ := talks.clients l before client
    have aloof := words.aloof fun other => here (inv.distinct before active other)
    rw [St.rearm_gEvents, CArray.put_cell_of_ne _ _ here]
    refine ⟨seg', ?_, holds'⟩
    rw [← on']
    exact dialogue_silent (fun e member => (aloof e member).1) fun e member => (aloof e member).2

theorem Talks.called (inv : Inv s) (talks : Talks I R s) (conv : Conversation G I R) {k : Int}
    {f : Callback} {a : Answers} (active : Active s k)
    (held : (s.gEvents.cell k).callBack = some f) (meets : G (s.gEvents.cell k) f a)
    (fresh : ∀ fd ∈ a.accept, fd ∉ s.files)
    (called : Called (s.emit (.invoked k f (s.gEvents.cell k).fd)) k a f t) : Talks I R t := by
  by_cases listening : f = .acceptconn
  · subst listening
    obtain rfl := inv.listener_of_callBack active held
    rw [inv.listener.2.1] at called
    have told := talks.listener inv
    have same : Inv (s.emit (.invoked maxEvents .acceptconn s.lfd)) := inv.emit rfl
    cases called with
    | refused _ => exact told
    | leaked cfd answer _ => exact told.opened_socket same (fresh cfd answer)
    | adopted cfd answer _ _ _ _ => exact told.adopt same conv (fresh cfd answer)
    | released f new outcome => exact absurd rfl outcome.not_acceptconn
    | rearmed f new ev outcome => exact absurd rfl outcome.not_acceptconn
  · have client := inv.client_of_callBack held listening
    obtain ⟨seg, on, holds⟩ := talks.clients k active client
    have merge : ∀ new, (s.emit (.invoked k f (s.gEvents.cell k).fd)).told new =
        s.told (.invoked k f (s.gEvents.cell k).fd :: new) := by
      intro new
      simp [St.emit, St.told]
    have speaks : ∀ {new result}, Outcome k (s.gEvents.cell k) a f new result →
        Always (Speaks R) (s.log ++ Event.invoked k f (s.gEvents.cell k).fd :: new) := by
      intro new result outcome
      apply speaks_said talks.said on outcome.words
      rw [← said_eq]
      exact (conv.calls k _ a f new result seg holds held meets outcome).1
    cases called with
    | refused _ => exact absurd rfl listening
    | leaked cfd _ _ => exact absurd rfl listening
    | adopted cfd _ _ _ _ _ => exact absurd rfl listening
    | released f new outcome =>
      rw [merge]
      exact talks.release inv _ active outcome.words (speaks outcome)
    | rearmed f new ev outcome =>
      rw [merge]
      have words : Words (s.gEvents.cell k).fd (.invoked k f (s.gEvents.cell k).fd :: new) :=
        outcome.words
      have extended : dialogue (s.gEvents.cell k).fd
          (s.log ++ Event.invoked k f (s.gEvents.cell k).fd :: new) =
            some (seg ++ Reactor.said k f (s.gEvents.cell k).fd new) := by
        rw [dialogue_append (apart_of_all_neither words.quiet), on, said_eq]
        rfl
      exact talks.rearm inv active outcome.armed.1 words (speaks outcome) extended
        ((conv.calls k _ a f new (some ev) seg holds held meets outcome).2 ev rfl)

theorem Talks.move {a : Input} (inv : Inv s) (talks : Talks I R s) (conv : Conversation G I R)
    (meets : Meets G s a) (move : Move s a t) : Talks I R t := by
  cases move with
  | clock now _ => exact talks.same rfl rfl
  | swept i now _ _ => exact talks.same rfl rfl
  | passed i now k _ _ _ _ _ _ => exact talks.same rfl rfl
  | expired i now k _ _ active _ _ _ =>
    have gone := talks.release inv [] active (.nil _) (by simpa using talks.said)
    exact gone.same (by simp) (by simp)
  | waited batch _ _ _ =>
    refine talks.frame _ rfl (speaks_silent talks.said (by simp [concerns])) ?_
    intro l now _
    refine ⟨now.congr, rfl, fun e member => ?_⟩
    obtain rfl := List.mem_singleton.mp member
    exact ⟨apart_of_neither rfl, rfl⟩
  | failed _ => exact talks.same rfl rfl
  | emptied a _ => exact talks.same rfl rfl
  | skipped a r bit next _ _ => exact talks.same rfl rfl
  | called a r bit next f t here selects ready held allowed called =>
    have answered := meets r.ptr f (calling_eq here selects held)
    exact (talks.called inv conv ready.toActive held answered
      (fun fd h => (allowed.accept fd h).1) called).same rfl rfl

end Rule

/-- The rule: what one callback keeps holds of every entry and dialogue in every run. -/
theorem Conversation.talks {G : Myevent → Callback → Answers → Prop}
    {I : Myevent → List Event → Prop} {R : List Event → Event → Prop} (conv : Conversation G I R)
    {s : St} (h : (machine.guard (Meets G)).Reachable s) : Talks I R s := by
  refine h.invariant ?_ ?_
  · rintro s ⟨lfd, files, time, listening, start⟩
    have inv := (Start.inv ⟨lfd, files, time, listening, start⟩).1
    rw [initial_eq lfd files time listening, Option.some.injEq] at start
    have log : s.log = [] := by rw [← start]
    refine ⟨fun k active client => ?_, by simp [log]⟩
    have member := (inv.clients k active client).1
    simp [log] at member
  · intro s a t reach talks lawful run
    have base := reach.of_guard
    exact talks.move (reachable_inv base).1 conv lawful.2 (reachable_move base lawful.1 run)

end JiajiaNetwork.Reactor
