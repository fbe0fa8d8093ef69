/- The reactor as a set of sessions. Entries, batches, timeouts and descriptors that are given out
   again leave nothing behind: in every run a connection is served as if it were the only one. -/
import Mathlib.Data.Int.Range
import JiajiaNetwork.Lib.Sessions
import JiajiaNetwork.Reactor.Buffer

set_option autoImplicit false
set_option relaxedAutoImplicit false

namespace JiajiaNetwork.Reactor

open Lib

/-- A connection that no entry took; one whose next chunk is awaited; one to which a chunk is to be
sent back. -/
inductive Session
  | unserved
  | reading
  | writing (pending : List Byte)
  deriving DecidableEq

/-- A call on the connection and its result. -/
inductive Word
  | recv (answer : Option (List Byte))
  | send (given : List Byte) (answer : Option Nat)

/-- What is to be sent back of a chunk: nothing of one that fills the buffer, since the byte behind
the buffer is that of `len`. -/
def keptOf (bytes : List Byte) : List Byte := if bytes.length < buflen then bytes else []

def Session.next : Session → Word → Option Session
  | .reading, .recv (some bytes) =>
    if 0 < bytes.length ∧ bytes.length ≤ buflen then some (.writing (keptOf bytes)) else none
  | .writing pending, .send given (some n) =>
    if given = pending ∧ 0 < n ∧ n ≤ pending.length then some .reading else none
  | _, _ => none

/-- A session ends with the stream or an error, or without a word. When it ends without a word is
part of `Parts`. -/
def Session.Ends : Session → Option Word → Prop
  | .reading, some (.recv answer) => answer.getD [] = []
  | .writing pending, some (.send given answer) => given = pending ∧ answer.getD 0 = 0
  | .reading, none | .writing _, none => True
  | _, _ => False

def protocol : Protocol Session Word where
  Fresh x := x = .unserved ∨ x = .reading
  next := Session.next
  Ends := Session.Ends

def sessionOf (ev : Myevent) : Session :=
  if ev.callBack = some .senddata then .writing ev.outgoing else .reading

def sessionAt (s : St) (fd : Fd) : Session :=
  match s.interest.entry fd with
  | some (_, k) => sessionOf (s.gEvents.cell k)
  | none => .unserved

def Event.word? : Event → Option Word
  | .recv _ answer => some (.recv answer)
  | .send _ given answer => some (.send given answer)
  | _ => none

/-- The calls on the connection that is now on `fd`. -/
def wordsOf (s : St) (fd : Fd) : List Word :=
  ((dialogue fd s.log).getD []).filterMap Event.word?

def sessionsOf (s : St) : Sessions Fd Session Word where
  session fd := if fd ∈ live Event.life s.log then some (sessionAt s fd) else none
  said := wordsOf s

/-- The calls that a step makes on the connection on `fd`. -/
def callsOf (s t : St) (fd : Fd) : List Word :=
  ((t.log.drop s.log.length).filter (concerns fd)).filterMap Event.word?

/-- How the step takes the connection on `fd` away: with the last call on it, or in a sweep, which
makes no call and comes when the entry was not active for `idleLimit` seconds. -/
structure Parts (s t : St) (fd : Fd) (last : Option Word) : Prop where
  calls : callsOf s t fd = last.toList
  idle : last = none → ∃ i now k, s.ctl = .sweeping i now ∧ Active s k ∧
    (s.gEvents.cell k).fd = fd ∧ idleLimit ≤ now - (s.gEvents.cell k).lastActive

section Views

variable {s t : St} {k : Int} {fd : Fd}

theorem sessionAt_active (inv : Inv s) (active : Active s k) :
    sessionAt s (s.gEvents.cell k).fd = sessionOf (s.gEvents.cell k) := by
  have entry := (inv.mirrors _ _ k).mpr (slot_active active)
  rw [sessionAt, entry]

theorem sessionAt_unheld (inv : Inv s) (unheld : ∀ k, Active s k → (s.gEvents.cell k).fd ≠ fd) :
    sessionAt s fd = .unserved := by
  have none : s.interest.entry fd = none := by
    apply inv.mirrors.absent
    intro k mask held
    obtain ⟨active, same, -⟩ := slot_eq_some.mp held
    exact unheld k active same
  rw [sessionAt, none]

theorem session_live (on : fd ∈ live Event.life s.log) :
    (sessionsOf s).session fd = some (sessionAt s fd) := if_pos on

theorem session_outside (off : fd ∉ live Event.life s.log) :
    (sessionsOf s).session fd = none := if_neg off

theorem said_outside (off : fd ∉ live Event.life s.log) : (sessionsOf s).said fd = [] := by
  have none : dialogue fd s.log = none := by
    rw [← Option.not_isSome_iff_eq_none, dialogue_isSome]
    exact off
  show wordsOf s fd = []
  rw [wordsOf, none]
  rfl

/-- `t` has of the connection on `fd` what `s` has. -/
def SameAt (s t : St) (fd : Fd) : Prop :=
  (sessionsOf t).session fd = (sessionsOf s).session fd ∧
    (sessionsOf t).said fd = (sessionsOf s).said fd

/-- The entry that holds `fd` is left alone, if there is one, and nothing is said on `fd`. -/
theorem sameAt_frame (inv : Inv s) (inv' : Inv t) (new : List Event) (log : t.log = s.log ++ new)
    (aloof : ∀ e ∈ new, Apart Event.life fd e ∧ concerns fd e = false)
    (held : ∀ k, Active s k → (s.gEvents.cell k).fd = fd →
      Active t k ∧ t.gEvents.cell k = s.gEvents.cell k)
    (unheld : ∀ k, Active t k → (t.gEvents.cell k).fd = fd →
      Active s k ∧ (s.gEvents.cell k).fd = fd) : SameAt s t fd := by
  have apart : ∀ e ∈ new, Apart Event.life fd e := fun e he => (aloof e he).1
  have session : sessionAt t fd = sessionAt s fd := by
    by_cases here : ∃ k, Active s k ∧ (s.gEvents.cell k).fd = fd
    · obtain ⟨k, active, rfl⟩ := here
      obtain ⟨still, same⟩ := held k active rfl
      rw [sessionAt_active inv active, ← same, sessionAt_active inv' still]
    · rw [sessionAt_unheld inv fun k active same => here ⟨k, active, same⟩]
      apply sessionAt_unheld inv'
      intro k active same
      exact here ⟨k, unheld k active same⟩
  have words : dialogue fd t.log = dialogue fd s.log := by
    rw [log, dialogue_silent apart fun e he => (aloof e he).2]
  have alive : fd ∈ live Event.life t.log ↔ fd ∈ live Event.life s.log := by
    rw [log, mem_live_append apart]
  constructor
  · by_cases on : fd ∈ live Event.life s.log
    · rw [session_live on, session_live (alive.mpr on), session]
    · rw [session_outside on, session_outside fun now => on (alive.mp now)]
  · show wordsOf t fd = wordsOf s fd
    rw [wordsOf, words, wordsOf]

/-- A step that changes what there is of one connection is an act of that session. -/
theorem step_opens {x : Session} (off : fd ∉ live Event.life s.log)
    (log : t.log = s.log ++ [.accepted fd]) (begins : sessionAt t fd = x)
    (others : ∀ f, f ≠ fd → SameAt s t f) :
    Sessions.step protocol (sessionsOf s) (.opens fd x) = some (sessionsOf t) := by
  have grown : live Event.life (s.log ++ [.accepted fd]) = insert fd (live Event.life s.log) :=
    live_opens rfl
  have on : fd ∈ live Event.life t.log := by
    rw [log, grown]
    exact Finset.mem_insert_self fd _
  have words : (sessionsOf t).said fd = [] := by
    show wordsOf t fd = []
    rw [wordsOf, log, dialogue_accepted]
    rfl
  rw [Sessions.step, session_outside off, Option.isSome_none, if_neg Bool.false_ne_true,
    Option.some.injEq]
  apply Sessions.ext_at
  · intro f
    rw [Sessions.opens_session]
    by_cases same : f = fd
    · subst same
      rw [Function.update_self, session_live on, begins]
    · rw [Function.update_of_ne same, (others f same).1]
  · intro f
    rw [Sessions.opens_said]
    by_cases same : f = fd
    · subst same
      rw [Function.update_self, words]
    · rw [Function.update_of_ne same, (others f same).2]

theorem step_ends {last : Option Word} (on : fd ∈ live Event.life s.log)
    (off : fd ∉ live Event.life t.log) (others : ∀ f, f ≠ fd → SameAt s t f) :
    Sessions.step protocol (sessionsOf s) (.ends fd last) = some (sessionsOf t) := by
  rw [Sessions.step, session_live on, Option.map_some, Option.some.injEq]
  apply Sessions.ext_at
  · intro f
    rw [Sessions.ends_session]
    by_cases same : f = fd
    · subst same
      rw [Function.update_self, session_outside off]
    · rw [Function.update_of_ne same, (others f same).1]
  · intro f
    rw [Sessions.ends_said]
    by_cases same : f = fd
    · subst same
      rw [Function.update_self, said_outside off]
    · rw [Function.update_of_ne same, (others f same).2]

theorem step_speaks {word : Word} (on : fd ∈ live Event.life s.log)
    (on' : fd ∈ live Event.life t.log)
    (next : protocol.next (sessionAt s fd) word = some (sessionAt t fd))
    (said : wordsOf t fd = wordsOf s fd ++ [word]) (others : ∀ f, f ≠ fd → SameAt s t f) :
    Sessions.step protocol (sessionsOf s) (.speaks fd word) = some (sessionsOf t) := by
  rw [Sessions.step, session_live on, Option.bind_some, next, Option.map_some, Option.some.injEq]
  apply Sessions.ext_at
  · intro f
    rw [Sessions.speaks_session]
    by_cases same : f = fd
    · subst same
      rw [Function.update_self, session_live on']
    · rw [Function.update_of_ne same, (others f same).1]
  · intro f
    rw [Sessions.speaks_said]
    by_cases same : f = fd
    · subst same
      rw [Function.update_self]
      exact said.symm
    · rw [Function.update_of_ne same, (others f same).2]

end Views

/-! What the two callbacks say is what the protocol has. -/

section Callbacks

variable {k : Int} {ev ev' : Myevent} {a : Answers} {f : Callback} {new : List Event}

theorem sessionOf_reading (held : ev.callBack = some .recvdata) : sessionOf ev = .reading := by
  rw [sessionOf, held, if_neg (by decide)]

theorem sessionOf_writing (held : ev.callBack = some .senddata) :
    sessionOf ev = .writing ev.outgoing := if_pos held

theorem Outcome.follows (outcome : Outcome k ev a f new (some ev'))
    (held : ev.callBack = some f) : ∃ word,
      ((Event.invoked k f ev.fd :: new).filter (concerns ev.fd)).filterMap Event.word? = [word] ∧
      protocol.next (sessionOf ev) word = some (sessionOf ev') := by
  cases outcome with
  | filled bytes answer nonempty short =>
    have size : 0 < bytes.length ∧ bytes.length ≤ buflen :=
      ⟨List.length_pos_of_ne_nil nonempty, le_of_lt short⟩
    have holds : Myevent.outgoing (Myevent.await { ev with
        buf := (overlay bytes ev.buf).set bytes.length 0, len := BitVec.ofNat 32 bytes.length }
        k .senddata epollOut a.time) = bytes := by
      show List.take (BitVec.ofNat 32 bytes.length).toNat _ = bytes
      rw [filled_len short]
      exact filled_buf
    refine ⟨.recv (some bytes), by simp [concerns]; rfl, ?_⟩
    rw [sessionOf_reading held, sessionOf_writing rfl, holds]
    show (if _ then _ else _ : Option Session) = _
    rw [if_pos size, keptOf, if_pos short]
  | overfilled bytes answer full =>
    have size : 0 < bytes.length ∧ bytes.length ≤ buflen := ⟨by rw [full]; decide, le_of_eq full⟩
    refine ⟨.recv (some bytes), by simp [concerns]; rfl, ?_⟩
    rw [sessionOf_reading held, sessionOf_writing rfl]
    show (if _ then _ else _ : Option Session) = _
    rw [if_pos size, keptOf, if_neg (by omega)]
    rfl
  | sent len answer positive =>
    obtain ⟨room, -, least⟩ := Option.map_eq_some_iff.mp answer
    refine ⟨.send ev.outgoing (some len), by simp [concerns]; rfl, ?_⟩
    rw [sessionOf_writing held, sessionOf_reading rfl]
    exact if_pos ⟨rfl, positive, least ▸ min_le_right _ _⟩

theorem Outcome.ends (outcome : Outcome k ev a f new none) (held : ev.callBack = some f) : ∃ word,
    ((Event.invoked k f ev.fd :: new).filter (concerns ev.fd)).filterMap Event.word? = [word] ∧
      protocol.Ends (sessionOf ev) (some word) := by
  cases outcome with
  | ended ends =>
    refine ⟨.recv a.recv, by simp [concerns]; rfl, ?_⟩
    rw [sessionOf_reading held]
    rcases ends with failed | closed
    · show a.recv.getD [] = []
      rw [failed, Option.getD_none]
    · show a.recv.getD [] = []
      rw [closed, Option.getD_some]
  | failed len answer nothing =>
    refine ⟨.send ev.outgoing len, by simp [concerns]; rfl, ?_⟩
    rw [sessionOf_writing held]
    exact ⟨rfl, nothing⟩

end Callbacks

/-! Every step of the reactor is an act of one session or of none. -/

section Steps

variable {s t : St} {k : Int} {cfd fd : Fd} {new : List Event}

/-- The step opens a session on `fd`. -/
def Opens (s t : St) (fd : Fd) : Prop := ∃ x, protocol.Fresh x ∧
  Sessions.step protocol (sessionsOf s) (.opens fd x) = some (sessionsOf t)

/-- The step is an act of a session, or the sessions do not see it. -/
inductive Follows (s t : St) : Prop
  | stays : sessionsOf t = sessionsOf s → Follows s t
  | opens (fd : Fd) : Opens s t fd → Follows s t
  | speaks (fd : Fd) (word : Word) :
      Sessions.step protocol (sessionsOf s) (.speaks fd word) = some (sessionsOf t) → Follows s t
  | ends (fd : Fd) (last : Option Word) :
      (∀ x ∈ (sessionsOf s).session fd, protocol.Ends x last) →
      Sessions.step protocol (sessionsOf s) (.ends fd last) = some (sessionsOf t) →
      Parts s t fd last → Follows s t

theorem Follows.act (follows : Follows s t) : sessionsOf t = sessionsOf s ∨
    ∃ act, Sessions.Lawful protocol (sessionsOf s) act ∧
      Sessions.step protocol (sessionsOf s) act = some (sessionsOf t) := by
  cases follows with
  | stays same => exact .inl same
  | opens fd opens =>
    obtain ⟨x, fresh, next⟩ := opens
    exact .inr ⟨.opens fd x, fresh, next⟩
  | speaks fd word next => exact .inr ⟨.speaks fd word, trivial, next⟩
  | ends fd last may next _ => exact .inr ⟨.ends fd last, may, next⟩

theorem Follows.congr {u : St} (follows : Follows s t) (same : sessionsOf u = sessionsOf t)
    (log : u.log = t.log) : Follows s u := by
  cases follows with
  | stays unseen => exact .stays (same.trans unseen)
  | opens fd opens =>
    apply Follows.opens fd
    rw [Opens, same]
    exact opens
  | speaks fd word next =>
    rw [← same] at next
    exact .speaks fd word next
  | ends fd last may next parts =>
    rw [← same] at next
    refine .ends fd last may next ⟨?_, parts.idle⟩
    rw [callsOf, log]
    exact parts.calls

/-- A session that the step takes away had its end. -/
theorem Follows.parts {x : Session} (follows : Follows s t)
    (on : (sessionsOf s).session fd = some x) (off : (sessionsOf t).session fd = none) :
    ∃ last, protocol.Ends x last ∧ Parts s t fd last := by
  cases follows with
  | stays same =>
    rw [same, on] at off
    cases off
  | opens f opens =>
    obtain ⟨y, fresh, next⟩ := opens
    obtain ⟨_, other, -⟩ := Sessions.step_gone on off (a := .opens f y) fresh next
    cases other
  | speaks f word next =>
    obtain ⟨_, other, -⟩ := Sessions.step_gone on off (a := .speaks f word) trivial next
    cases other
  | ends f last may next parts =>
    obtain ⟨_, same, ends⟩ := Sessions.step_gone on off (a := .ends f last) may next
    obtain ⟨rfl, rfl⟩ := Sessions.Act.ends.inj same
    exact ⟨last, ends, parts⟩

theorem same_entries (inv : Inv s) (inv' : Inv t) (entries : t.gEvents = s.gEvents)
    (log : t.log = s.log ++ new)
    (aloof : ∀ e ∈ new, Apart Event.life fd e ∧ concerns fd e = false) : SameAt s t fd := by
  apply sameAt_frame inv inv' new log aloof
  · exact fun l active _ => ⟨active.congr entries, by rw [entries]⟩
  · exact fun l active held => ⟨(active_congr entries).mp active, by rwa [entries] at held⟩

theorem sessionsOf_same (same : ∀ fd, SameAt s t fd) : sessionsOf t = sessionsOf s :=
  Sessions.ext_at (fun fd => (same fd).1) fun fd => (same fd).2

/-- No connection is on the listening socket. -/
theorem sessionsOf_listener (inv : Inv s) (k : Int) (f : Callback) :
    sessionsOf (s.emit (.invoked k f s.lfd)) = sessionsOf s := by
  have inv' : Inv (s.emit (.invoked k f s.lfd)) := inv.emit rfl
  apply sessionsOf_same
  intro fd
  by_cases same : fd = s.lfd
  · subst same
    have off := inv'.unlisted
    refine ⟨?_, ?_⟩
    · rw [session_outside inv.unlisted]
      exact session_outside off
    · rw [said_outside inv.unlisted]
      exact said_outside off
  · have aloof : ∀ e ∈ [Event.invoked k f s.lfd],
        Apart Event.life fd e ∧ concerns fd e = false := by
      intro e member
      obtain rfl := List.mem_singleton.mp member
      exact ⟨apart_of_neither rfl, decide_eq_false (Ne.symm same)⟩
    exact same_entries inv inv' rfl rfl aloof

theorem unheld_of_fresh (inv : Inv s) (fresh : cfd ∉ s.files) (l : Int) (active : Active s l) :
    (s.gEvents.cell l).fd ≠ cfd := by
  rintro rfl
  exact fresh (inv.opened l active)

theorem aloof_accepted (other : fd ≠ cfd) :
    ∀ e ∈ [Event.accepted cfd], Apart Event.life fd e ∧ concerns fd e = false := by
  intro e member
  obtain rfl := List.mem_singleton.mp member
  exact ⟨apart_accepted other, rfl⟩

/-- A connection that no entry takes. -/
theorem opens_opened (inv : Inv s) (fresh : cfd ∉ s.files) : Opens s (s.opened cfd) cfd := by
  have inv' := inv.opened_socket fresh
  refine ⟨.unserved, .inl rfl, step_opens (fun on => fresh (inv.sockets _ on)) rfl ?_ ?_⟩
  · exact sessionAt_unheld inv' fun l active => unheld_of_fresh inv fresh l active.congr
  · exact fun f other => same_entries inv inv' rfl rfl (aloof_accepted other)

theorem opens_adopt (inv : Inv s) {time : Int} (lower : 0 ≤ k) (upper : k < maxEvents)
    (free : (s.gEvents.cell k).status = 0) (fresh : cfd ∉ s.files) :
    Opens s (s.adopt k cfd time) cfd := by
  have inv' : Inv (s.adopt k cfd time) := inv.adopt lower upper free fresh
  have idle : ∀ l, Active s l → l ≠ k := by
    rintro l active rfl
    exact absurd active.on (by simp [free])
  have entries : ∀ l, l ≠ k → (s.adopt k cfd time).gEvents.cell l = s.gEvents.cell l := by
    intro l other
    rw [St.adopt_gEvents, CArray.put_cell_of_ne _ _ other]
  have active : Active (s.adopt k cfd time) k := ⟨lower, le_of_lt upper, by simp⟩
  refine ⟨.reading, .inr rfl, step_opens (fun on => fresh (inv.sockets _ on)) rfl
    ?_ fun f other => ?_⟩
  · have taken := sessionAt_active inv' active
    rw [St.adopt_gEvents, CArray.put_cell_same] at taken
    exact taken
  · apply sameAt_frame inv inv' [.accepted cfd] rfl (aloof_accepted other)
    · intro l before _
      have apart := idle l before
      exact ⟨(active_put rfl apart).mpr before, entries l apart⟩
    · intro l now held
      have apart : l ≠ k := by
        rintro rfl
        rw [St.adopt_gEvents, CArray.put_cell_same] at held
        exact other held.symm
      rw [entries l apart] at held
      exact ⟨(active_put rfl apart).mp now, held⟩

/-- An entry says its last words and gives up its connection. -/
theorem follows_release (inv : Inv s) (active : Active s k) (client : k ≠ maxEvents)
    (words : Words (s.gEvents.cell k).fd new) {last : Option Word}
    (calls : (new.filter (concerns (s.gEvents.cell k).fd)).filterMap Event.word? = last.toList)
    (idle : last = none → ∃ i now, s.ctl = .sweeping i now ∧
      idleLimit ≤ now - (s.gEvents.cell k).lastActive)
    (ends : protocol.Ends (sessionOf (s.gEvents.cell k)) last) :
    Follows s ((s.told new).release k) := by
  have told : Active (s.told new) k := active.congr
  have inv' : Inv ((s.told new).release k) := (inv.told words.quiet).release told client
  have on := (inv.clients k active client).1
  refine .ends (s.gEvents.cell k).fd last (fun x here => ?_)
    (step_ends on ?_ fun f other => ?_) ⟨?_, fun silent => ?_⟩
  · rw [session_live on, sessionAt_active inv active] at here
    obtain rfl := Option.some.inj here
    exact ends
  · have left : live Event.life ((s.told new).release k).log =
        (live Event.life (s.told new).log).erase (s.gEvents.cell k).fd := live_closes rfl
    rw [left]
    exact Finset.notMem_erase _ _
  · apply sameAt_frame inv inv' (new ++ [.closed (s.gEvents.cell k).fd]) (by simp)
    · intro e member
      rcases List.mem_append.mp member with word | closing
      · exact words.aloof other e word
      · obtain rfl := List.mem_singleton.mp closing
        exact ⟨apart_closed other, rfl⟩
    · intro l before held
      have apart : l ≠ k := by
        rintro rfl
        exact other held.symm
      have still : Active (s.told new) l := before.congr
      exact ⟨(active_put rfl apart).mpr still, CArray.put_cell_of_ne _ _ apart⟩
    · intro l now held
      have apart : l ≠ k := by
        rintro rfl
        exact absurd now.on (by simp)
      have before : Active (s.told new) l := (active_put rfl apart).mp now
      have cell : ((s.told new).release k).gEvents.cell l = s.gEvents.cell l :=
        CArray.put_cell_of_ne _ _ apart
      exact ⟨before.congr, by rwa [cell] at held⟩
  · have log : ((s.told new).release k).log =
        s.log ++ (new ++ [.closed (s.gEvents.cell k).fd]) := by simp
    rw [callsOf, log, List.drop_left, List.filter_append, List.filterMap_append, calls]
    exact List.append_nil _
  · obtain ⟨i, now, ctl, old⟩ := idle silent
    exact ⟨i, now, k, ctl, active, rfl, old⟩

/-- An entry goes on with its connection. -/
theorem follows_rearm (inv : Inv s) (active : Active s k) (client : k ≠ maxEvents)
    (words : Words (s.gEvents.cell k).fd new) {ev : Myevent} {word : Word}
    (one : (new.filter (concerns (s.gEvents.cell k).fd)).filterMap Event.word? = [word])
    (next : protocol.next (sessionOf (s.gEvents.cell k)) word = some (sessionOf ev))
    (same : ev.fd = (s.gEvents.cell k).fd) (armed : ev.status = 1)
    (inv' : Inv ((s.told new).rearm k ev)) : Follows s ((s.told new).rearm k ev) := by
  have on := (inv.clients k active client).1
  have on' : (s.gEvents.cell k).fd ∈ live Event.life ((s.told new).rearm k ev).log := by
    rw [St.rearm_log, St.told_log, live_quiet words.quiet]
    exact on
  have still : Active ((s.told new).rearm k ev) k := ⟨active.lower, active.upper, by simp [armed]⟩
  have taken := sessionAt_active inv' still
  rw [St.rearm_gEvents, CArray.put_cell_same, same] at taken
  obtain ⟨seg, segment⟩ := Option.isSome_iff_exists.mp (dialogue_isSome.mpr on)
  refine .speaks (s.gEvents.cell k).fd word (step_speaks on on' ?_ ?_ fun f other => ?_)
  · rw [sessionAt_active inv active, taken]
    exact next
  · rw [wordsOf, St.rearm_log, St.told_log, dialogue_append (apart_of_all_neither words.quiet),
      wordsOf, segment, Option.map_some, Option.getD_some, Option.getD_some,
      List.filterMap_append, one]
  · apply sameAt_frame inv inv' new rfl (words.aloof other)
    · intro l before held
      have apart : l ≠ k := by
        rintro rfl
        exact other held.symm
      have told : Active (s.told new) l := before.congr
      exact ⟨(active_put rfl apart).mpr told, CArray.put_cell_of_ne _ _ apart⟩
    · intro l now held
      have apart : l ≠ k := by
        rintro rfl
        rw [St.rearm_gEvents, CArray.put_cell_same, same] at held
        exact other held.symm
      have before : Active (s.told new) l := (active_put rfl apart).mp now
      have cell : ((s.told new).rearm k ev).gEvents.cell l = s.gEvents.cell l :=
        CArray.put_cell_of_ne _ _ apart
      exact ⟨before.congr, by rwa [cell] at held⟩

theorem follows_called (inv : Inv s) (inv' : Inv t) {a : Answers} {f : Callback}
    (active : Active s k) (held : (s.gEvents.cell k).callBack = some f)
    (fresh : ∀ fd ∈ a.accept, fd ∉ s.files)
    (called : Called (s.emit (.invoked k f (s.gEvents.cell k).fd)) k a f t) : Follows s t := by
  by_cases listening : f = .acceptconn
  · subst listening
    obtain rfl := inv.listener_of_callBack active held
    rw [inv.listener.2.1] at called
    have told : Inv (s.emit (.invoked maxEvents .acceptconn s.lfd)) := inv.emit rfl
    have unseen := sessionsOf_listener inv maxEvents .acceptconn
    cases called with
    | refused _ => exact .stays unseen
    | leaked cfd answer _ =>
      apply Follows.opens cfd
      rw [Opens, ← unseen]
      exact opens_opened told (fresh cfd answer)
    | adopted cfd answer lower upper free _ =>
      apply Follows.opens cfd
      rw [Opens, ← unseen]
      exact opens_adopt told lower upper free (fresh cfd answer)
    | released f new outcome => exact absurd rfl outcome.not_acceptconn
    | rearmed f new ev outcome => exact absurd rfl outcome.not_acceptconn
  · have client := inv.client_of_callBack held listening
    have merge : ∀ new, (s.emit (.invoked k f (s.gEvents.cell k).fd)).told new =
        s.told (.invoked k f (s.gEvents.cell k).fd :: new) := by
      intro new
      simp [St.emit, St.told]
    cases called with
    | refused _ => exact absurd rfl listening
    | leaked cfd _ _ => exact absurd rfl listening
    | adopted cfd _ _ _ _ _ => exact absurd rfl listening
    | released f new outcome =>
      rw [merge]
      obtain ⟨word, one, ends⟩ := Outcome.ends outcome held
      exact follows_release inv active client outcome.words (show _ = (some word).toList from one)
        (fun silent => by cases silent) ends
    | rearmed f new ev outcome =>
      rw [merge] at inv' ⊢
      obtain ⟨word, one, next⟩ := Outcome.follows outcome held
      obtain ⟨same, on, -, -⟩ := outcome.armed
      exact follows_rearm inv active client outcome.words one next same on inv'

theorem follows_move {a : Input} (inv : Inv s) (inv' : Inv t) (move : Move s a t) :
    Follows s t := by
  have idle : t.gEvents = s.gEvents → t.log = s.log → Follows s t := by
    intro entries log
    have log' : t.log = s.log ++ [] := by rw [log, List.append_nil]
    exact .stays (sessionsOf_same fun fd => same_entries inv inv' entries log' (by simp))
  cases move with
  | clock now _ => exact idle rfl rfl
  | swept i now _ _ => exact idle rfl rfl
  | passed i now k _ _ _ _ _ _ => exact idle rfl rfl
  | failed _ => exact idle rfl rfl
  | emptied a _ => exact idle rfl rfl
  | skipped a r bit next _ _ => exact idle rfl rfl
  | waited batch _ _ _ =>
    refine .stays (sessionsOf_same fun fd => same_entries inv inv' rfl rfl fun e member => ?_)
    obtain rfl := List.mem_singleton.mp member
    exact ⟨apart_of_neither rfl, rfl⟩
  | expired i now k ctl _ active upper _ old =>
    have ends : protocol.Ends (sessionOf (s.gEvents.cell k)) none := by
      rw [sessionOf]
      split_ifs <;> trivial
    have gone := follows_release inv active (by omega) (.nil _) rfl
      (fun _ => ⟨i, now, ctl, old⟩) ends
    rw [show s.told [] = s by simp [St.told]] at gone
    exact gone.congr rfl rfl
  | called a r bit next f t here selects ready held allowed called =>
    have fresh : ∀ fd ∈ a.accept, fd ∉ s.files := fun fd answer => (allowed.accept fd answer).1
    have logged : Active (s.emit (.invoked r.ptr f (s.gEvents.cell r.ptr).fd)) r.ptr :=
      ready.toActive.congr
    have told : Inv t := (inv.emit rfl).called logged held fresh called
    exact (follows_called inv told ready.toActive held fresh called).congr rfl rfl

theorem sessions_start {s : St} (start : Start s) : sessionsOf s = Sessions.empty := by
  obtain ⟨lfd, files, time, listening, start⟩ := start
  rw [initial_eq lfd files time listening, Option.some.injEq] at start
  have log : s.log = [] := by rw [← start]
  have off : ∀ fd, fd ∉ live Event.life s.log := by simp [log]
  exact Sessions.ext_at (fun fd => session_outside (off fd)) fun fd => said_outside (off fd)

theorem sessions_step {a : Input} (h : machine.Reachable s) (lawful : Lawful s a)
    (run : step s a = some t) : Follows s t := by
  have move := reachable_move h lawful run
  have inv := (reachable_inv h).1
  exact follows_move inv (inv.move move) move

end Steps

theorem sessions_simulate :
    Machine.Simulates machine (Sessions.machine Fd protocol) sessionsOf where
  start _ start := sessions_start start
  step _ _ _ h lawful run := (sessions_step h lawful run).act

/-- In every run the reactor is a set of sessions: a step is one act of one session, as the session
would do it alone, or no act at all. A session that a step takes away ends with the call that the
step makes on its connection, or in a sweep that finds its entry idle for 60 seconds. -/
theorem refines_sessions :
    Machine.Simulates machine (Sessions.machine Fd protocol) sessionsOf ∧
    ∀ s a t, machine.Reachable s → Lawful s a → step s a = some t → ∀ fd x,
      (sessionsOf s).session fd = some x → (sessionsOf t).session fd = none →
      ∃ last, protocol.Ends x last ∧ Parts s t fd last :=
  ⟨sessions_simulate, fun _ _ _ h lawful run _ _ on off =>
    (sessions_step h lawful run).parts on off⟩

/-- The calls made for a connection are those of a server that has this connection only. -/
theorem served_alone {s : St} (h : machine.Reachable s) : Sessions.Alone protocol (sessionsOf s) :=
  Sessions.reachable_alone (sessions_simulate.reachable h)

/-! A connection that no entry took is not found again. -/

/-- The connection on `fd` is open, and no entry holds it. -/
structure Unserved (s : St) (fd : Fd) : Prop where
  opened : fd ∈ live Event.life s.log
  unheld : ∀ k, Active s k → (s.gEvents.cell k).fd ≠ fd

section Unserved

variable {s t : St} {fd : Fd}

theorem unserved_iff (inv : Inv s) :
    Unserved s fd ↔ (sessionsOf s).session fd = some .unserved := by
  constructor
  · intro h
    rw [session_live h.opened, sessionAt_unheld inv h.unheld]
  · intro here
    have on : fd ∈ live Event.life s.log := by
      by_contra off
      rw [session_outside off] at here
      cases here
    refine ⟨on, fun k active same => ?_⟩
    rw [session_live on, ← same, sessionAt_active inv active, sessionOf] at here
    split_ifs at here <;> cases here

theorem unserved_mute : protocol.Mute .unserved := ⟨fun _ => rfl, fun _ => id⟩

theorem next_served (x : Session) (word : Word) : protocol.next x word ≠ some .unserved := by
  intro next
  cases x with
  | unserved => cases next
  | reading =>
    cases word with
    | recv answer =>
      cases answer with
      | none => cases next
      | some bytes =>
        change (if _ then _ else _ : Option Session) = _ at next
        split_ifs at next
        cases next
    | send _ _ => cases next
  | writing pending =>
    cases word with
    | recv _ => cases next
    | send given answer =>
      cases answer with
      | none => cases next
      | some n =>
        change (if _ then _ else _ : Option Session) = _ at next
        split_ifs at next
        cases next

/-- Only by no word at all does a session stay unserved. -/
theorem run_unserved {x : Session} {words : List Word}
    (run : protocol.run x words = some .unserved) : words = [] := by
  rcases List.eq_nil_or_concat words with rfl | ⟨front, word, rfl⟩
  · rfl
  · rw [List.concat_eq_append, Protocol.run, List.foldlM_append] at run
    obtain ⟨y, -, last⟩ := Option.bind_eq_some_iff.mp run
    exact absurd (by simpa using last) (next_served y word)

end Unserved

/-- A connection that no entry took is never read, written or closed, however long the reactor
runs and however many entries become free. -/
theorem unserved_for_ever {s t : St} {fd : Fd} {later : List (St × Input)}
    (h : machine.Reachable s) (unserved : Unserved s fd)
    (more : (machine.after s).Run later t) : Unserved t fd ∧ wordsOf t fd = [] := by
  have reach : machine.Reachable t := by
    obtain ⟨steps, run⟩ := h
    exact ⟨_, run.append more⟩
  have stays : machine.Reachable t ∧ (sessionsOf t).session fd = some .unserved := by
    refine more.invariant (I := fun _ t => machine.Reachable t ∧
      (sessionsOf t).session fd = some .unserved) ?_ ?_
    · rintro _ rfl
      exact ⟨h, (unserved_iff (reachable_inv h).1).mp unserved⟩
    · intro _ u a v _ ⟨known, on⟩ lawful run
      refine ⟨known.step lawful run, ?_⟩
      rcases (sessions_step known lawful run).act with same | ⟨act, allowed, next⟩
      · rw [same, on]
      · exact Sessions.step_mute unserved_mute on allowed next
  obtain ⟨x, -, words⟩ := served_alone reach fd .unserved stays.2
  exact ⟨(unserved_iff (reachable_inv reach).1).mpr stays.2, run_unserved words⟩

/-- `fcntl` fails for the connection on 5. -/
def leaked : St := (machine.replay boot
  (pass 1 [⟨4, epollIn, 1024⟩] ++ [.turn ⟨some 5, false, none, none, 0⟩])).getD boot

theorem leaked_reachable : machine.Reachable leaked := boot_reachable.replay_getD _

theorem leaked_unserved : Unserved leaked 5 := by
  have unheld : ∀ k : Int, 0 ≤ k → k ≤ maxEvents →
      ¬ ((leaked.gEvents.cell k).status = 1 ∧ (leaked.gEvents.cell k).fd = 5) := by decide +kernel
  exact ⟨by decide +kernel, fun k active same =>
    unheld k active.lower active.upper ⟨active.on, same⟩⟩

instance (s₀ s : St) (a : Input) : Decidable ((machine.after s₀).Lawful s a) :=
  inferInstanceAs (Decidable (Lawful s a))

/-- The next connection gets an entry. -/
theorem unserved_for_ever_leaked : ∃ t, machine.Reachable t ∧
    (t.gEvents.cell 0).fd = 6 ∧ Unserved t 5 ∧ wordsOf t 5 = [] := by
  have start : (machine.after leaked).Reachable leaked := .start rfl
  obtain ⟨t, ⟨later, more⟩, taken⟩ := start.of_replay (p := fun t => (t.gEvents.cell 0).fd == 6)
    ([idleIf, idleIf] ++ pass 2 [⟨4, epollIn, 1024⟩] ++ [acceptIf 6]) (by decide +kernel)
  obtain ⟨steps, run⟩ := leaked_reachable
  exact ⟨t, ⟨_, run.append more⟩, eq_of_beq taken,
    unserved_for_ever leaked_reachable leaked_unserved more⟩

end JiajiaNetwork.Reactor
