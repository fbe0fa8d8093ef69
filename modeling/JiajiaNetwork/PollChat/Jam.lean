/- Two clients of `test_poll.c` for which texts are pending and which have spoken themselves. POLLIN
   is tested before POLLOUT, so neither is sent its text, unless the pass at hand was begun before
   the client spoke; and as soon as anybody is read, the text of one of the two is replaced. -/
import JiajiaNetwork.PollChat.Delivery
import JiajiaNetwork.PollChat.Network

set_option autoImplicit false
set_option relaxedAutoImplicit false

namespace JiajiaNetwork.PollChat

open Lib

/-- A text is pending for the client on `fd`, which is asked for input as well. Within a pass the
result that `poll` has returned for it does not lead to the POLLOUT branch, as it would if it said
POLLOUT without POLLIN. -/
structure Barred (s : St) (fd : Fd) (k : Int) (e r : Mask) : Prop where
  client : Client s k fd e r
  readable : has e pollIn
  awaits : Awaits s fd e
  unwritten : ∀ i, s.ctl = .scanning i → ¬ Writes r

def Held (s : St) (fd : Fd) : Prop := ∃ k e r, Barred s fd k e r

/-- Texts are pending for two clients that have input waiting for the server, and the pass at hand
does not come to the POLLOUT branch for either. -/
structure Jammed (n : Net) (b c : Fd) : Prop where
  apart : b ≠ c
  held : ∀ fd, fd = b ∨ fd = c → Held n.server fd
  unread : ∀ fd, fd = b ∨ fd = c → (n.streams fd).unread ≠ []

/-- Neither of the two is sent anything. -/
def Unsent (b c : Fd) (new : List Event) : Prop := ∀ f text, .sent f text ∈ new → f ≠ b ∧ f ≠ c

/-- Neither of the two is sent anything, and nobody is read. -/
structure Passive (b c : Fd) (new : List Event) : Prop where
  unsent : Unsent b c new
  unheard : ∀ f bytes, .received f bytes ∉ new
  kept : .accepted b ∉ new ∧ .accepted c ∉ new

/-- One of the two leaves, or its pending text is replaced. -/
inductive Forfeits (b c : Fd) : Event → Prop
  | leaves (f : Fd) : f = b ∨ f = c → Forfeits b c (.closed f)
  | replaced (f source : Fd) : f = b ∨ f = c → Forfeits b c (.assigned f source)

/-- Somebody forfeits before any of the two was sent anything. -/
def Breaks (b c : Fd) (new : List Event) : Prop :=
  ∃ pre e post, new = pre ++ e :: post ∧ Unsent b c pre ∧ Forfeits b c e

section Events

variable {b c : Fd} {old new : List Event}

theorem Unsent.append (h : Unsent b c old) (more : Unsent b c new) : Unsent b c (old ++ new) := by
  intro f text member
  rcases List.mem_append.mp member with before | later
  · exact h f text before
  · exact more f text later

theorem Passive.append (h : Passive b c old) (more : Passive b c new) :
    Passive b c (old ++ new) where
  unsent := h.unsent.append more.unsent
  unheard f bytes member :=
    (List.mem_append.mp member).elim (h.unheard f bytes) (more.unheard f bytes)
  kept :=
    ⟨fun member => (List.mem_append.mp member).elim h.kept.1 more.kept.1,
      fun member => (List.mem_append.mp member).elim h.kept.2 more.kept.2⟩

theorem Breaks.append (h : Breaks b c old) (new : List Event) : Breaks b c (old ++ new) := by
  obtain ⟨pre, e, post, rfl, unsent, forfeits⟩ := h
  exact ⟨pre, e, post ++ new, by simp, unsent, forfeits⟩

theorem Breaks.behind (unsent : Unsent b c old) (h : Breaks b c new) : Breaks b c (old ++ new) := by
  obtain ⟨pre, e, post, rfl, before, forfeits⟩ := h
  exact ⟨old ++ pre, e, post, by simp, unsent.append before, forfeits⟩

theorem breaks_of_mem {e : Event} (unsent : Unsent b c new) (member : e ∈ new)
    (forfeits : Forfeits b c e) : Breaks b c new := by
  obtain ⟨pre, post, rfl⟩ := List.append_of_mem member
  exact ⟨pre, e, post, rfl, fun f text sent => unsent f text (List.mem_append_left _ sent),
    forfeits⟩

/-- A stream that is neither read nor replaced. -/
theorem follow_aside {fd : Fd} {streams : Fd → Channel Byte} (unheard : ∀ bytes,
    .received fd bytes ∉ new) (kept : .accepted fd ∉ new) :
    new.foldl follow streams fd = streams fd := by
  induction new generalizing streams with
  | nil => rfl
  | cons e new ih =>
    rw [List.foldl_cons, ih (fun bytes member => unheard bytes (List.mem_cons_of_mem e member))
      (fun member => kept (List.mem_cons_of_mem e member))]
    cases e with
    | accepted f =>
      have apart : fd ≠ f := fun same => kept (same ▸ List.mem_cons_self)
      rw [follow, Function.update_of_ne apart]
    | received f bytes =>
      have apart : fd ≠ f := fun same => unheard bytes (same ▸ List.mem_cons_self)
      rw [follow, Function.update_of_ne apart]
    | examined _ _ => rfl
    | refused _ _ => rfl
    | closed _ => rfl
    | assigned _ _ => rfl
    | copied _ _ => rfl
    | readPending _ _ => rfl
    | sent _ _ => rfl
    | reset _ => rfl

end Events

section Turns

variable {s t : St} {i : Int} {a : Answers} {b c fd : Fd}

/-- A client that keeps its slot contents, but for more bits asked for, and its pending pointer. -/
theorem Held.frame (held : Held s fd) (scanning : s.ctl = .scanning i)
    (slots : ∀ k e r, Client s k fd e r → ∃ l, Client t l fd e r)
    (pointer : (t.users.cell fd).writeBuf = (s.users.cell fd).writeBuf) : Held t fd := by
  obtain ⟨k, e, r, client, readable, ⟨asks, pending⟩, unwritten⟩ := held
  obtain ⟨l, after⟩ := slots k e r client
  exact ⟨l, e, r, after, readable, ⟨asks, pointer ▸ pending⟩, fun _ _ => unwritten i scanning⟩

theorem Held.congr (held : Held s fd) (scanning : s.ctl = .scanning i)
    (slots : t.fds = s.fds := by rfl) (counter : t.userCounter = s.userCounter := by rfl)
    (pointer : (t.users.cell fd).writeBuf = (s.users.cell fd).writeBuf := by rfl) : Held t fd :=
  held.frame scanning (fun k _ _ client => ⟨k, client.congr slots counter⟩) pointer

/-- The slot that is written to is not one of the two. -/
theorem Held.ne (held : Held s fd) (scanning : s.ctl = .scanning i) {f : Fd} {e r : Mask}
    (inv : Inv s) (client : Client s i f e r) (writes : Writes r) : fd ≠ f := by
  rintro rfl
  obtain ⟨k, e', r', barred⟩ := held
  obtain rfl := barred.client.unique inv client
  obtain ⟨-, -, rfl⟩ := barred.client.same client
  exact barred.unwritten k scanning writes

theorem Held.refuse (held : Held s fd) (scanning : s.ctl = .scanning i) : Held (s.refuse i c) fd :=
  held.congr scanning

theorem Held.enroll (inv : Inv s) (held : Held s fd) (scanning : s.ctl = .scanning i)
    {addr : SockaddrIn} (fresh : Fresh s c) : Held (s.enroll i c addr) fd := by
  have other : fd ≠ c := by
    obtain ⟨k, e, r, barred⟩ := held
    exact barred.client.fresh inv fresh
  apply held.frame scanning
  · intro k e r client
    have upper := client.upper
    have before : k ≠ s.userCounter + 1 := by omega
    exact ⟨k, client.lower, show k ≤ s.userCounter + 1 by omega, by simp [before, client.slot]⟩
  · simp [other]

theorem Held.remove (held : Held s fd) (scanning : s.ctl = .scanning i) {f lastFd : Fd}
    {e r : Mask} {tail : List Event} (client : Client s i f e r) (stays : fd ≠ f) :
    Held (s.remove i f lastFd tail) fd := by
  apply held.frame scanning
  · intro k e' r' before
    apply Client.to_remove client before
    rintro rfl
    exact stays (before.same client).1
  · simp [stays]

theorem Held.flush (inv : Inv s) (held : Held s fd) (scanning : s.ctl = .scanning i) {f : Fd}
    {e r : Mask} (client : Client s i f e r) (writes : Writes r) (text : List Byte) :
    Held (s.flush i f e r text) fd := by
  have other := held.ne scanning inv client writes
  apply held.frame scanning
  · intro k e' r' before
    have apart : k ≠ i := by
      rintro rfl
      exact other (before.same client).1
    exact ⟨k, before.lower, before.upper, by simp [apart, before.slot]⟩
  · simp [other]

/-- Whoever is read, at least one of the two is told, and loses the text that was pending. -/
theorem breaks_heard (inv : Inv s) (apart : b ≠ c) (held : ∀ fd, fd = b ∨ fd = c → Held s fd)
    {f : Fd} {bytes : List Byte} {m : St}
    (run : broadcast .testPoll i f ((s.filled f bytes).emit (.received f bytes)) = some m) :
    ∃ new, m.log = s.log ++ new ∧ Breaks b c new := by
  have ready : Inv ((s.filled f bytes).emit (.received f bytes)) := (inv.filled f bytes).emit rfl
  obtain ⟨assigned, log, only, all⟩ := (broadcast_announced ready run).history
  refine ⟨.received f bytes :: assigned, by simp [log, St.emit], ?_⟩
  obtain ⟨fd, two, other⟩ : ∃ fd, (fd = b ∨ fd = c) ∧ fd ≠ f := by
    by_cases same : b = f
    · exact ⟨c, .inr rfl, fun also => apart (same.trans also.symm)⟩
    · exact ⟨b, .inl rfl, same⟩
  obtain ⟨k, e, r, barred⟩ := held fd two
  have member := all k fd e r barred.client.congr other
  refine breaks_of_mem ?_ (List.mem_cons_of_mem _ member) (.replaced fd f two)
  intro g text sent
  rcases List.mem_cons.mp sent with read | later
  · cases read
  · obtain ⟨g', -, assigns⟩ := only _ later
    cases assigns

theorem passive_nil : Passive b c [] := ⟨by simp [Unsent], by simp, by simp⟩

/-- One turn with two clients that are held. -/
theorem held_turn (inv : Inv s) (scanning : s.ctl = .scanning i) (apart : b ≠ c)
    (held : ∀ fd, fd = b ∨ fd = c → Held s fd) (turn : Turn .testPoll s i a t) :
    ∃ new, t.log = s.log ++ new ∧
      ((∀ fd, fd = b ∨ fd = c → Held t fd) ∧ Passive b c new ∨ Breaks b c new) := by
  have old : ∀ {f}, Fresh s f → b ≠ f ∧ c ≠ f := by
    intro f fresh
    obtain ⟨k, e, r, first⟩ := held b (.inl rfl)
    obtain ⟨l, e', r', second⟩ := held c (.inr rfl)
    exact ⟨first.client.fresh inv fresh, second.client.fresh inv fresh⟩
  cases turn with
  | idle =>
    refine ⟨[], by simp [St.next], .inl ⟨fun fd two => (held fd two).congr scanning, passive_nil⟩⟩
  | refuse f addr _ fresh =>
    refine ⟨_, rfl, .inl ⟨fun fd two => (held fd two).refuse scanning, ?_⟩⟩
    exact ⟨by simp [Unsent], by simp, by simp [old fresh]⟩
  | enroll f addr _ fresh _ =>
    refine ⟨_, rfl, .inl ⟨fun fd two => (held fd two).enroll inv scanning fresh, ?_⟩⟩
    exact ⟨by simp [Unsent], by simp, by simp [old fresh]⟩
  | hangup f lastFd e r e' r' client _ _ =>
    refine ⟨_, rfl, ?_⟩
    by_cases two : f = b ∨ f = c
    · exact .inr (breaks_of_mem (by simp [Unsent]) (by simp) (.leaves f two))
    · left
      refine ⟨fun fd which => (held fd which).remove scanning client ?_, by simp [Unsent], by simp,
        by simp⟩
      rintro rfl
      exact two which
  | failed f lastFd e r e' r' errno client _ _ _ _ =>
    refine ⟨_, rfl, ?_⟩
    by_cases two : f = b ∨ f = c
    · exact .inr (breaks_of_mem (by simp [Unsent]) (by simp) (.leaves f two))
    · left
      refine ⟨fun fd which => ?_, by simp [Unsent], by simp, by simp⟩
      have stays : fd ≠ f := by
        rintro rfl
        exact two which
      have filled : Held (s.filled f []) fd :=
        (held fd which).congr scanning rfl rfl (by simp [stays])
      exact filled.remove scanning (client_filled.mpr client) stays
  | cleared f e r _ _ _ =>
    refine ⟨[], by simp [St.next], .inl ⟨fun fd two => ?_, passive_nil⟩⟩
    refine (held fd two).congr scanning rfl rfl ?_
    by_cases same : fd = f
    · subst same
      simp [St.next]
    · simp [St.next, same]
  | heard f e r bytes m _ _ _ _ _ run =>
    obtain ⟨new, log, breaks⟩ := breaks_heard inv apart held run
    exact ⟨new, log, .inr breaks⟩
  | nothing f e r _ _ _ =>
    refine ⟨[.readPending f .null], by simp [St.next, St.emit],
      .inl ⟨fun fd two => (held fd two).congr scanning, by simp [Unsent], by simp, by simp⟩⟩
  | flushed f e r client writes _ =>
    have first := (held b (.inl rfl)).ne scanning inv client writes
    have second := (held c (.inr rfl)).ne scanning inv client writes
    refine ⟨_, rfl, .inl ⟨fun fd two => (held fd two).flush inv scanning client writes _, ?_⟩⟩
    refine ⟨fun g text member => ?_, by simp, by simp⟩
    obtain ⟨rfl, -⟩ : g = f ∧ text = _ := by simpa using member
    exact ⟨Ne.symm first, Ne.symm second⟩

end Turns

/-! Whole runs. -/

section Runs

variable {n m : Net} {b c : Fd}

/-- A client with unread input is reported as readable. -/
theorem Held.polled {fd : Fd} {revents : Int → Mask} {t : St} (held : Held n.server fd)
    (told : Told n (.poll revents)) (unread : (n.streams fd).unread ≠ [])
    (polled : Polled n.server revents t) : Held t fd := by
  obtain ⟨k, e, r, client, readable, ⟨asks, pending⟩, -⟩ := held
  have slot := polled.slots k (some fd) e (some r) (by have := client.lower; omega) client.upper
    client.slot
  refine ⟨k, e, revents k, ⟨client.lower, polled.userCounter ▸ client.upper, slot⟩, readable,
    ⟨asks, polled.users ▸ pending⟩, fun _ _ writes => ?_⟩
  exact writes.2.1 ((told k fd e r client).readable unread readable)

theorem jammed_server {a : Input} {t : St} (inv : Inv n.server) (jammed : Jammed n b c)
    (told : Told n a) (move : Move .testPoll n.server a t) :
    ∃ new, t.log = n.server.log ++ new ∧
      ((∀ fd, fd = b ∨ fd = c → Held t fd) ∧ Passive b c new ∨ Breaks b c new) := by
  cases move with
  | polled revents t _ polled =>
    refine ⟨[], by simp [polled.log], .inl ⟨fun fd two => ?_, passive_nil⟩⟩
    exact (jammed.held fd two).polled told (jammed.unread fd two) polled
  | left =>
    refine ⟨[], by simp, .inl ⟨fun fd two => ?_, passive_nil⟩⟩
    obtain ⟨k, e, r, client, readable, awaits, -⟩ := jammed.held fd two
    exact ⟨k, e, r, client.congr, readable, awaits, fun _ scanning => by cases scanning⟩
  | passed i a _ _ =>
    refine ⟨[], by simp, .inl ⟨fun fd two => ?_, passive_nil⟩⟩
    obtain ⟨k, e, r, client, readable, awaits, -⟩ := jammed.held fd two
    exact ⟨k, e, r, client.congr, readable, awaits, fun _ scanning => by cases scanning⟩
  | turn i a fd e r t scanning _ _ _ _ turn =>
    have held : ∀ f, f = b ∨ f = c → Held (n.server.emit (.examined fd r)) f :=
      fun f two => (jammed.held f two).congr scanning
    obtain ⟨new, log, outcome⟩ := held_turn (inv.emit rfl) scanning jammed.apart held turn
    have looks : Unsent b c [.examined fd r] := by simp [Unsent]
    refine ⟨.examined fd r :: new, by simp [log, St.emit], ?_⟩
    rcases outcome with ⟨still, passive⟩ | breaks
    · have first : Passive b c [.examined fd r] := ⟨looks, by simp, by simp⟩
      exact .inl ⟨still, first.append passive⟩
    · exact .inr (breaks.behind looks)

theorem netStep_log {v : Program} {a : NetInput} (h : (net v).Reachable n)
    (lawful : NetLawful n a) (run : netStep v n a = some m) :
    ∃ new, m.server.log = n.server.log ++ new := by
  cases a with
  | arrives fd bytes =>
    obtain rfl := Option.some.inj run
    exact ⟨[], (List.append_nil _).symm⟩
  | finishes fd =>
    obtain rfl := Option.some.inj run
    exact ⟨[], (List.append_nil _).symm⟩
  | server a =>
    obtain ⟨t, next, same⟩ := Option.bind_eq_some_iff.mp run
    obtain rfl := Option.some.inj same
    have server := reachable_server h
    have move := reachable_move server lawful.1 next
    cases move with
    | polled revents t _ polled => exact ⟨[], by simp [polled.log]⟩
    | left => exact ⟨[], (List.append_nil _).symm⟩
    | passed i a _ _ => exact ⟨[], (List.append_nil _).symm⟩
    | turn i a fd e r t _ _ _ _ _ turn =>
      have ready : Inv (n.server.emit (.examined fd r)) := (reachable_inv server).emit rfl
      obtain ⟨new, carries⟩ := turn.carries ready
      exact ⟨.examined fd r :: new, by simp [carries.log, St.emit]⟩

theorem jammed_step {a : NetInput} (h : (net .testPoll).Reachable n) (jammed : Jammed n b c)
    (lawful : NetLawful n a) (run : netStep .testPoll n a = some m) :
    ∃ new, m.server.log = n.server.log ++ new ∧
      (Jammed m b c ∧ Passive b c new ∨ Breaks b c new) := by
  cases a with
  | arrives fd bytes =>
    obtain rfl := Option.some.inj run
    refine ⟨[], by simp, .inl ⟨⟨jammed.apart, jammed.held, fun f two => ?_⟩, passive_nil⟩⟩
    by_cases same : f = fd
    · subst same
      simp [Channel.unread_send, jammed.unread f two]
    · simp [same, jammed.unread f two]
  | finishes fd =>
    obtain rfl := Option.some.inj run
    refine ⟨[], by simp, .inl ⟨⟨jammed.apart, jammed.held, fun f two => ?_⟩, passive_nil⟩⟩
    by_cases same : f = fd
    · subst same
      have same : Function.update n.streams f (n.streams f).finish f = (n.streams f).finish :=
        Function.update_self ..
      show (Function.update n.streams f (n.streams f).finish f).unread ≠ []
      rw [same]
      exact jammed.unread f two
    · simp [same, jammed.unread f two]
  | server a =>
    obtain ⟨t, next, same⟩ := Option.bind_eq_some_iff.mp run
    obtain rfl := Option.some.inj same
    have server := reachable_server h
    obtain ⟨new, log, outcome⟩ := jammed_server (reachable_inv server) jammed lawful.2
      (reachable_move server lawful.1 next)
    refine ⟨new, log, outcome.imp_left fun ⟨held, passive⟩ => ⟨⟨jammed.apart, held, ?_⟩, passive⟩⟩
    intro fd two
    have kept : .accepted fd ∉ new := by
      rcases two with rfl | rfl
      · exact passive.kept.1
      · exact passive.kept.2
    show ((t.log.drop n.server.log.length).foldl follow n.streams fd).unread ≠ []
    rw [log, List.drop_left, follow_aside (passive.unheard fd) kept]
    exact jammed.unread fd two

end Runs

/-- Neither of two jammed clients is sent anything, and nobody is read, until one of the two leaves
or its pending text is replaced: of the two texts at least one is never sent. -/
theorem jammed_until_forfeit {n m : Net} {b c : Fd} {later : List (Net × NetInput)}
    (h : (net .testPoll).Reachable n) (jammed : Jammed n b c)
    (more : ((net .testPoll).after n).Run later m) :
    ∃ new, m.server.log = n.server.log ++ new ∧
      (Jammed m b c ∧ Passive b c new ∨ Breaks b c new) := by
  have all : (net .testPoll).Reachable m ∧ ∃ new, m.server.log = n.server.log ++ new ∧
      (Jammed m b c ∧ Passive b c new ∨ Breaks b c new) := by
    refine more.invariant (I := fun _ m => (net .testPoll).Reachable m ∧
      ∃ new, m.server.log = n.server.log ++ new ∧
        (Jammed m b c ∧ Passive b c new ∨ Breaks b c new)) ?_ ?_
    · rintro _ rfl
      exact ⟨h, [], by simp, .inl ⟨jammed, passive_nil⟩⟩
    · rintro _ u a v _ ⟨reach, old, log, outcome⟩ lawful run
      refine ⟨reach.step lawful run, ?_⟩
      rcases outcome with ⟨still, passive⟩ | breaks
      · obtain ⟨new, grown, next⟩ := jammed_step reach still lawful run
        refine ⟨old ++ new, by rw [grown, log, List.append_assoc], ?_⟩
        rcases next with ⟨on, quiet⟩ | breaks
        · exact .inl ⟨on, passive.append quiet⟩
        · exact .inr (breaks.behind passive.unsent)
      · obtain ⟨new, grown⟩ := netStep_log reach lawful run
        exact ⟨old ++ new, by rw [grown, log, List.append_assoc], .inr (breaks.append new)⟩
  exact all.2

/-! Clients on 5, 6 and 7; "hi" from 7 is pending for the other two when both say something. -/

def speaks : List NetInput :=
  (joins ++ [reports [pollIn], acceptTurn 7, idleTurn, idleTurn, idleTurn, idleTurn]).map .server ++
    [.arrives 7 [104, 105]] ++
    [reports [0, 0, 0, pollIn], idleTurn, idleTurn, idleTurn, recvTurn [104, 105],
      idleTurn].map .server ++ [.arrives 5 [121], .arrives 6 [110]]

def bootThree : Net := ⟨boot .testPoll, fun _ => .empty⟩

def jam : Net := ((net .testPoll).replay bootThree speaks).getD bootThree

theorem jam_reachable : (net .testPoll).Reachable jam := by
  have start : (net .testPoll).Reachable bootThree :=
    .start ⟨⟨3, {0, 1, 2, 3}, _, by simp, by simp, rfl⟩, rfl⟩
  exact start.replay_getD speaks

theorem jam_jammed : Jammed jam 5 6 := by
  have polling : jam.server.ctl = .polling := by decide +kernel
  have outside : ∀ i : Int, jam.server.ctl = .scanning i → ¬ Writes 0 := by
    intro i scanning
    rw [polling] at scanning
    cases scanning
  refine ⟨by decide, ?_, ?_⟩
  · rintro fd (rfl | rfl)
    · exact ⟨1, raised (pollIn ||| pollRdhup ||| pollErr), 0,
        ⟨by decide, by decide +kernel, by decide +kernel⟩, by decide, by decide +kernel, outside⟩
    · exact ⟨2, raised (pollIn ||| pollRdhup ||| pollErr), 0,
        ⟨by decide, by decide +kernel, by decide +kernel⟩, by decide, by decide +kernel, outside⟩
  · rintro fd (rfl | rfl)
    · decide +kernel
    · decide +kernel

instance (v : Program) (n₀ n : Net) (a : NetInput) : Decidable (((net v).after n₀).Lawful n a) :=
  netLawfulDecidable n a

/-- The client on 5 is read, which replaces the text for the one on 6. -/
theorem jammed_until_forfeit_jam : ∃ m : Net, (m.server.users.cell 6).writeBuf = .buf 5 ∧
    ∃ new, m.server.log = jam.server.log ++ new ∧
      (Jammed m 5 6 ∧ Passive 5 6 new ∨ Breaks 5 6 new) := by
  have start : ((net .testPoll).after jam).Reachable jam := .start rfl
  obtain ⟨m, ⟨later, more⟩, replaced⟩ := start.of_replay
    (p := fun m => (m.server.users.cell 6).writeBuf == .buf 5)
    ([reports [0, pollIn, pollIn, 0], idleTurn, recvTurn [121]].map .server) (by decide +kernel)
  exact ⟨m, eq_of_beq replaced, jammed_until_forfeit jam_reachable jam_jammed more⟩

end JiajiaNetwork.PollChat
