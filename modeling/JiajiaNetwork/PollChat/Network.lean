/- The chat servers and what their clients send: bytes and the closing of a connection arrive
   between any two steps of the program. A connection that `poll` reports as hung up is removed
   without another `recv`, so the removal loses nothing when the two were not in one report. -/
import JiajiaNetwork.Lib.Channel
import JiajiaNetwork.PollChat.Clients

set_option autoImplicit false
set_option relaxedAutoImplicit false

namespace JiajiaNetwork.PollChat

open Lib

/-- The server and, for each descriptor, what arrived on the connection that is on it now. TCP
keeps the order, so behind the FIN of a peer nothing it sent is missing. -/
structure Net where
  server : St
  streams : Fd → Channel Byte

inductive NetInput
  | arrives (fd : Fd) (bytes : List Byte)
  | finishes (fd : Fd)
  | server (input : Input)

/-- An event of the server on the stream it is about. -/
def follow (streams : Fd → Channel Byte) : Event → Fd → Channel Byte
  | .accepted fd => Function.update streams fd .empty
  | .received fd bytes => Function.update streams fd ((streams fd).consume bytes.length)
  | _ => streams

def netStep (v : Program) (n : Net) : NetInput → Option Net
  | .arrives fd bytes =>
    some { n with streams := Function.update n.streams fd ((n.streams fd).send bytes) }
  | .finishes fd => some { n with streams := Function.update n.streams fd (n.streams fd).finish }
  | .server a => do
    let s ← step v n.server a
    some ⟨s, (s.log.drop n.server.log.length).foldl follow n.streams⟩

/-- The report of a slot with mask `events` whose connection has the state `x`. -/
structure Truthful (x : Channel Byte) (events revents : Mask) : Prop where
  readable : x.unread ≠ [] → has events pollIn → has revents pollIn
  finished : x.finished = true → has events pollRdhup → has revents pollRdhup
  hangup : has revents pollRdhup → x.finished = true

/-- The kernel reports what is there, and `recv` returns it. -/
def Told (n : Net) : Input → Prop
  | .poll revents => ∀ k fd e r, Client n.server k fd e r → Truthful (n.streams fd) e (revents k)
  | .turn a => ∀ k fd e r, Client n.server k fd e r → n.server.ctl = .scanning k → Reads r →
      ∀ bytes ∈ a.recv.toOption, (n.streams fd).Yields bytes
  | .pollFailed => True

/-- A peer sends as long as it has not closed. -/
def NetLawful (n : Net) : NetInput → Prop
  | .arrives fd _ | .finishes fd =>
    fd ∈ live Event.life n.server.log ∧ (n.streams fd).finished = false
  | .server a => Lawful n.server a ∧ Told n a

def net (v : Program) : Machine Net NetInput where
  Start n := Start v n.server ∧ n.streams = fun _ => .empty
  Lawful := NetLawful
  step := netStep v

/-- No call of `poll` finds the FIN of a client together with bytes of it that are unread. -/
def Separate (n : Net) : NetInput → Prop
  | .server (.poll _) => ∀ k fd e r, Client n.server k fd e r →
      (n.streams fd).finished = true → (n.streams fd).unread = []
  | _ => True

instance (x : Channel Byte) (events revents : Mask) : Decidable (Truthful x events revents) :=
  decidable_of_iff ((x.unread ≠ [] → has events pollIn → has revents pollIn) ∧
    (x.finished = true → has events pollRdhup → has revents pollRdhup) ∧
    (has revents pollRdhup → x.finished = true))
    ⟨fun h => ⟨h.1, h.2.1, h.2.2⟩, fun h => ⟨h.readable, h.finished, h.hangup⟩⟩

instance (n : Net) : (a : Input) → Decidable (Told n a)
  | .poll revents => inferInstanceAs (Decidable (∀ k fd e r, Client n.server k fd e r →
      Truthful (n.streams fd) e (revents k)))
  | .turn a => inferInstanceAs (Decidable (∀ k fd e r, Client n.server k fd e r →
      n.server.ctl = .scanning k → Reads r → ∀ bytes ∈ a.recv.toOption,
        (n.streams fd).Yields bytes))
  | .pollFailed => isTrue trivial

instance netLawfulDecidable (n : Net) : (a : NetInput) → Decidable (NetLawful n a)
  | .arrives _ _ => inferInstanceAs (Decidable (_ ∧ _))
  | .finishes _ => inferInstanceAs (Decidable (_ ∧ _))
  | .server a => @instDecidableAnd _ _ (lawfulDecidable n.server a) inferInstance

instance (v : Program) (n : Net) (a : NetInput) : Decidable ((net v).Lawful n a) :=
  netLawfulDecidable n a

instance (n : Net) : (a : NetInput) → Decidable (Separate n a)
  | .server (.poll _) => inferInstanceAs (Decidable (∀ k fd e r, Client n.server k fd e r →
      (n.streams fd).finished = true → (n.streams fd).unread = []))
  | .server (.turn _) | .server .pollFailed | .arrives _ _ | .finishes _ => isTrue trivial

instance (v : Program) (n : Net) (a : NetInput) :
    Decidable (((net v).guard Separate).Lawful n a) :=
  @instDecidableAnd _ _ (netLawfulDecidable n a) inferInstance

/-- A step that closes the connection on `fd` because its slot was reported as hung up. -/
def Abandons (s t : St) (fd : Fd) : Prop :=
  .closed fd ∈ t.log.drop s.log.length ∧
  ∃ r, has r pollRdhup ∧ .examined fd r ∈ t.log.drop s.log.length

/-- A client that is about to be removed sent nothing that was not read. -/
def Settled (n : Net) : Prop :=
  ∀ k fd e r, Client n.server k fd e r → has r pollRdhup → (n.streams fd).Exhausted

theorem net_simulates (v : Program) : Machine.Simulates (net v) (machine v) Net.server where
  start _ start := start.1
  step n a m _ lawful run := by
    cases a with
    | arrives fd bytes =>
      left
      obtain rfl := Option.some.inj run
      rfl
    | finishes fd =>
      left
      obtain rfl := Option.some.inj run
      rfl
    | server a =>
      right
      obtain ⟨s, next, same⟩ := Option.bind_eq_some_iff.mp run
      obtain rfl := Option.some.inj same
      exact ⟨a, lawful.1, next⟩

/-! Hung-up slots across a turn. -/

/-- `new` extends the history from `s` to `t`, and every slot of `t` that reports a hang-up was
one of `s`, with a connection that is not accepted in between. -/
structure Carries (s t : St) (new : List Event) : Prop where
  log : t.log = s.log ++ new
  unexamined : ∀ fd r, .examined fd r ∉ new
  origin : ∀ k fd e r, Client t k fd e r → has r pollRdhup →
    (∃ l e0, Client s l fd e0 r) ∧ .accepted fd ∉ new

section Turn

variable {v : Program} {s t : St} {i k : Int} {c fd : Fd} {e r e' r' : Mask} {a : Answers}

theorem Carries.remove {lastFd : Fd} {tail : List Event} (client : Client s i c e' r')
    (log : RemovalLog c lastFd tail) : Carries s (s.remove i c lastFd tail) tail where
  log := rfl
  unexamined fd r := by cases log <;> simp
  origin k fd e r stays _ := by
    obtain ⟨l, -, before⟩ := Client.of_remove client stays
    refine ⟨⟨l, e, before⟩, ?_⟩
    cases log <;> simp

theorem Turn.carries (inv : Inv s) (turn : Turn v s i a t) : ∃ new, Carries s t new := by
  cases turn with
  | idle =>
    refine ⟨[], by simp [St.next], by simp, fun k fd e r h _ => ?_⟩
    exact ⟨⟨k, e, h.congr⟩, by simp⟩
  | refuse c addr _ fresh =>
    refine ⟨_, rfl, by simp, fun k fd e r h _ => ?_⟩
    have before : Client s k fd e r := h.congr
    have other := before.fresh inv fresh
    exact ⟨⟨k, e, before⟩, by simp [other]⟩
  | enroll c addr _ fresh _ =>
    refine ⟨_, rfl, by simp, fun k fd e r h hangs => ?_⟩
    rcases h.of_enroll with before | ⟨-, -, rfl⟩
    · have other := before.fresh inv fresh
      exact ⟨⟨k, e, before⟩, by simp [other]⟩
    · exact absurd hangs not_has_zero
  | hangup fd lastFd e r e' r' client _ _ => exact ⟨_, Carries.remove client .hangup⟩
  | failed fd lastFd e r e' r' errno client _ _ _ _ =>
    have cleared : Client (s.filled fd []) i fd e r := client_filled.mpr client
    have gone : Carries (s.filled fd []) ((s.filled fd []).remove i fd lastFd
        [.closed fd, .copied fd lastFd]) _ := Carries.remove cleared .failed
    refine ⟨_, gone.log, gone.unexamined, fun k f e r h hangs => ?_⟩
    obtain ⟨⟨l, e0, before⟩, unaccepted⟩ := gone.origin k f e r h hangs
    exact ⟨⟨l, e0, client_filled.mp before⟩, unaccepted⟩
  | cleared fd e r _ _ _ =>
    refine ⟨[], by simp [St.next], by simp, fun k f e r h _ => ?_⟩
    exact ⟨⟨k, e, h.congr⟩, by simp⟩
  | heard fd e r bytes m client _ _ _ _ run =>
    have ready : Inv ((s.filled fd bytes).emit (.received fd bytes)) :=
      (inv.filled fd bytes).emit rfl
    have spread := spread_of_broadcast ready client.lower client.upper run
    obtain ⟨assigned, log, only⟩ := spread.log
    have kinds : ∀ x ∈ .received fd bytes :: assigned,
        x = .received fd bytes ∨ ∃ f source, x = .assigned f source := by
      intro x member
      rcases List.mem_cons.mp member with first | later
      · exact .inl first
      · exact .inr (only x later)
    refine ⟨.received fd bytes :: assigned, ?_, ?_, fun k f e r h _ => ⟨?_, ?_⟩⟩
    · simp [St.next, log, St.emit]
    · intro f r member
      rcases kinds _ member with same | ⟨f, source, same⟩
      · exact absurd same (by simp)
      · exact absurd same (by simp)
    · have h' : Client m k f e r := h.congr
      obtain ⟨e0, before⟩ := h'.of_spread ready spread
      exact ⟨k, e0, before.congr⟩
    · intro member
      rcases kinds _ member with same | ⟨f, source, same⟩
      · exact absurd same (by simp)
      · exact absurd same (by simp)
  | nothing fd e r client _ _ =>
    refine ⟨[.readPending fd .null], by simp [St.next, St.emit], by simp, fun k f e r h _ => ?_⟩
    exact ⟨⟨k, e, h.congr⟩, by simp⟩
  | flushed fd e r client _ _ =>
    refine ⟨_, rfl, by simp, fun k f e' r' h _ => ⟨?_, by simp⟩⟩
    rcases client.of_flush h with ⟨rfl, rfl, rfl, rfl⟩ | ⟨-, before⟩
    · exact ⟨k, e, client⟩
    · exact ⟨k, e', before⟩

end Turn

/-! Runs in which data and close are reported separately. -/

/-- Events of the server leave an exhausted stream exhausted, as long as the descriptor is not
accepted again. -/
theorem follow_exhausted {streams : Fd → Channel Byte} {fd : Fd} {new : List Event}
    (unaccepted : .accepted fd ∉ new) (exhausted : (streams fd).Exhausted) :
    (new.foldl follow streams fd).Exhausted := by
  induction new generalizing streams with
  | nil => exact exhausted
  | cons e new ih =>
    obtain ⟨other, later⟩ := not_or.mp (List.mem_cons.not.mp unaccepted)
    apply ih later
    cases e with
    | accepted f =>
      have apart : fd ≠ f := fun same => other (same ▸ rfl)
      rw [follow, Function.update_of_ne apart]
      exact exhausted
    | received f bytes =>
      rw [follow]
      by_cases same : fd = f
      · subst same
        rw [Function.update_self]
        exact exhausted.consume bytes.length
      · rw [Function.update_of_ne same]
        exact exhausted
    | examined _ _ => exact exhausted
    | refused _ _ => exact exhausted
    | closed _ => exact exhausted
    | assigned _ _ => exact exhausted
    | copied _ _ => exact exhausted
    | readPending _ _ => exact exhausted
    | sent _ _ => exact exhausted
    | reset _ => exact exhausted

section Net

variable {v : Program} {n m : Net} {fd : Fd}

/-- The stream of a client that is about to be removed is not the one that goes on. -/
theorem Settled.ne (settled : Settled n) {k : Int} {f : Fd} {e r : Mask}
    (client : Client n.server k f e r) (hangs : has r pollRdhup)
    (going : (n.streams fd).finished = false) : f ≠ fd := by
  intro same
  subst same
  rw [(settled k f e r client hangs).finished] at going
  exact absurd going (by decide)

theorem Settled.server {a : Input} {s : St} (inv : Inv n.server) (settled : Settled n)
    (told : Told n a) (separate : Separate n (.server a)) (move : Move v n.server a s) :
    Settled ⟨s, (s.log.drop n.server.log.length).foldl follow n.streams⟩ := by
  intro k f e r client hangs
  cases move with
  | polled revents s _ polled =>
    obtain ⟨r0, before, same⟩ := Client.of_polled inv polled client
    have finished := (told k f e r0 before).hangup (same ▸ hangs)
    have silent : s.log.drop n.server.log.length = [] := by simp [polled.log]
    show ((s.log.drop n.server.log.length).foldl follow n.streams f).Exhausted
    rw [silent]
    exact ⟨finished, separate k f e r0 before finished⟩
  | left =>
    have before : Client n.server k f e r := client.congr
    simpa using settled k f e r before hangs
  | passed i a _ _ =>
    have before : Client n.server k f e r := client.congr
    simpa using settled k f e r before hangs
  | turn i a fd' e' r' s ctl lower upper slot run turn =>
    obtain ⟨new, log, -, origin⟩ := turn.carries (inv.emit rfl)
    obtain ⟨⟨l, e0, before⟩, unaccepted⟩ := origin k f e r client hangs
    have tail : s.log.drop n.server.log.length = .examined fd' r' :: new := by
      simp [log, St.emit]
    show ((s.log.drop n.server.log.length).foldl follow n.streams f).Exhausted
    rw [tail]
    apply follow_exhausted
    · simpa using unaccepted
    · exact settled l f e0 r before.congr hangs

theorem reachable_server (h : (net v).Reachable n) : (machine v).Reachable n.server :=
  (net_simulates v).reachable h

theorem reachable_settled (h : ((net v).guard Separate).Reachable n) : Settled n := by
  apply h.invariant
  · rintro n ⟨⟨listenfd, files, memory, -, -, start⟩, -⟩ k fd e r client
    have lower := client.lower
    have upper : k ≤ n.server.userCounter := client.upper
    rw [start] at upper
    exact absurd upper (show ¬ k ≤ 0 by omega)
  · intro n a m reach settled lawful run
    have server := reachable_server reach.of_guard
    cases a with
    | arrives fd bytes =>
      obtain rfl := Option.some.inj run
      intro k f e r client hangs
      have apart := settled.ne client hangs lawful.1.2
      show (Function.update n.streams fd ((n.streams fd).send bytes) f).Exhausted
      rw [Function.update_of_ne apart]
      exact settled k f e r client hangs
    | finishes fd =>
      obtain rfl := Option.some.inj run
      intro k f e r client hangs
      have apart := settled.ne client hangs lawful.1.2
      show (Function.update n.streams fd (n.streams fd).finish f).Exhausted
      rw [Function.update_of_ne apart]
      exact settled k f e r client hangs
    | server a =>
      obtain ⟨s, next, same⟩ := Option.bind_eq_some_iff.mp run
      obtain rfl := Option.some.inj same
      exact settled.server (reachable_inv server) lawful.1.2 lawful.2
        (reachable_move server lawful.1.1 next)

/-- Only the turn at a slot that reports a hang-up abandons its connection. -/
theorem Move.abandons {s t : St} {a : Input} (inv : Inv s) (move : Move v s a t)
    (abandons : Abandons s t fd) : ∃ k e r, Client s k fd e r ∧ has r pollRdhup := by
  obtain ⟨-, r, hangs, examined⟩ := abandons
  cases move with
  | polled revents t _ polled => simp [polled.log] at examined
  | left => simp at examined
  | passed i a _ _ => simp at examined
  | turn i a fd' e' r' t ctl lower upper slot run turn =>
    obtain ⟨new, log, unexamined, -⟩ := turn.carries (inv.emit rfl)
    have tail : t.log.drop s.log.length = .examined fd' r' :: new := by
      simp [log, St.emit]
    rw [tail] at examined
    rcases List.mem_cons.mp examined with same | later
    · obtain ⟨rfl, rfl⟩ := Event.examined.inj same
      have client : 1 ≤ i := by
        by_contra first
        obtain rfl : i = 0 := by omega
        obtain ⟨e0, r0, listening, idle⟩ := inv.listener
        obtain ⟨-, -, rfl⟩ : s.listenfd = fd ∧ e0 = e' ∧ r0 = r := by
          simpa using listening.symm.trans slot
        exact idle.2 hangs
      exact ⟨i, e', r, ⟨client, upper, slot⟩, hangs⟩
    · exact absurd later (unexamined fd r)

/-- The server has read all that a client sent when it removes it because it closed. -/
theorem server_drains (h : ((net v).guard Separate).Reachable n) {a : NetInput}
    (lawful : (net v).Lawful n a) (run : (net v).step n a = some m)
    (abandons : Abandons n.server m.server fd) : (n.streams fd).read = (n.streams fd).sent := by
  have server := reachable_server h.of_guard
  cases a with
  | arrives f bytes =>
    obtain rfl := Option.some.inj run
    simp [Abandons] at abandons
  | finishes f =>
    obtain rfl := Option.some.inj run
    simp [Abandons] at abandons
  | server a =>
    obtain ⟨s, next, same⟩ := Option.bind_eq_some_iff.mp run
    obtain rfl := Option.some.inj same
    obtain ⟨k, e, r, client, hangs⟩ :=
      (reachable_move server lawful.1 next).abandons (reachable_inv server) abandons
    exact (reachable_settled h k fd e r client hangs).read_eq_sent

end Net

end JiajiaNetwork.PollChat
