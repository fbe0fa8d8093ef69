/- Pending pointers of `test_poll.c`: a slot asks for POLLOUT only after a broadcast has set
   the pointer of its own connection, so the POLLOUT branch never reads a stale one. -/
import JiajiaNetwork.PollChat.Clients

set_option autoImplicit false
set_option relaxedAutoImplicit false

namespace JiajiaNetwork.PollChat

open Lib

/-- The events that write `users[fd].write_buf`. -/
def writesPending (fd : Fd) : Event → Bool
  | .assigned f _ | .copied f _ | .reset f => f = fd
  | _ => false

/-- The last write to `users[fd].write_buf` in `seg` is a broadcast of another client or the
reset by a send, and it left the value `p`. -/
def Vouched (fd : Fd) (seg : List Event) (p : WriteBuf) : Prop :=
  (∃ k, k ≠ fd ∧ p = .buf k ∧ lastOf (writesPending fd) seg = some (.assigned fd k)) ∨
  (p = .null ∧ lastOf (writesPending fd) seg = some (.reset fd))

/-- A pointer read by the POLLOUT branch was written within the connection that is on. -/
def ReadsFresh (pre : List Event) : Event → Prop
  | .readPending fd p => ∃ seg, tenure Event.life fd pre = some seg ∧ Vouched fd seg p
  | _ => True

/-- Events that leave the connection on `fd` and its pending pointer alone. -/
structure Aloof (fd : Fd) (e : Event) : Prop extends Apart Event.life fd e where
  writes : writesPending fd e = false

theorem Vouched.append {fd : Fd} {seg new : List Event} {p : WriteBuf} (h : Vouched fd seg p)
    (aloof : ∀ e ∈ new, Aloof fd e) : Vouched fd (seg ++ new) p := by
  have last : lastOf (writesPending fd) (seg ++ new) = lastOf (writesPending fd) seg := by
    rw [lastOf_append, lastOf_eq_none fun e he => (aloof e he).writes, Option.none_or]
  simpa only [Vouched, last] using h

/-- The correlation of POLLOUT requests with the history of the pending pointers. -/
structure Backed (s : St) : Prop where
  clients : ∀ k fd e r, Client s k fd e r → ∃ seg, tenure Event.life fd s.log = some seg ∧
    (has e pollOut → Vouched fd seg (s.users.cell fd).writeBuf)
  reads : Always ReadsFresh s.log

theorem Client.out {s : St} (inv : Inv s) {k : Int} {fd : Fd} {e r : Mask}
    (h : Client s k fd e r) (out : has r pollOut) : has e pollOut := by
  obtain ⟨fd', e', r', slot, -, asked⟩ := inv.clients k h.lower h.upper
  obtain ⟨rfl, rfl, rfl⟩ : fd' = fd ∧ e' = e ∧ r' = r := by simpa using slot.symm.trans h.slot
  exact asked out

theorem not_out_initial : ¬ has (pollIn ||| pollRdhup ||| pollErr) pollOut := by decide

/-- A step that keeps a client's pointer and logs nothing about it. -/
theorem Backed.keeps {s t : St} {new : List Event} {l : Int} {fd : Fd} {e r : Mask}
    (back : Backed s) (before : Client s l fd e r) (log : t.log = s.log ++ new)
    (pointer : (t.users.cell fd).writeBuf = (s.users.cell fd).writeBuf)
    (aloof : ∀ x ∈ new, Aloof fd x) : ∃ seg, tenure Event.life fd t.log = some seg ∧
      (has e pollOut → Vouched fd seg (t.users.cell fd).writeBuf) := by
  obtain ⟨seg, on, vouched⟩ := back.clients l fd e r before
  refine ⟨seg ++ new, ?_, fun out => ?_⟩
  · rw [log]
    exact tenure_append on fun x hx => (aloof x hx).toApart
  · rw [pointer]
    exact (vouched out).append aloof

/-- Steps that change no pointer of a client and log nothing about it. -/
theorem Backed.frame {s t : St} (back : Backed s) (new : List Event) (log : t.log = s.log ++ new)
    (reads : Always ReadsFresh t.log)
    (origin : ∀ k fd e r, Client t k fd e r → (∃ l r0, Client s l fd e r0) ∧
      (t.users.cell fd).writeBuf = (s.users.cell fd).writeBuf ∧ ∀ x ∈ new, Aloof fd x) :
    Backed t where
  reads := reads
  clients k fd e r client := by
    obtain ⟨⟨l, r0, before⟩, pointer, aloof⟩ := origin k fd e r client
    exact back.keeps before log pointer aloof

/-- Steps that touch neither the clients nor the history. -/
theorem Backed.congr {s t : St} (back : Backed s) (slots : t.fds = s.fds := by rfl)
    (counter : t.userCounter = s.userCounter := by rfl) (users : t.users = s.users := by rfl)
    (log : t.log = s.log := by rfl) : Backed t := by
  apply back.frame [] (by simp [log]) (log ▸ back.reads)
  intro k fd e r client
  exact ⟨⟨k, r, client.congr slots.symm counter.symm⟩, by rw [users], by simp⟩

/-- Events other than reads of a pending pointer. -/
def Event.reads : Event → Bool
  | .readPending _ _ => true
  | _ => false

theorem reads_append {log new : List Event} (old : Always ReadsFresh log)
    (none : ∀ e ∈ new, e.reads = false) : Always ReadsFresh (log ++ new) := by
  refine always_append.mpr ⟨old, always_of_forall_mem ?_⟩
  intro e he pre
  have := none e he
  cases e <;> simp_all [Event.reads, ReadsFresh]

section Steps

variable {s t : St} {i : Int} {c fd : Fd} {e r : Mask}

theorem Backed.emit (back : Backed s) (fd : Fd) (r : Mask) :
    Backed (s.emit (.examined fd r)) :=
  back.frame (t := s.emit (.examined fd r)) _ rfl
    (reads_append back.reads (by simp [Event.reads]))
    fun k f e r0 client => ⟨⟨k, r0, client.congr⟩, rfl,
      fun x hx => by
        obtain rfl := List.mem_singleton.mp hx
        exact ⟨apart_of_neither rfl, rfl⟩⟩

theorem Backed.filled (back : Backed s) (c : Fd) (bytes : List Byte) :
    Backed (s.filled c bytes) := by
  refine back.frame [] (by simp) back.reads ?_
  intro k f e r client
  exact ⟨⟨k, r, client_filled.mp client⟩, CArray.put_field ClientData.writeBuf rfl, by simp⟩

theorem Backed.refuse (inv : Inv s) (back : Backed s) (fresh : Fresh s c) :
    Backed (s.refuse i c) := by
  refine back.frame _ rfl (reads_append back.reads (by simp [Event.reads])) ?_
  intro k f e r client
  have before : Client s k f e r := client.congr
  have other := before.fresh inv fresh
  refine ⟨⟨k, r, before⟩, rfl, ?_⟩
  simp only [List.mem_cons, List.not_mem_nil, or_false]
  rintro x (rfl | rfl | rfl)
  · exact ⟨apart_accepted other, rfl⟩
  · exact ⟨apart_of_neither rfl, rfl⟩
  · exact ⟨apart_closed other, rfl⟩

theorem Backed.enroll {addr : SockaddrIn} (inv : Inv s) (back : Backed s) (fresh : Fresh s c) :
    Backed (s.enroll i c addr) where
  reads := reads_append back.reads (by simp [Event.reads])
  clients k f e r client := by
    rcases client.of_enroll with before | ⟨rfl, rfl, -⟩
    · have other := before.fresh inv fresh
      refine back.keeps before rfl (CArray.put_field ClientData.writeBuf rfl) ?_
      intro x hx
      obtain rfl := List.mem_singleton.mp hx
      exact ⟨apart_accepted other, rfl⟩
    · exact ⟨[], tenure_opens rfl, fun out => absurd out not_out_initial⟩

theorem Backed.remove {lastFd : Fd} {tail : List Event} (inv : Inv s) (back : Backed s)
    (client : Client s i c e r) (log : RemovalLog c lastFd tail) :
    Backed (s.remove i c lastFd tail) := by
  refine back.frame _ rfl (reads_append back.reads ?_) ?_
  · cases log <;> simp [Event.reads]
  · intro k f e' r' stays
    obtain ⟨l, apart, before⟩ := Client.of_remove client stays
    have other : f ≠ c := before.ne inv client apart
    refine ⟨⟨l, r', before⟩, by simp [other], ?_⟩
    intro x hx
    have kinds : x = .copied c lastFd ∨ x = .closed c := by
      cases log <;> simpa [or_comm] using hx
    rcases kinds with rfl | rfl
    · exact ⟨apart_of_neither rfl, by simp [writesPending, Ne.symm other]⟩
    · exact ⟨apart_closed other, rfl⟩

/-- The broadcast backs the request of every recipient with an assignment to its pointer. -/
theorem Backed.announced (inv : Inv s) (back : Backed s) (h : Announced s c t) : Backed t := by
  obtain ⟨new, log, only, all⟩ := h.history
  have kinds : ∀ {f}, ∀ x ∈ new, Apart Event.life f x := by
    intro f x hx
    obtain ⟨f', -, rfl⟩ := only x hx
    exact apart_of_neither rfl
  refine ⟨?_, ?_⟩
  · intro k f e r client
    obtain ⟨e0, before, rfl⟩ := client.of_announced inv h
    have pointer := h.pointers k f e0 r before
    by_cases sender : f = c
    · subst sender
      rw [if_pos rfl] at pointer ⊢
      apply back.keeps before log pointer
      intro x hx
      refine ⟨kinds x hx, ?_⟩
      obtain ⟨f', ne, rfl⟩ := only x hx
      simp [writesPending, ne]
    · rw [if_neg sender] at pointer ⊢
      obtain ⟨seg, on, -⟩ := back.clients k f e0 r before
      refine ⟨seg ++ new, log ▸ tenure_append on kinds, ?_⟩
      refine fun _ => .inl ⟨c, Ne.symm sender, pointer, ?_⟩
      have last : lastOf (writesPending f) new = some (.assigned f c) := by
        refine lastOf_eq_some (all k f e0 r before sender) (by simp [writesPending]) ?_
        intro x hx kind
        obtain ⟨f', -, rfl⟩ := only x hx
        have : f' = f := by simpa [writesPending] using kind
        rw [this]
      rw [lastOf_append, last, Option.some_or]
  · rw [log]
    refine reads_append back.reads fun x hx => ?_
    obtain ⟨f', -, rfl⟩ := only x hx
    rfl

/-- What the POLLOUT branch reads is vouched for. -/
theorem Backed.read (inv : Inv s) (back : Backed s) (client : Client s i c e r)
    (writes : Writes r) : ReadsFresh s.log (.readPending c (s.users.cell c).writeBuf) := by
  obtain ⟨seg, on, vouched⟩ := back.clients i c e r client
  exact ⟨seg, on, vouched (client.out inv writes.1)⟩

theorem Backed.nothing (inv : Inv s) (back : Backed s) (client : Client s i c e r)
    (writes : Writes r) (null : (s.users.cell c).writeBuf = .null) :
    Backed (s.emit (.readPending c .null)) := by
  refine back.frame (t := s.emit (.readPending c .null)) _ rfl ?_ ?_
  · refine always_append.mpr ⟨back.reads, ?_⟩
    simpa [always_cons, null] using back.read inv client writes
  · intro k f e' r' h
    refine ⟨⟨k, r', h.congr⟩, rfl, fun x hx => ?_⟩
    obtain rfl := List.mem_singleton.mp hx
    exact ⟨apart_of_neither rfl, rfl⟩

theorem Backed.flush (inv : Inv s) (back : Backed s) (client : Client s i c e r)
    (writes : Writes r) (text : List Byte) : Backed (s.flush i c e r text) where
  clients k f e' r' h := by
    have kinds : ∀ {f}, ∀ x ∈ [Event.readPending c (s.users.cell c).writeBuf, .sent c text,
        .reset c], Apart Event.life f x := fun {f} => apart_of_all_neither (by simp [Event.life])
    rcases client.of_flush h with ⟨rfl, rfl, rfl, rfl⟩ | ⟨apart, before⟩
    · obtain ⟨seg, on, -⟩ := back.clients k f e r' client
      refine ⟨_, tenure_append on kinds, fun _ => .inr ⟨by simp, ?_⟩⟩
      simp [lastOf, writesPending]
    · have other : f ≠ c := before.ne inv client apart
      apply back.keeps before rfl (by simp [other])
      intro x hx
      refine ⟨kinds x hx, ?_⟩
      simp only [List.mem_cons, List.not_mem_nil, or_false] at hx
      rcases hx with rfl | rfl | rfl <;> simp [writesPending, Ne.symm other]
  reads := by
    refine always_append.mpr ⟨back.reads, ?_⟩
    simpa [always_cons, ReadsFresh] using back.read inv client writes

theorem Backed.turn {a : Answers} (inv : Inv s) (back : Backed s)
    (turn : Turn .testPoll s i a t) : Backed t := by
  cases turn with
  | idle => exact back.congr
  | refuse c addr _ fresh => exact back.refuse inv fresh
  | enroll c addr _ fresh _ => exact back.enroll inv fresh
  | hangup fd lastFd e r e' r' client _ _ => exact back.remove inv client .hangup
  | failed fd lastFd e r e' r' errno client _ _ _ _ =>
    exact (back.filled fd []).remove (inv.filled fd []) (client_filled.mpr client) .failed
  | cleared fd e r _ _ _ => exact (back.filled fd []).congr
  | heard fd e r bytes m client _ _ _ _ run =>
    have ready : Inv ((s.filled fd bytes).emit (.received fd bytes)) :=
      (inv.filled fd bytes).emit rfl
    refine Backed.congr (s := m) ?_
    refine Backed.announced ready ?_ (broadcast_announced ready run)
    refine (back.filled fd bytes).frame _ rfl (reads_append back.reads (by simp [Event.reads])) ?_
    intro k f e' r' h
    refine ⟨⟨k, r', h.congr⟩, rfl, fun x hx => ?_⟩
    obtain rfl := List.mem_singleton.mp hx
    exact ⟨apart_of_neither rfl, rfl⟩
  | nothing fd e r client writes null =>
    exact (back.nothing inv client writes null).congr
  | flushed fd e r client writes _ => exact back.flush inv client writes _

theorem Backed.move {a : Input} (inv : Inv s) (back : Backed s) (move : Move .testPoll s a t) :
    Backed t := by
  cases move with
  | polled revents t _ polled =>
    refine back.frame [] (by simp [polled.log]) (polled.log ▸ back.reads) ?_
    intro k f e r client
    obtain ⟨r0, before, -⟩ := client.of_polled inv polled
    exact ⟨⟨k, r0, before⟩, by rw [polled.users], by simp⟩
  | left => exact back.congr
  | passed i a _ _ => exact back.congr
  | turn i a fd e r t _ _ _ _ _ turn => exact (back.emit fd r).turn (inv.emit rfl) turn

end Steps

theorem reachable_backed {s : St} (h : (machine .testPoll).Reachable s) : Backed s := by
  refine h.invariant ?_ ?_
  · rintro s ⟨listenfd, files, memory, -, -, rfl⟩
    refine ⟨fun k fd e r client => ?_, by simp [initial]⟩
    have lower := client.lower
    have upper : k ≤ 0 := client.upper
    omega
  · intro s a t reach back lawful run
    exact back.move (reachable_inv reach) (reachable_move reach lawful run)

/-- Whenever the POLLOUT branch reads a pending pointer, the last write to it since the
current connection was accepted is a broadcast of another client or the reset by a send. -/
theorem pending_never_stale (s : St) (h : (machine .testPoll).Reachable s) :
    Always ReadsFresh s.log :=
  (reachable_backed h).reads

/-- The client on 5 says "hi", and the client on 6 is served. -/
def greeting : List Input :=
  [reports [0, pollIn, 0], idleTurn, recvTurn [104, 105], idleTurn, idleTurn,
    reports [0, 0, pollOut], idleTurn, idleTurn, idleTurn]

def greeted : St := ((machine .testPoll).replay (joined .testPoll) greeting).getD (joined .testPoll)

theorem greeted_reachable : (machine .testPoll).Reachable greeted :=
  (joined_reachable .testPoll).replay_getD greeting

theorem pending_never_stale_greeted :
    Event.readPending 6 (.buf 5) ∈ greeted.log ∧ Always ReadsFresh greeted.log :=
  ⟨by decide +kernel, pending_never_stale greeted greeted_reachable⟩

end JiajiaNetwork.PollChat
