/- Clients across a turn: where the slots of the next state come from, what the broadcast of
   `test_poll.c` does to each recipient, and the part of the history that belongs to one
   connection. -/
import JiajiaNetwork.PollChat.SlotTable

set_option autoImplicit false
set_option relaxedAutoImplicit false

namespace JiajiaNetwork.PollChat

open Lib

section Origin

variable {s t : St} {i k : Int} {c fd : Fd} {e r e' r' : Mask}

theorem Client.of_enroll {addr : SockaddrIn} (h : Client (s.enroll i c addr) k fd e r) :
    Client s k fd e r ∨ fd = c ∧ e = pollIn ||| pollRdhup ||| pollErr ∧ r = 0 := by
  have upper := h.upper
  have slot := h.slot
  simp only [St.enroll_userCounter] at upper
  by_cases last : k = s.userCounter + 1
  · subst last
    right
    simp only [St.enroll_fds, CArray.put_cell_same, Pollfd.mk.injEq, Option.some.injEq] at slot
    exact ⟨slot.1.symm, slot.2.1.symm, slot.2.2.symm⟩
  · left
    refine ⟨h.lower, by omega, ?_⟩
    simpa [last] using slot

/-- Behind a removal every slot belongs to a client that stays. -/
theorem Client.of_remove {lastFd : Fd} {tail : List Event} (client : Client s i c e' r')
    (h : Client (s.remove i c lastFd tail) k fd e r) : ∃ l, l ≠ i ∧ Client s l fd e r := by
  obtain ⟨l, ⟨hl1, hl2⟩, other, moved⟩ := swapLast_source (f := s.fds.cell)
    ⟨client.lower, client.upper⟩ ⟨h.lower, h.upper⟩
  exact ⟨l, other, hl1, hl2, moved.symm.trans h.slot⟩

/-- Every client that stays keeps its slot contents at some position. -/
theorem Client.to_remove {lastFd : Fd} {tail : List Event} (client : Client s i c e' r')
    (h : Client s k fd e r) (other : k ≠ i) :
    ∃ l, Client (s.remove i c lastFd tail) l fd e r := by
  obtain ⟨l, ⟨hl1, hl2⟩, moved⟩ := swapLast_target (f := s.fds.cell)
    ⟨client.lower, client.upper⟩ ⟨h.lower, h.upper⟩ other
  exact ⟨l, hl1, hl2, moved.trans h.slot⟩

theorem Client.of_flush {text : List Byte} (client : Client s i c e' r')
    (h : Client (s.flush i c e' r' text) k fd e r) :
    k = i ∧ fd = c ∧ e = e' ||| ~~~pollOut ||| pollIn ∧ r = r' ∨ k ≠ i ∧ Client s k fd e r := by
  have slot := h.slot
  by_cases same : k = i
  · subst same
    left
    simp only [St.flush_fds, CArray.put_cell_same, Pollfd.mk.injEq, Option.some.injEq] at slot
    exact ⟨rfl, slot.1.symm, slot.2.1.symm, slot.2.2.symm⟩
  · right
    exact ⟨same, h.lower, h.upper, by simpa [same] using slot⟩

theorem Client.of_spread (inv : Inv s) (spread : Spread s t) (h : Client t k fd e r) :
    ∃ e0, Client s k fd e0 r := by
  obtain ⟨fd0, e0, r0, client⟩ := inv.client h.lower (spread.userCounter ▸ h.upper)
  obtain ⟨e1, slot, -⟩ := spread.slots k _ e0 _ client.slot
  obtain ⟨rfl, rfl, rfl⟩ : fd0 = fd ∧ e1 = e ∧ r0 = r := by simpa using slot.symm.trans h.slot
  exact ⟨e0, client⟩

theorem Client.of_polled {revents : Int → Mask} (inv : Inv s) (polled : Polled s revents t)
    (h : Client t k fd e r) : ∃ r0, Client s k fd e r0 ∧ r = revents k := by
  have upper : k ≤ s.userCounter := polled.userCounter ▸ h.upper
  obtain ⟨fd0, e0, r0, client⟩ := inv.client h.lower upper
  have slot := polled.slots k _ e0 _ (by have := h.lower; omega) upper client.slot
  obtain ⟨rfl, rfl, rfl⟩ : fd0 = fd ∧ e0 = e ∧ revents k = r := by
    simpa using slot.symm.trans h.slot
  exact ⟨r0, client, rfl⟩

/-- Two clients on different slots have different descriptors. -/
theorem Client.ne (inv : Inv s) (h : Client s k fd e r) (h' : Client s i c e' r')
    (other : k ≠ i) : fd ≠ c := by
  rintro rfl
  exact other (h.unique inv h')

theorem Client.fresh (inv : Inv s) (h : Client s k fd e r) (fresh : Fresh s c) : fd ≠ c := by
  rintro rfl
  exact fresh.closed inv (h.open inv)

end Origin

/-! Statements about all clients can be evaluated. -/

section Decidable

variable {s : St}

instance (k : Int) (P : Fd → Mask → Mask → Prop) [∀ fd e r, Decidable (P fd e r)] :
    Decidable (∀ fd e r, Client s k fd e r → P fd e r) :=
  match slot : s.fds.cell k with
  | ⟨some fd, some e, some r⟩ =>
    decidable_of_iff (1 ≤ k → k ≤ s.userCounter → P fd e r)
      ⟨fun h fd' e' r' client => by
        obtain ⟨rfl, rfl, rfl⟩ : fd = fd' ∧ e = e' ∧ r = r' := by
          simpa using slot.symm.trans client.slot
        exact h client.lower client.upper,
      fun h lower upper => h fd e r ⟨lower, upper, slot⟩⟩
  | ⟨none, _, _⟩ | ⟨_, none, _⟩ | ⟨_, _, none⟩ =>
    isTrue fun fd e r client => by simp [client.slot] at slot

instance (P : Int → Fd → Mask → Mask → Prop) [∀ k fd e r, Decidable (P k fd e r)] :
    Decidable (∀ k fd e r, Client s k fd e r → P k fd e r) :=
  decidable_of_iff
    (∀ k, 1 ≤ k → k ≤ s.userCounter → ∀ fd e r, Client s k fd e r → P k fd e r)
    ⟨fun h k fd e r client => h k client.lower client.upper fd e r client,
    fun h k _ _ => h k⟩

instance (r : Mask) : Decidable (HangsUp r) := inferInstanceAs (Decidable (_ ∧ _))

instance (r : Mask) : Decidable (Reads r) := inferInstanceAs (Decidable (_ ∧ _))

end Decidable

/-! The broadcast of `test_poll.c` reaches every other client. -/

/-- The mask of a recipient after `|= ~POLLIN` and `|= POLLOUT`. -/
def raised (e : Mask) : Mask := e ||| ~~~pollIn ||| pollOut

structure Announced (s : St) (c : Fd) (t : St) : Prop extends Spread s t where
  masks : ∀ k fd e r, Client s k fd e r →
    t.fds.cell k = ⟨some fd, some (if fd = c then e else raised e), some r⟩
  pointers : ∀ k fd e r, Client s k fd e r →
    (t.users.cell fd).writeBuf = if fd = c then (s.users.cell fd).writeBuf else .buf c
  history : ∃ new, t.log = s.log ++ new ∧ (∀ e ∈ new, ∃ fd, fd ≠ c ∧ e = .assigned fd c) ∧
    ∀ k fd e r, Client s k fd e r → fd ≠ c → .assigned fd c ∈ new

/-- The loop up to slot `j`: the slots before it are served, the rest is untouched. -/
private structure Partial (s : St) (c : Fd) (j : Int) (m : St) : Prop extends Spread s m where
  served : ∀ k fd e r, Client s k fd e r → k < j →
    m.fds.cell k = ⟨some fd, some (if fd = c then e else raised e), some r⟩ ∧
    (m.users.cell fd).writeBuf = if fd = c then (s.users.cell fd).writeBuf else .buf c
  waiting : ∀ k fd e r, Client s k fd e r → j ≤ k →
    m.fds.cell k = ⟨some fd, some e, some r⟩ ∧
    (m.users.cell fd).writeBuf = (s.users.cell fd).writeBuf
  history : ∃ new, m.log = s.log ++ new ∧ (∀ e ∈ new, ∃ fd, fd ≠ c ∧ e = .assigned fd c) ∧
    ∀ k fd e r, Client s k fd e r → k < j → fd ≠ c → .assigned fd c ∈ new

private theorem Partial.skip {s m : St} {c : Fd} {j : Int} {e r : Mask}
    (h : Partial s c j m) (client : Client s j c e r) : Partial s c (j + 1) m where
  toSpread := h.toSpread
  served k fd e' r' other below := by
    by_cases same : k = j
    · subst same
      obtain ⟨rfl, rfl, rfl⟩ := client.same other
      simpa using h.waiting k c e r client le_rfl
    · exact h.served k fd e' r' other (by omega)
  waiting k fd e' r' other above := h.waiting k fd e' r' other (by omega)
  history := by
    obtain ⟨new, hlog, only, all⟩ := h.history
    refine ⟨new, hlog, only, fun k fd e' r' other below ne => ?_⟩
    by_cases same : k = j
    · subst same
      exact absurd (other.same client).1 ne
    · exact all k fd e' r' other (by omega) ne

private theorem Partial.serve {s m : St} {c fd : Fd} {j : Int} {e r : Mask} (inv : Inv s)
    (h : Partial s c j m) (client : Client s j fd e r) (ne : fd ≠ c) :
    Partial s c (j + 1) { m with
      fds := m.fds.put j ⟨some fd, some (e ||| ~~~pollIn ||| pollOut), some r⟩
      users := m.users.put fd { m.users.cell fd with writeBuf := .buf c }
      log := m.log ++ [.assigned fd c] } where
  toSpread := h.toSpread.round fd c (~~~pollIn) pollOut client.lower client.upper
    (h.waiting j fd e r client le_rfl).1
  served k fd' e' r' other below := by
    by_cases same : k = j
    · subst same
      obtain ⟨rfl, rfl, rfl⟩ := client.same other
      simp [ne, raised]
    · have distinct := other.ne inv client same
      simpa [same, distinct] using h.served k fd' e' r' other (by omega)
  waiting k fd' e' r' other above := by
    have apart : k ≠ j := by omega
    have distinct := other.ne inv client apart
    simpa [apart, distinct] using h.waiting k fd' e' r' other (by omega)
  history := by
    obtain ⟨new, hlog, only, all⟩ := h.history
    refine ⟨new ++ [.assigned fd c], by simp [hlog], ?_, ?_⟩
    · intro x hx
      rcases List.mem_append.mp hx with old | last
      · exact only x old
      · exact ⟨fd, ne, List.mem_singleton.mp last⟩
    · intro k fd' e' r' other below apart
      by_cases same : k = j
      · subst same
        obtain ⟨rfl, -⟩ := client.same other
        simp
      · exact List.mem_append_left _ (all k fd' e' r' other (by omega) apart)

theorem broadcast_announced {s m : St} (inv : Inv s) {i : Int} {c : Fd}
    (run : broadcast .testPoll i c s = some m) : Announced s c m := by
  have limit := inv.counterLe
  have start : Partial s c 1 s := by
    refine ⟨.refl s, ?_, fun k fd e r client _ => ⟨client.slot, rfl⟩, [], by simp, by simp, ?_⟩
    · intro k fd e r client below
      have := client.lower
      omega
    · intro k fd e r client below
      have := client.lower
      omega
  obtain ⟨m', run', h⟩ := forLoop_rule (fun j => broadcastRound j c j) (P := Partial s c)
    s.userCounter.toNat 1 s start (by
    intro j m lower upper h
    obtain ⟨fd, e, r, client⟩ := inv.client (k := j) lower (by omega)
    have slot := (h.waiting j fd e r client le_rfl).1
    have get : m.fds.get j = some ⟨some fd, some e, some r⟩ := by
      rw [CArray.get_eq_some _ (by omega) (by omega), slot]
    by_cases same : fd = c
    · subst same
      exact ⟨m, by simp [broadcastRound, get], h.skip client⟩
    · obtain ⟨lo, hi, -⟩ := inv.sockets fd (client.open inv)
      refine ⟨_, ?_, h.serve inv client same⟩
      simp [broadcastRound, get, same, raise_eq (by omega) (by omega) slot, pointTo_eq lo hi])
  obtain rfl := Option.some.inj (run'.symm.trans run)
  have behind : ∀ {k fd e r}, Client s k fd e r → k < 1 + (s.userCounter.toNat : Int) := by
    intro k fd e r client
    have := client.upper
    omega
  refine ⟨h.toSpread, ?_, ?_, ?_⟩
  · exact fun k fd e r client => (h.served k fd e r client (behind client)).1
  · exact fun k fd e r client => (h.served k fd e r client (behind client)).2
  · obtain ⟨new, hlog, only, all⟩ := h.history
    exact ⟨new, hlog, only, fun k fd e r client => all k fd e r client (behind client)⟩

theorem Client.of_announced {s t : St} {c fd : Fd} {k : Int} {e r : Mask} (inv : Inv s)
    (announced : Announced s c t) (h : Client t k fd e r) :
    ∃ e0, Client s k fd e0 r ∧ e = if fd = c then e0 else raised e0 := by
  obtain ⟨fd0, e0, r0, client⟩ := inv.client h.lower (announced.userCounter ▸ h.upper)
  have slot := announced.masks k fd0 e0 r0 client
  obtain ⟨rfl, rfl, rfl⟩ : fd0 = fd ∧ (if fd0 = c then e0 else raised e0) = e ∧ r0 = r := by
    simpa using slot.symm.trans h.slot
  exact ⟨e0, client, rfl⟩

end JiajiaNetwork.PollChat
