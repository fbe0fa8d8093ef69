/- The broadcast of `chat_room_server.c`. Its loop stops before the last slot and edits the mask
   of the sender's slot, so it does what it should exactly in the runs in which a client is heard
   only when it is alone. -/
import JiajiaNetwork.PollChat.Pending

set_option autoImplicit false
set_option relaxedAutoImplicit false

namespace JiajiaNetwork.PollChat

open Lib

/-- The turn reads `bytes` from the client on `fd`. -/
inductive Hears (s : St) (i : Int) (fd : Fd) (bytes : List Byte) : Input → Prop
  | turn (e r : Mask) (a : Answers) :
      s.ctl = .scanning i → Client s i fd e r → Reads r → a.recv = .ok bytes → bytes ≠ [] →
      Hears s i fd bytes (.turn a)

/-- Every client but the one on slot `i` points at the buffer of `fd` and asks for POLLOUT. -/
structure Covered (s : St) (i : Int) (fd : Fd) (t : St) : Prop where
  others : ∀ k f e r, Client s k f e r → k ≠ i →
    (t.users.cell f).writeBuf = .buf fd ∧ ∃ e', Client t k f e' r ∧ has e' pollOut
  events : (t.fds.cell i).events = (s.fds.cell i).events
  pointer : (t.users.cell fd).writeBuf = (s.users.cell fd).writeBuf

def Covers (s : St) (a : Input) : Prop :=
  ∀ i fd bytes t, Hears s i fd bytes a → step .chatRoomServer s a = some t → Covered s i fd t

/-- Who asks for POLLOUT has been assigned a text since it was accepted. -/
def Requested (s : St) : Prop :=
  ∀ k fd e r, Client s k fd e r → has e pollOut →
    ∃ seg source, tenure Event.life fd s.log = some seg ∧ .assigned fd source ∈ seg

/-- What the broadcast is for, in every step and every state of a run. -/
def Coverage (steps : List (St × Input)) (s : St) : Prop :=
  (∀ p ∈ steps, Covers p.1 p.2 ∧ Requested p.1) ∧ Requested s

/-- Whoever is heard is the only client. -/
def Alone (s : St) (a : Input) : Prop := ∀ i fd bytes, Hears s i fd bytes a → s.userCounter = 1

/-- Nobody asks for POLLOUT. -/
def Quiet (s : St) : Prop := ∀ k fd e r, Client s k fd e r → ¬ has e pollOut

section Steps

variable {v : Program} {s t m : St} {i k : Int} {fd : Fd} {bytes : List Byte} {e r : Mask}

/-- The chain of a client that says something reaches the broadcast. -/
theorem body_heard {a : Answers} (inv : Inv s) (client : Client s i fd e r) (reads : Reads r)
    (answer : a.recv = .ok bytes) (some : bytes ≠ []) :
    body v s i a =
      (broadcast v i fd (((s.emit (.examined fd r)).filled fd bytes).emit
        (.received fd bytes))).map (St.next · i) := by
  obtain ⟨lo, hi, different, -⟩ := inv.sockets fd (client.open inv)
  have other : ¬ (fd = (s.emit (.examined fd r)).listenfd ∧ has r pollIn) :=
    fun h => different h.1
  obtain ⟨b, rest, rfl⟩ := List.exists_cons_of_ne_nil some
  simp only [body, client.get inv, Option.bind_eq_bind, Option.bind_some, dispatch, if_neg other,
    if_neg reads.2.2, if_neg reads.2.1, if_pos reads.1, readBranch, answer, fill_eq lo hi]
  rw [Option.map_eq_bind]
  rfl

theorem Hears.step {a : Input} (inv : Inv s) (hears : Hears s i fd bytes a)
    (run : step v s a = some t) : ∃ e r m, Client s i fd e r ∧ t = m.next i ∧ broadcast v i fd
      (((s.emit (.examined fd r)).filled fd bytes).emit (.received fd bytes)) = some m := by
  obtain ⟨e, r, a, ctl, client, reads, answer, some⟩ := hears
  have inside : i < s.userCounter + 1 := by
    have := client.upper
    omega
  rw [PollChat.step] at run
  simp only [ctl, if_pos inside, body_heard inv client reads answer some] at run
  obtain ⟨m, broadcasts, rfl⟩ := Option.map_eq_some_iff.mp run
  exact ⟨e, r, m, client, rfl, broadcasts⟩

/-- The loop edits no mask but the sender's. -/
theorem broadcast_slots (inv : Inv s) (client : Client s i fd e r)
    (run : broadcast .chatRoomServer i fd s = some m) :
    ∀ k, k ≠ i → m.fds.cell k = s.fds.cell k := by
  have lower := client.lower
  have upper := client.upper
  have limit := inv.counterLe
  obtain ⟨m', run', -, frame⟩ := forLoop_rule (broadcastRound i fd)
    (P := fun _ m => Spread s m ∧ ∀ k, k ≠ i → m.fds.cell k = s.fds.cell k)
    (s.userCounter - 1).toNat 1 s ⟨.refl s, fun _ _ => rfl⟩ (by
    rintro j m low high ⟨spread, frame⟩
    obtain ⟨f, e0, r0, listed⟩ := inv.client (k := j) low (by omega)
    obtain ⟨e1, cell, -⟩ := spread.slots j _ _ _ listed.slot
    obtain ⟨e2, edited, -⟩ := spread.slots i _ _ _ client.slot
    have get : m.fds.get j = some ⟨some f, some e1, some r0⟩ := by
      rw [CArray.get_eq_some _ (by omega) (by omega), cell]
    by_cases same : f = fd
    · exact ⟨m, by simp [broadcastRound, get, same], spread, frame⟩
    · obtain ⟨lo, hi, -⟩ := inv.sockets f (listed.open inv)
      refine ⟨_, ?_, spread.round f fd (~~~pollIn) pollOut lower upper edited, ?_⟩
      · simp [broadcastRound, get, same, raise_eq (by omega) (by omega) edited, pointTo_eq lo hi]
      · intro k other
        simpa [other] using frame k other)
  obtain rfl := Option.some.inj (run'.symm.trans run)
  exact frame

/-- A client that is alone broadcasts to nobody. -/
theorem broadcast_alone (alone : s.userCounter = 1)
    (run : broadcast .chatRoomServer i fd s = some m) : m = s := by
  simp only [broadcast, alone] at run
  exact (Option.some.inj run).symm

/-- As long as whoever is heard is alone, nobody comes to ask for POLLOUT. -/
theorem Quiet.turn {a : Answers} (inv : Inv s) (quiet : Quiet s)
    (turn : Turn .chatRoomServer s i a t)
    (alone : ∀ fd e r bytes, Client s i fd e r → Reads r → a.recv = .ok bytes → bytes ≠ [] →
      s.userCounter = 1) : Quiet t := by
  cases turn with
  | idle => exact fun k fd e r client => quiet k fd e r client.congr
  | refuse c addr _ _ => exact fun k fd e r client => quiet k fd e r client.congr
  | enroll c addr _ _ _ =>
    intro k fd e r client
    rcases client.of_enroll with old | ⟨-, rfl, -⟩
    · exact quiet k fd e r old
    · decide
  | hangup c lastFd e' r' _ _ client _ _ =>
    intro k fd e r stays
    obtain ⟨l, -, before⟩ := client.of_remove stays
    exact quiet l fd e r before
  | failed c lastFd e' r' _ _ errno client _ _ _ _ =>
    intro k fd e r stays
    obtain ⟨l, -, before⟩ := (client_filled.mpr client).of_remove stays
    exact quiet l fd e r before.congr
  | cleared c _ _ _ _ _ => exact fun k fd e r client => quiet k fd e r client.congr
  | heard c e' r' bytes m client reads answer some _ run =>
    obtain rfl := broadcast_alone (s := (s.filled c bytes).emit (.received c bytes))
      (alone c e' r' bytes client reads answer some) run
    exact fun k fd e r client => quiet k fd e r client.congr
  | nothing c _ _ _ _ _ => exact fun k fd e r client => quiet k fd e r client.congr
  | flushed c e' r' client writes _ =>
    exact absurd (client.out inv writes.1) (quiet i c e' r' client)

theorem Quiet.move {a : Input} (inv : Inv s) (quiet : Quiet s) (move : Move .chatRoomServer s a t)
    (alone : Alone s a) : Quiet t := by
  cases move with
  | polled revents t _ polled =>
    intro k fd e r client
    obtain ⟨r0, before, -⟩ := client.of_polled inv polled
    exact quiet k fd e r0 before
  | left => exact fun k fd e r client => quiet k fd e r client.congr
  | passed i a _ _ => exact fun k fd e r client => quiet k fd e r client.congr
  | turn i a fd e r t ctl _ _ _ _ turn =>
    refine Quiet.turn (inv.emit rfl) ?_ turn ?_
    · exact fun k fd e r client => quiet k fd e r client.congr
    · intro fd e r bytes client reads answer some
      exact alone i fd bytes ⟨e, r, a, ctl, client.congr, reads, answer, some⟩

/-- While nobody asks for POLLOUT, a broadcast covers the others exactly if there are none. -/
theorem Quiet.covers_iff {a : Input} (inv : Inv s) (quiet : Quiet s)
    (run : step .chatRoomServer s a = some t) : Covers s a ↔ Alone s a := by
  constructor
  · intro covers i fd bytes hears
    obtain ⟨e, r, m, client, rfl, broadcasts⟩ := hears.step inv run
    have covered := covers i fd bytes _ hears run
    have lower := client.lower
    have upper := client.upper
    by_contra several
    -- the client on another slot is not served
    obtain ⟨k, other, low, high⟩ : ∃ k, k ≠ i ∧ 1 ≤ k ∧ k ≤ s.userCounter := by
      by_cases first : i = 1
      · exact ⟨2, by omega, by omega, by omega⟩
      · exact ⟨1, by omega, by omega, by omega⟩
    obtain ⟨f, e0, r0, listed⟩ := inv.client low high
    obtain ⟨-, e', served, out⟩ := covered.others k f e0 r0 listed other
    have ready : Inv (((s.emit (.examined fd r)).filled fd bytes).emit (.received fd bytes)) :=
      ((inv.emit rfl).filled fd bytes).emit rfl
    have slot := broadcast_slots ready client.congr broadcasts k other
    have same : e' = e0 := by
      have slots := (served.slot.symm.trans slot).trans listed.slot
      simpa using slots
    exact quiet k f e0 r0 listed (same ▸ out)
  · intro alone i fd bytes t' hears run'
    obtain ⟨e, r, m, client, rfl, broadcasts⟩ := hears.step inv run'
    obtain rfl := broadcast_alone
      (s := ((s.emit (.examined fd r)).filled fd bytes).emit (.received fd bytes))
      (alone i fd bytes hears) broadcasts
    refine ⟨?_, rfl, CArray.put_field ClientData.writeBuf rfl⟩
    intro k f e0 r0 listed other
    have single := alone i fd bytes hears
    have := listed.lower
    have := listed.upper
    have := client.lower
    have := client.upper
    omega

end Steps

theorem Quiet.requested {s : St} (quiet : Quiet s) : Requested s :=
  fun k fd e r client out => absurd out (quiet k fd e r client)

/-- The broadcasts of a run do what they should exactly if each finds its client alone. -/
theorem coverage_iff {steps : List (St × Input)} {s : St}
    (h : (machine .chatRoomServer).Run steps s) :
    Coverage steps s ↔ ∀ p ∈ steps, Alone p.1 p.2 := by
  suffices covered : ((∀ p ∈ steps, Covers p.1 p.2) ↔ ∀ p ∈ steps, Alone p.1 p.2) ∧
      ((∀ p ∈ steps, Alone p.1 p.2) → Quiet s ∧ ∀ p ∈ steps, Quiet p.1) by
    constructor
    · exact fun coverage => covered.1.mp fun p mem => (coverage.1 p mem).1
    · intro alone
      obtain ⟨last, quiet⟩ := covered.2 alone
      exact ⟨fun p mem => ⟨covered.1.mpr alone p mem, (quiet p mem).requested⟩, last.requested⟩
  apply h.invariant (I := fun steps s => ((∀ p ∈ steps, Covers p.1 p.2) ↔
    ∀ p ∈ steps, Alone p.1 p.2) ∧
      ((∀ p ∈ steps, Alone p.1 p.2) → Quiet s ∧ ∀ p ∈ steps, Quiet p.1))
  · rintro s ⟨listenfd, files, memory, -, -, rfl⟩
    refine ⟨by simp, fun _ => ⟨fun k fd e r client => ?_, by simp⟩⟩
    have lower := client.lower
    have upper : k ≤ 0 := client.upper
    omega
  · rintro steps s a t past ⟨same, quiet⟩ lawful run
    have inv := reachable_inv past.reachable
    simp only [List.forall_mem_append, List.forall_mem_singleton]
    constructor
    · rw [same]
      exact and_congr_right fun alone => (quiet alone).1.covers_iff inv run
    · rintro ⟨alone, last⟩
      obtain ⟨now, before⟩ := quiet alone
      exact ⟨now.move inv (reachable_move past.reachable lawful run) last, before, now⟩

/-- The client on 5 says "hi" before the client on 6 connects. -/
def monologue : St :=
  ((machine .chatRoomServer).replay (boot .chatRoomServer)
    [reports [pollIn], acceptTurn 5, idleTurn, idleTurn, reports [0, pollIn], idleTurn,
      recvTurn [104, 105], idleTurn, reports [pollIn], acceptTurn 6]).getD (boot .chatRoomServer)

theorem coverage_iff_monologue : Event.received 5 [104, 105] ∈ monologue.log ∧
    ∃ steps, (machine .chatRoomServer).Run steps monologue ∧
      (Coverage steps monologue ↔ ∀ p ∈ steps, Alone p.1 p.2) := by
  obtain ⟨steps, run⟩ := (boot_reachable .chatRoomServer).replay_getD _
  exact ⟨by decide +kernel, steps, run, coverage_iff run⟩

/-- The client on 6 has said "hi" while the client on 5 is connected. -/
def announcing : St :=
  ((machine .chatRoomServer).replay (joined .chatRoomServer)
    [reports [0, 0, pollIn], idleTurn, idleTurn]).getD (joined .chatRoomServer)

def announced : St :=
  (step .chatRoomServer announcing (recvTurn [104, 105])).getD announcing

/-- Slot 2 is made to ask for POLLOUT in the place of slot 1, though nothing is pending for 6. -/
theorem not_covers : (machine .chatRoomServer).Reachable announcing ∧
    Lawful announcing (recvTurn [104, 105]) ∧ ¬ Covers announcing (recvTurn [104, 105]) ∧
    (machine .chatRoomServer).Reachable announced ∧ ¬ Requested announced := by
  have reach : (machine .chatRoomServer).Reachable announcing :=
    (joined_reachable .chatRoomServer).replay_getD _
  have lawful : Lawful announcing (recvTurn [104, 105]) := by decide +kernel
  obtain ⟨t, run, -⟩ := step_move (reachable_inv reach) .chatRoomServer lawful
  have same : announced = t := by
    rw [announced, run]
    rfl
  subst same
  refine ⟨reach, lawful, ?_, reach.step (a := recvTurn [104, 105]) lawful run, ?_⟩
  · intro covers
    have speaker : Client announcing 2 6 (pollIn ||| pollRdhup ||| pollErr) pollIn :=
      ⟨by decide, by decide +kernel, by decide +kernel⟩
    have listener : Client announcing 1 5 (pollIn ||| pollRdhup ||| pollErr) 0 :=
      ⟨by decide, by decide +kernel, by decide +kernel⟩
    have slot : announced.fds.cell 1 =
        ⟨some 5, some (pollIn ||| pollRdhup ||| pollErr), some 0⟩ := by decide +kernel
    have covered := covers 2 6 [104, 105] announced
      ⟨_, _, _, by decide +kernel, speaker, by decide, rfl, by decide⟩ run
    obtain ⟨-, e, served, out⟩ := covered.others 1 5 _ _ listener (by decide)
    obtain ⟨-, rfl, -⟩ := served.same ⟨served.lower, served.upper, slot⟩
    exact not_out_initial out
  · intro requested
    have asks : Client announced 2 6
        (pollIn ||| pollRdhup ||| pollErr ||| ~~~pollIn ||| pollOut) pollIn :=
      ⟨by decide, by decide +kernel, by decide +kernel⟩
    have unassigned : ((tenure Event.life 6 announced.log).all fun seg =>
        seg.all fun e => !writesPending 6 e) = true := by decide +kernel
    obtain ⟨seg, source, on, mem⟩ := requested 2 6 _ _ asks (by decide)
    rw [on] at unassigned
    exact absurd (List.all_eq_true.mp unassigned _ mem) (by simp [writesPending])

end JiajiaNetwork.PollChat
