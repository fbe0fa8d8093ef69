/- Departures in `test_poll.c`. A removal copies the entry of the last slot's client over the
   leaver's, so it changes the text that another client's pending pointer designates exactly
   when the leaver is not last, is pointed at, and the two buffers hold different texts. -/
import JiajiaNetwork.PollChat.Pending

set_option autoImplicit false
set_option relaxedAutoImplicit false

namespace JiajiaNetwork.PollChat

open Lib

/-- The turn at slot `i` removes the client on `fd`. The last component is the state in which
the removal statements start, behind `memset` and `recv` where these were called. -/
inductive Removes (s : St) (i : Int) (a : Answers) (fd lastFd : Fd) : St → Prop
  | hangup (e r e' r' : Mask) :
      Client s i fd e r → HangsUp r → Client s s.userCounter lastFd e' r' →
      Removes s i a fd lastFd (s.emit (.examined fd r))
  | failed (e r e' r' : Mask) (errno : Errno) :
      Client s i fd e r → Reads r → a.recv = .error errno → errno ≠ eagain →
      Client s s.userCounter lastFd e' r' →
      Removes s i a fd lastFd ((s.emit (.examined fd r)).filled fd [])

/-- Every client but the one on slot `i` keeps its slot contents, its entry of `users` and the
text its pending pointer designates. -/
def Undisturbed (s t : St) (i : Int) : Prop :=
  ∀ k fd e r, Client s k fd e r → k ≠ i →
    (∃ l, Client t l fd e r) ∧ t.users.cell fd = s.users.cell fd ∧
    t.stringAt (t.users.cell fd).writeBuf = s.stringAt (s.users.cell fd).writeBuf

/-- The leaver holds the last slot, or no other client's pointer designates its buffer, or its
buffer and the last client's hold the same text. -/
def Harmless (s : St) (i : Int) (fd lastFd : Fd) : Prop :=
  i = s.userCounter ∨
  (∀ k f e r, Client s k f e r → k ≠ i → (s.users.cell f).writeBuf ≠ .buf fd) ∨
  cString (s.users.cell fd).buf = cString (s.users.cell lastFd).buf

section Removal

variable {v : Program} {s : St} {i : Int} {a : Answers} {fd lastFd : Fd} {e r e' r' : Mask}

theorem Client.last (h : Client s s.userCounter fd e r) (h' : Client s s.userCounter lastFd e' r') :
    fd = lastFd := (h.same h').1

/-- The chain of a client that hung up reaches the removal. -/
theorem body_hangup (inv : Inv s) (client : Client s i fd e r) (hangs : HangsUp r)
    (last : Client s s.userCounter lastFd e' r') :
    body v s i a = some ((s.emit (.examined fd r)).remove i fd lastFd
      [.copied fd lastFd, .closed fd]) := by
  have examined : Client (s.emit (.examined fd r)) i fd e r := client.congr
  obtain ⟨lastFd', e1, r1, last', run⟩ := removeHungUp_eq (inv.emit rfl) examined
  have same : lastFd' = lastFd :=
    Client.last (s := s) last'.congr last
  have other : ¬ (fd = (s.emit (.examined fd r)).listenfd ∧ has r pollIn) :=
    fun h => (inv.sockets fd (client.open inv)).2.2.1 h.1
  simp only [body, client.get inv, Option.bind_eq_bind, Option.bind_some, dispatch, if_neg other,
    if_neg hangs.2, if_pos hangs.1]
  rw [run, same]

/-- The chain of a client whose `recv` failed reaches the removal. -/
theorem body_failed {errno : Errno} (inv : Inv s) (client : Client s i fd e r) (reads : Reads r)
    (answer : a.recv = .error errno) (fatal : errno ≠ eagain)
    (last : Client s s.userCounter lastFd e' r') :
    body v s i a = some (((s.emit (.examined fd r)).filled fd []).remove i fd lastFd
      [.closed fd, .copied fd lastFd]) := by
  obtain ⟨lo, hi, different, -⟩ := inv.sockets fd (client.open inv)
  have examined : Client ((s.emit (.examined fd r)).filled fd []) i fd e r := client.congr
  obtain ⟨lastFd', e1, r1, last', run⟩ :=
    removeFailed_eq ((inv.emit rfl).filled fd []) examined
  have same : lastFd' = lastFd :=
    Client.last (s := s) last'.congr last
  have other : ¬ (fd = (s.emit (.examined fd r)).listenfd ∧ has r pollIn) :=
    fun h => different h.1
  simp only [body, client.get inv, Option.bind_eq_bind, Option.bind_some, dispatch, if_neg other,
    if_neg reads.2.2, if_neg reads.2.1, if_pos reads.1, readBranch, answer, fill_eq lo hi,
    if_neg fatal]
  rw [run, same]

/-- Either way the turn ends in the removal of slot `i` from the state in between. -/
theorem Removes.step {m t : St} (inv : Inv s) (ctl : s.ctl = .scanning i)
    (h : Removes s i a fd lastFd m) (run : step v s (.turn a) = some t) :
    Inv m ∧ m.userCounter = s.userCounter ∧ (∃ e r, Client m i fd e r) ∧
      (∃ e r, Client m m.userCounter lastFd e r) ∧
      ∃ tail, RemovalLog fd lastFd tail ∧ t = m.remove i fd lastFd tail := by
  cases h with
  | hangup e r e' r' client hangs last =>
    have inside : i < s.userCounter + 1 := by
      have := client.upper
      omega
    simp only [PollChat.step, ctl, if_pos inside, body_hangup inv client hangs last,
      Option.some.injEq] at run
    exact ⟨inv.emit rfl, rfl, ⟨e, r, client.congr⟩,
      ⟨e', r', last.congr⟩, _, .hangup, run.symm⟩
  | failed e r e' r' errno client reads answer fatal last =>
    have inside : i < s.userCounter + 1 := by
      have := client.upper
      omega
    simp only [PollChat.step, ctl, if_pos inside,
      body_failed inv client reads answer fatal last, Option.some.injEq] at run
    exact ⟨(inv.emit rfl).filled fd [], rfl, ⟨e, r, client.congr⟩,
      ⟨e', r', last.congr⟩, _, .failed, run.symm⟩

/-- Only a pointer to the leaver's buffer can see the copied entry. -/
theorem stringAt_remove {tail : List Event} {p : WriteBuf} :
    (s.remove i fd lastFd tail).stringAt p =
      if p = .buf fd then cString (s.users.cell lastFd).buf else s.stringAt p := by
  cases p with
  | buf owner =>
    by_cases same : owner = fd
    · subst same
      simp [St.stringAt]
    · simp [St.stringAt, same]
  | null => simp [St.stringAt]
  | stray address => simp [St.stringAt]

theorem undisturbed_remove_iff {tail : List Event} (inv : Inv s) (client : Client s i fd e r)
    (last : Client s s.userCounter lastFd e' r') :
    Undisturbed s (s.remove i fd lastFd tail) i ↔ Harmless s i fd lastFd := by
  have entry : ∀ {k f e r}, Client s k f e r → k ≠ i →
      (s.remove i fd lastFd tail).users.cell f = s.users.cell f := by
    intro k f e0 r0 stays other
    simp [stays.ne inv client other]
  constructor
  · intro frame
    by_cases final : i = s.userCounter
    · exact .inl final
    by_cases pointed : ∃ k f e r, Client s k f e r ∧ k ≠ i ∧ (s.users.cell f).writeBuf = .buf fd
    · obtain ⟨k, f, e0, r0, stays, other, pointer⟩ := pointed
      obtain ⟨-, -, text⟩ := frame k f e0 r0 stays other
      rw [entry stays other, pointer, stringAt_remove, if_pos rfl] at text
      exact .inr (.inr text.symm)
    · refine .inr (.inl fun k f e0 r0 stays other pointer => ?_)
      exact pointed ⟨k, f, e0, r0, stays, other, pointer⟩
  · intro harmless k f e0 r0 stays other
    refine ⟨Client.to_remove client stays other, entry stays other, ?_⟩
    rw [entry stays other, stringAt_remove]
    split_ifs with pointer
    · have designated : s.stringAt (s.users.cell f).writeBuf = cString (s.users.cell fd).buf := by
        rw [pointer, St.stringAt]
      rw [designated]
      rcases harmless with final | unpointed | texts
      · subst final
        rw [client.last last]
      · exact absurd pointer (unpointed k f e0 r0 stays other)
      · exact texts.symm
    · rfl

end Removal

/-- A removal out of a reachable state leaves the others undisturbed if and only if it is
harmless in the state in which the removal statements start. -/
theorem departure_undisturbed_iff (s m t : St) (i : Int) (a : Answers) (fd lastFd : Fd)
    (h : (machine .testPoll).Reachable s) (ctl : s.ctl = .scanning i)
    (removes : Removes s i a fd lastFd m) (run : step .testPoll s (.turn a) = some t) :
    Undisturbed m t i ↔ Harmless m i fd lastFd := by
  obtain ⟨inv, -, ⟨e, r, client⟩, ⟨e', r', last⟩, tail, -, rfl⟩ :=
    removes.step (reachable_inv h) ctl run
  exact undisturbed_remove_iff inv client last

/-! The client on 5 has spoken and leaves before the client on 6 was served. -/

def speech : List Input :=
  [reports [0, pollIn, 0], idleTurn, recvTurn [104, 105], idleTurn, idleTurn,
    reports [0, pollRdhup, 0], idleTurn]

def leaving : St := ((machine .testPoll).replay (joined .testPoll) speech).getD (joined .testPoll)

theorem leaving_reachable : (machine .testPoll).Reachable leaving :=
  (joined_reachable .testPoll).replay_getD speech

def quiet : Answers := ⟨none, .error eagain, []⟩

def afterLeaving : St := (step .testPoll leaving (.turn quiet)).getD leaving

private theorem leaving_removes :
    Removes leaving 1 quiet 5 6 (leaving.emit (.examined 5 pollRdhup)) :=
  .hangup (pollIn ||| pollRdhup ||| pollErr) pollRdhup (raised (pollIn ||| pollRdhup ||| pollErr)) 0
    ⟨by decide, by decide +kernel, by decide +kernel⟩ ⟨by decide, by decide⟩
    ⟨by decide +kernel, by decide +kernel, by decide +kernel⟩

private theorem leaving_step : step .testPoll leaving (.turn quiet) = some afterLeaving := by
  have ran : (step .testPoll leaving (.turn quiet)).isSome = true := by decide +kernel
  obtain ⟨t, run⟩ := Option.isSome_iff_exists.mp ran
  rw [afterLeaving, run]
  rfl

theorem departure_undisturbed_iff_leaving :
    Undisturbed (leaving.emit (.examined 5 pollRdhup)) afterLeaving 1 ↔
      Harmless (leaving.emit (.examined 5 pollRdhup)) 1 5 6 :=
  departure_undisturbed_iff leaving _ afterLeaving 1 quiet 5 6 leaving_reachable
    (by decide +kernel) leaving_removes leaving_step

/-- The text waiting for the client on 6 is gone once the client on 5 has left. -/
theorem departure_disturbs : ∃ s m t i a fd lastFd, (machine .testPoll).Reachable s ∧
    s.ctl = .scanning i ∧ Removes s i a fd lastFd m ∧ step .testPoll s (.turn a) = some t ∧
    ¬ Undisturbed m t i := by
  refine ⟨leaving, _, afterLeaving, 1, quiet, 5, 6, leaving_reachable, by decide +kernel,
    leaving_removes, leaving_step, fun frame => ?_⟩
  have client : Client (leaving.emit (.examined 5 pollRdhup)) 2 6
      (raised (pollIn ||| pollRdhup ||| pollErr)) 0 :=
    ⟨by decide, by decide +kernel, by decide +kernel⟩
  obtain ⟨-, -, text⟩ := frame 2 6 _ _ client (by decide)
  exact absurd text (by decide +kernel)

end JiajiaNetwork.PollChat
