/- A pass of `test_poll.c` in which there is nothing to read. Each slot that asks for POLLOUT comes
   to the POLLOUT branch, so behind the pass every mailbox of the room is empty, provided the run
   was calm before: no pending text was disturbed, and no zero byte was said to others. -/
import JiajiaNetwork.PollChat.Pass
import JiajiaNetwork.PollChat.Room

set_option autoImplicit false
set_option relaxedAutoImplicit false

namespace JiajiaNetwork.PollChat

open Lib

/-- A result for the mask `e` that leads to the POLLOUT branch if `e` asks for it, else to none. -/
structure WritesOnly (e r : Mask) : Prop where
  unread : ¬ has r pollIn
  on : ¬ has r pollRdhup
  sound : ¬ has r pollErr
  writable : has e pollOut → has r pollOut

/-- Nobody connects, hangs up or has sent anything, and everybody can be sent something. -/
structure NothingToRead (s : St) (revents : Int → Mask) : Prop where
  listener : ¬ has (revents 0) pollIn
  clients : ∀ k fd e r, Client s k fd e r → WritesOnly e (revents k)

/-- The slots before the next one. -/
def Control.passed : Control → Int → Prop
  | .scanning i, k => k < i
  | .polling, _ | .left, _ => True

/-- The state of such a pass that started with the room of `s`. -/
structure Flushing (s u : St) : Prop where
  reachable : ((machine .testPoll).guard Calm).Reachable u
  delivers : (roomOf s).Delivers (roomOf u)
  listener : ∀ e r, u.fds.cell 0 = ⟨some u.listenfd, e, some r⟩ → ¬ has r pollIn
  clients : ∀ k fd e r, Client u k fd e r → WritesOnly e r
  served : ∀ k fd e r, Client u k fd e r → u.ctl.passed k → ¬ Awaits u fd e

section Turns

variable {s t u : St} {i : Int} {a : Answers} {fd : Fd} {e r : Mask}

theorem writeBranch_eq (inv : Inv s) (client : Client s i fd e r) :
    writeBranch s i fd a = some
      (if (s.users.cell fd).writeBuf = .null then (s.emit (.readPending fd .null)).next i
      else s.flush i fd e r ((s.stringAt (s.users.cell fd).writeBuf).getD a.strayText)) := by
  have lower := client.lower
  have upper := client.upper
  have limit := inv.counterLe
  obtain ⟨lo, hi, -⟩ := inv.sockets fd (client.open inv)
  split_ifs with pending
  · simp [writeBranch, CArray.get_eq_some _ lo hi, pending]
  · have put : ∀ p, s.fds.set i p = some (s.fds.put i p) :=
      fun p => CArray.set_eq_some _ _ (by omega) (by omega)
    simp [writeBranch, CArray.get_eq_some _ lo hi, pending, CArray.set_eq_some _ _ lo hi,
      St.raise, client.get inv, put, St.flush, St.emit, St.next, St.stringAt]

/-- The turn of a client with such a result. -/
theorem body_writesOnly (inv : Inv s) (client : Client s i fd e r) (only : WritesOnly e r) :
    body .testPoll s i a = if has r pollOut then writeBranch (s.emit (.examined fd r)) i fd a
      else some ((s.emit (.examined fd r)).next i) := by
  have other : ¬ (fd = (s.emit (.examined fd r)).listenfd ∧ has r pollIn) :=
    fun h => only.unread h.2
  simp only [body, client.get inv, Option.bind_eq_bind, Option.bind_some, dispatch, if_neg other,
    if_neg only.unread, if_neg only.on, if_neg only.sound]

/-- The turn of a listening socket for which nobody waits. -/
theorem body_head (inv : Inv s) (slot : s.fds.cell 0 = ⟨some s.listenfd, some e, some r⟩)
    (quiet : ¬ has r pollIn) :
    body .testPoll s 0 a = some ((s.emit (.examined s.listenfd r)).next 0) := by
  obtain ⟨e', r', slot', out, rdhup⟩ := inv.listener
  obtain ⟨-, rfl⟩ : e' = e ∧ r' = r := by simpa using slot'.symm.trans slot
  have get : s.fds.get 0 = some ⟨some s.listenfd, some e, some r'⟩ := by
    rw [CArray.get_eq_some _ le_rfl (by decide), slot]
  have none : ¬ (s.listenfd = (s.emit (.examined s.listenfd r')).listenfd ∧ has r' pollIn) :=
    fun h => quiet h.2
  simp only [body, get, Option.bind_eq_bind, Option.bind_some, dispatch, if_neg none, if_neg quiet,
    if_neg out, if_neg rdhup, ite_self]

theorem silent_examined (f : Fd) : Silent f (.examined fd r) := ⟨apart_of_neither rfl, rfl, rfl⟩

/-- A turn that changes neither slots nor entries, at a slot whose client waits for nothing. -/
theorem Flushing.same (h : Flushing s u) (ctl : u.ctl = .scanning i)
    (reach : ((machine .testPoll).guard Calm).Reachable t) (next : t.ctl = .scanning (i + 1))
    (new : List Event) (log : t.log = u.log ++ new) (silent : ∀ f, ∀ x ∈ new, Silent f x)
    (here : ∀ fd e r, Client u i fd e r → ¬ Awaits u fd e) (slots : t.fds = u.fds := by rfl)
    (counter : t.userCounter = u.userCounter := by rfl) (users : t.users = u.users := by rfl)
    (listenfd : t.listenfd = u.listenfd := by rfl) : Flushing s t where
  reachable := reach
  delivers := by
    rw [roomOf_silent new log silent]
    exact h.delivers
  listener e r slot := h.listener e r (slots ▸ listenfd ▸ slot)
  clients k fd e r client := h.clients k fd e r (client.congr slots.symm counter.symm)
  served k fd e r client behind := by
    have before : Client u k fd e r := client.congr slots.symm counter.symm
    rw [next] at behind
    have unmoved : Awaits t fd e ↔ Awaits u fd e := by rw [Awaits, users, Awaits]
    rw [unmoved]
    by_cases at_ : k = i
    · subst at_
      exact here fd e r before
    · apply h.served k fd e r before
      rw [ctl]
      have le : k < i + 1 := behind
      show k < i
      omega

theorem Flushing.flush (h : Flushing s u) (ctl : u.ctl = .scanning i) (client : Client u i fd e r)
    (writes : Writes r) (pending : (u.users.cell fd).writeBuf ≠ .null) (stray : List Byte)
    (reach : ((machine .testPoll).guard Calm).Reachable ((u.emit (.examined fd r)).flush i fd e r
      ((u.stringAt (u.users.cell fd).writeBuf).getD stray))) :
    Flushing s ((u.emit (.examined fd r)).flush i fd e r
      ((u.stringAt (u.users.cell fd).writeBuf).getD stray)) := by
  have inv := reachable_inv h.reachable.of_guard
  have ledger := reachable_ledger h.reachable
  have examined : roomOf (u.emit (.examined fd r)) = roomOf u :=
    roomOf_silent [.examined fd r] rfl fun f x hx => by
      obtain rfl := List.mem_singleton.mp hx
      exact silent_examined f
  have lower := client.lower
  constructor
  case reachable => exact reach
  case delivers =>
    obtain ⟨text, waits, after⟩ := roomOf_flush (s := u.emit (.examined fd r)) stray (inv.emit rfl)
      (ledger.emit silent_examined) client.congr writes pending
    rw [examined] at waits after
    have one : (roomOf u).Delivers ((roomOf u).deliver fd text []) := Room.deliver_delivers waits
    exact h.delivers.trans (after ▸ one)
  case listener =>
    intro e' r' slot
    have apart : (0 : Int) ≠ i := by omega
    exact h.listener e' r' (by simpa [St.emit, apart] using slot)
  case clients =>
    intro k f e' r' after
    rcases Client.of_flush client.congr after with ⟨-, -, -, rfl⟩ | ⟨-, before⟩
    · exact ⟨writes.2.1, writes.2.2.1, writes.2.2.2, fun _ => writes.1⟩
    · exact h.clients k f e' r' before.congr
  case served =>
    intro k f e' r' after behind
    have le : k < i + 1 := behind
    rcases Client.of_flush client.congr after with ⟨-, rfl, -, -⟩ | ⟨apart, before⟩
    · exact fun awaits => awaits.2 (by simp)
    · have old : Client u k f e' r' := before.congr
      have other := old.ne inv client apart
      have unmoved := h.served k f e' r' old (by rw [ctl]; show k < i; omega)
      intro awaits
      exact unmoved ⟨awaits.1, by simpa [St.emit, other] using awaits.2⟩

/-- The turn of a client, which is served if it waits. -/
theorem Flushing.client (h : Flushing s u) (ctl : u.ctl = .scanning i)
    (client : Client u i fd e r) (reach : ((machine .testPoll).guard Calm).Reachable t)
    (run : body .testPoll u i a = some t) : Flushing s t := by
  have inv := reachable_inv h.reachable.of_guard
  have only := h.clients i fd e r client
  rw [body_writesOnly inv client only] at run
  split_ifs at run with out
  · rw [writeBranch_eq (inv.emit rfl) client.congr] at run
    obtain rfl := Option.some.inj run
    split_ifs at reach ⊢ with pending
    · refine h.same ctl reach rfl [.examined fd r, .readPending fd .null]
        (by simp [St.next, St.emit]) ?_ ?_
      · intro f x hx
        simp only [List.mem_cons, List.not_mem_nil, or_false] at hx
        rcases hx with rfl | rfl
        · exact silent_examined f
        · exact ⟨apart_of_neither rfl, rfl, rfl⟩
      · intro fd' e' r' also awaits
        obtain ⟨rfl, rfl, rfl⟩ := client.same also
        exact awaits.2 pending
    · exact h.flush ctl client ⟨out, only.unread, only.on, only.sound⟩ pending a.strayText reach
  · obtain rfl := Option.some.inj run
    refine h.same ctl reach rfl [.examined fd r] rfl ?_ ?_
    · intro f x hx
      obtain rfl := List.mem_singleton.mp hx
      exact silent_examined f
    · intro fd' e' r' also awaits
      obtain ⟨rfl, rfl, rfl⟩ := client.same also
      exact out (only.writable awaits.1)

theorem Flushing.turn (h : Flushing s u) (lawful : Lawful u (.turn a))
    (run : step .testPoll u (.turn a) = some t) : Flushing s t := by
  have inv := reachable_inv h.reachable.of_guard
  have calm : Calm u (.turn a) := fun i _ fd e r client =>
    have only := h.clients i fd e r client
    ⟨fun hangs => absurd hangs.1 only.on, fun reads => absurd reads.1 only.unread⟩
  have allowed : ((machine .testPoll).guard Calm).Lawful u (.turn a) := ⟨lawful, calm⟩
  have reach : ((machine .testPoll).guard Calm).Reachable t := h.reachable.step allowed run
  cases ctl : u.ctl with
  | polling => simp [Lawful, ctl, Control.isScanning] at lawful
  | left => simp [Lawful, ctl, Control.isScanning] at lawful
  | scanning i =>
    have lower := inv.index i ctl
    by_cases inside : i < u.userCounter + 1
    · have turns : body .testPoll u i a = some t := by
        simpa [step, ctl, inside] using run
      by_cases head : i = 0
      · subst head
        obtain ⟨e, r, slot, -, -⟩ := inv.listener
        rw [body_head inv slot (h.listener e r slot)] at turns
        obtain rfl := Option.some.inj turns
        refine h.same ctl reach rfl [.examined u.listenfd r] rfl ?_ ?_
        · intro f x hx
          obtain rfl := List.mem_singleton.mp hx
          exact silent_examined f
        · intro fd e r client
          have first := client.lower
          omega
      · obtain ⟨fd, e, r, client⟩ := inv.client (k := i) (by omega) (by omega)
        exact h.client ctl client reach turns
    · obtain rfl : { u with ctl := .polling } = t := by
        simpa [step, ctl, inside] using run
      refine ⟨reach, h.delivers, h.listener, fun k fd e r client => h.clients k fd e r client.congr,
        fun k fd e r client _ => ?_⟩
      have upper : k ≤ u.userCounter := client.upper
      exact h.served k fd e r client.congr (by rw [ctl]; show k < i; omega)

theorem Flushing.polled {revents : Int → Mask}
    (h : ((machine .testPoll).guard Calm).Reachable s) (idle : NothingToRead s revents)
    (reach : ((machine .testPoll).guard Calm).Reachable t) (polled : Polled s revents t) :
    Flushing s t := by
  have inv := reachable_inv h.of_guard
  constructor
  case reachable => exact reach
  case delivers =>
    rw [roomOf_congr polled.log]
    exact .refl _
  case listener =>
    intro e r slot
    obtain ⟨e0, r0, before, -⟩ := inv.listener
    have after := polled.slots 0 _ e0 _ le_rfl inv.counterNonneg before
    rw [after] at slot
    obtain ⟨-, -, rfl⟩ : s.listenfd = t.listenfd ∧ some e0 = e ∧ revents 0 = r := by
      simpa using slot
    exact idle.listener
  case clients =>
    intro k fd e r client
    obtain ⟨r0, before, rfl⟩ := client.of_polled inv polled
    exact idle.clients k fd e r0 before
  case served =>
    intro k fd e r client behind
    rw [polled.ctl] at behind
    have before : k < 0 := behind
    have first := client.lower
    omega

/-- Behind the pass nobody waits. -/
theorem Flushing.mailbox (h : Flushing s u) (ended : u.ctl = .polling) (fd : Fd) :
    (roomOf u).mailbox fd = [] := by
  by_cases member : fd ∈ live Event.life u.log
  · obtain ⟨k, e, r, client⟩ :=
      (reachable_inv h.reachable.of_guard).exists_client member
    have served := h.served k fd e r client (by rw [ended]; trivial)
    obtain ⟨seg, on, balance⟩ := (reachable_ledger h.reachable k fd e r client).served served
    obtain rfl := Option.some.inj (on.symm.trans (tenureOf_member member))
    simp [roomOf, balance]
  · exact (view_outsider member).1

end Turns

/-- When `poll` finds nothing to read and everybody writable, the pass that follows delivers all
that is in the mailboxes of the room, whatever was going on before in a calm run. -/
theorem quiet_pass_delivers {s t u : St} {revents : Int → Mask} {steps : List (St × Answers)}
    (h : ((machine .testPoll).guard Calm).Reachable s)
    (lawful : (machine .testPoll).Lawful s (.poll revents)) (idle : NothingToRead s revents)
    (returns : (machine .testPoll).step s (.poll revents) = some t)
    (run : (pass .testPoll t).Run steps u) (ended : u.ctl = .polling) :
    (roomOf u).members = (roomOf s).members ∧ ∀ fd, (roomOf u).mailbox fd = [] ∧
      (roomOf u).told fd = (roomOf s).told fd ++ (roomOf s).mailbox fd := by
  have reach : ((machine .testPoll).guard Calm).Reachable t :=
    h.step (a := .poll revents) ⟨lawful, trivial⟩ returns
  have polled : Polled s revents t := by
    cases reachable_move h.of_guard lawful returns with
    | polled _ _ _ polled => exact polled
  have flushing : Flushing s u := by
    apply run.invariant (I := fun _ u => Flushing s u)
    · rintro _ rfl
      exact .polled h idle reach polled
    · exact fun _ u a v _ flushing lawful run => flushing.turn lawful run
  refine ⟨flushing.delivers.members, fun fd => ?_⟩
  have empty := flushing.mailbox ended fd
  have order := flushing.delivers.order fd
  rw [empty, List.append_nil] at order
  exact ⟨empty, order⟩

/-! The client on 5 has said "hi", which waits for the one on 6. -/

def waiting : St := (((machine .testPoll).guard Calm).replay (boot .testPoll)
  (joins ++ [reports [0, pollIn, 0], idleTurn, recvTurn [104, 105], idleTurn, idleTurn])).getD
    (boot .testPoll)

theorem waiting_reachable : ((machine .testPoll).guard Calm).Reachable waiting := by
  have start : ((machine .testPoll).guard Calm).Reachable (boot .testPoll) :=
    .start ⟨3, {0, 1, 2, 3}, _, by simp, by simp, rfl⟩
  exact start.replay_getD _

instance (e r : Mask) : Decidable (WritesOnly e r) :=
  decidable_of_iff (¬ has r pollIn ∧ ¬ has r pollRdhup ∧ ¬ has r pollErr ∧
    (has e pollOut → has r pollOut))
    ⟨fun ⟨unread, on, sound, writable⟩ => ⟨unread, on, sound, writable⟩,
      fun h => ⟨h.unread, h.on, h.sound, h.writable⟩⟩

/-- What `poll` returns to the second client. -/
def writable : Int → Mask := fun k => [0, 0, pollOut].getD k.toNat 0

def delivering : St := (step .testPoll waiting (.poll writable)).getD waiting

def delivered : St := ((pass .testPoll delivering).replay delivering
  (List.replicate 4 ⟨none, .error eagain, []⟩)).getD delivering

theorem quiet_pass_delivers_waiting : (roomOf waiting).mailbox 6 = [[104, 105]] ∧
    (roomOf delivered).told 6 = (roomOf waiting).told 6 ++ (roomOf waiting).mailbox 6 := by
  have lawful : Lawful waiting (.poll writable) := by
    refine ⟨by decide +kernel, ?_⟩
    decide +kernel
  have idle : NothingToRead waiting writable := ⟨by decide, by decide +kernel⟩
  obtain ⟨t, run, -⟩ := step_move (reachable_inv waiting_reachable.of_guard) .testPoll lawful
  have same : delivering = t := by
    rw [delivering, run]
    rfl
  subst same
  have start : (pass .testPoll delivering).Reachable delivering := .start rfl
  obtain ⟨steps, turns⟩ : (pass .testPoll delivering).Reachable delivered := start.replay_getD _
  have ended : delivered.ctl = .polling := by decide +kernel
  have delivers := quiet_pass_delivers waiting_reachable lawful idle run turns ended
  exact ⟨by decide +kernel, (delivers.2 6).2⟩

end JiajiaNetwork.PollChat
