/- What `test_poll.c` is for: a room in which everybody hears everybody else. As long as nothing
   disturbs a pending text, and nobody says a zero byte to others, each turn of the server is one
   act of such a room or none, although the server has one pointer for each client where the room
   has a mailbox. -/
import JiajiaNetwork.Lib.Room
import JiajiaNetwork.PollChat.Delivery

set_option autoImplicit false
set_option relaxedAutoImplicit false

namespace JiajiaNetwork.PollChat

open Lib

/-- What happened on the connection of `fd` since it was accepted, when it is on. -/
def tenureOf (s : St) (fd : Fd) : List Event := (tenure Event.life fd s.log).getD []

/-- The room of a state: a client's mailbox holds what it has heard and was not yet sent. -/
def roomOf (s : St) : Room Fd (List Byte) where
  members := live Event.life s.log
  mailbox fd := (heard fd (tenureOf s fd)).drop (sentTo fd (tenureOf s fd)).length
  told fd := sentTo fd (tenureOf s fd)

section Views

variable {s t : St} {fd : Fd} {new : List Event}

theorem tenureOf_outsider (outside : fd ∉ live Event.life s.log) : tenureOf s fd = [] := by
  have none : tenure Event.life fd s.log = none := by
    rw [← Option.not_isSome_iff_eq_none, tenure_isSome]
    exact outside
  rw [tenureOf, none, Option.getD_none]

theorem tenureOf_member (member : fd ∈ live Event.life s.log) :
    tenure Event.life fd s.log = some (tenureOf s fd) := by
  obtain ⟨seg, on⟩ := Option.isSome_iff_exists.mp (tenure_isSome.mpr member)
  rw [tenureOf, on, Option.getD_some]

/-- Events about others add nothing, and events about nobody's membership add to the tenure. -/
theorem tenureOf_append (log : t.log = s.log ++ new) (member : fd ∈ live Event.life s.log)
    (apart : ∀ e ∈ new, Apart Event.life fd e) : tenureOf t fd = tenureOf s fd ++ new := by
  rw [tenureOf, log, tenure_append (tenureOf_member member) apart, Option.getD_some]

/-- Events that are silent for `fd` change nothing that the room has of it. -/
theorem view_silent (log : t.log = s.log ++ new) (silent : ∀ e ∈ new, Silent fd e) :
    (roomOf t).mailbox fd = (roomOf s).mailbox fd ∧ (roomOf t).told fd = (roomOf s).told fd := by
  have apart : ∀ e ∈ new, Apart Event.life fd e := fun e he => (silent e he).toApart
  by_cases member : fd ∈ live Event.life s.log
  · have segment := tenureOf_append log member apart
    simp [roomOf, segment, sentTo_silent silent, heard_silent silent]
  · have outside : fd ∉ live Event.life t.log := by
      rwa [log, mem_live_append apart]
    simp [roomOf, tenureOf_outsider member, tenureOf_outsider outside]

theorem view_outsider (outside : fd ∉ live Event.life s.log) :
    (roomOf s).mailbox fd = [] ∧ (roomOf s).told fd = [] := by
  simp [roomOf, tenureOf_outsider outside, heard, sentTo]

theorem roomOf_silent (new : List Event) (log : t.log = s.log ++ new)
    (silent : ∀ fd, ∀ e ∈ new, Silent fd e) : roomOf t = roomOf s := by
  apply Room.ext_at
  · ext fd
    show fd ∈ live Event.life t.log ↔ fd ∈ live Event.life s.log
    rw [log, mem_live_append fun e he => (silent fd e he).toApart]
  · exact fun fd => (view_silent log (silent fd)).1
  · exact fun fd => (view_silent log (silent fd)).2

theorem roomOf_congr (log : t.log = s.log) : roomOf t = roomOf s :=
  roomOf_silent [] (by simp [log]) (by simp)

end Views

section Acts

variable {s t : St} {i : Int} {c fd : Fd} {e r : Mask}

theorem Inv.exists_client (inv : Inv s) (member : fd ∈ live Event.life s.log) :
    ∃ k e r, Client s k fd e r := by
  obtain ⟨k, ⟨lower, upper⟩, slot⟩ := (inv.slotTable.owned fd).mp member
  obtain ⟨fd', e, r, client⟩ := inv.client lower upper
  obtain rfl : fd' = fd := by
    rw [client.slot] at slot
    exact Option.some.inj slot
  exact ⟨k, e, r, client⟩

theorem Inv.card_members (inv : Inv s) : (live Event.life s.log).card = s.userCounter.toNat := by
  have table := inv.table
  rw [← Finset.coe_image] at table
  rw [← table.card_eq, Finset.card_image_of_injective _ (Option.some_injective Fd)]

/-- Nobody was sent more than it has heard. -/
theorem Ledger.sent_le_heard (inv : Inv s) (ledger : Ledger s)
    (member : fd ∈ live Event.life s.log) :
    (sentTo fd (tenureOf s fd)).length ≤ (heard fd (tenureOf s fd)).length := by
  obtain ⟨k, e, r, client⟩ := inv.exists_client member
  have on := tenureOf_member member
  by_cases awaits : Awaits s fd e
  · obtain ⟨seg, text, on', -, balance⟩ := (ledger k fd e r client).waiting awaits
    obtain rfl := Option.some.inj (on'.symm.trans on)
    simp [balance]
  · obtain ⟨seg, on', balance⟩ := (ledger k fd e r client).served awaits
    obtain rfl := Option.some.inj (on'.symm.trans on)
    simp [balance]

theorem roomOf_refuse (inv : Inv s) (fresh : Fresh s c) : roomOf (s.refuse i c) = roomOf s := by
  have outside := fresh.closed inv
  have members := live_refuse (i := i) outside
  have others : ∀ fd, fd ≠ c → ∀ x ∈ [Event.accepted c, .refused c tooManyUsers, .closed c],
      Silent fd x := by
    intro fd other x hx
    simp only [List.mem_cons, List.not_mem_nil, or_false] at hx
    rcases hx with rfl | rfl | rfl
    · exact ⟨apart_accepted other, rfl, rfl⟩
    · exact ⟨apart_of_neither rfl, rfl, rfl⟩
    · exact ⟨apart_closed other, rfl, rfl⟩
  have view : ∀ fd, (roomOf (s.refuse i c)).mailbox fd = (roomOf s).mailbox fd ∧
      (roomOf (s.refuse i c)).told fd = (roomOf s).told fd := by
    intro fd
    by_cases same : fd = c
    · subst same
      have after := view_outsider (s := s.refuse i fd) (members ▸ outside)
      have before := view_outsider outside
      exact ⟨after.1.trans before.1.symm, after.2.trans before.2.symm⟩
    · exact view_silent rfl (others fd same)
  exact Room.ext_at members (fun fd => (view fd).1) fun fd => (view fd).2

theorem roomOf_enroll {addr : SockaddrIn} :
    roomOf (s.enroll i c addr) = (roomOf s).join c := by
  have view : ∀ fd, fd ≠ c → (roomOf (s.enroll i c addr)).mailbox fd = (roomOf s).mailbox fd ∧
      (roomOf (s.enroll i c addr)).told fd = (roomOf s).told fd := by
    intro fd other
    have log : (s.enroll i c addr).log = s.log ++ [.accepted c] := rfl
    refine view_silent log fun x hx => ?_
    obtain rfl := List.mem_singleton.mp hx
    exact ⟨apart_accepted other, rfl, rfl⟩
  have newcomer : tenureOf (s.enroll i c addr) c = [] := by
    have opens : tenure Event.life c (s.enroll i c addr).log = some [] := tenure_opens rfl
    rw [tenureOf, opens, Option.getD_some]
  apply Room.ext_at
  · exact live_enroll
  · intro fd
    by_cases same : fd = c
    · subst same
      simp [roomOf, Room.join, newcomer, heard]
    · rw [(view fd same).1, Room.join_mailbox, Function.update_of_ne same]
  · intro fd
    by_cases same : fd = c
    · subst same
      simp [roomOf, Room.join, newcomer, sentTo]
    · rw [(view fd same).2, Room.join_told, Function.update_of_ne same]

theorem roomOf_remove {lastFd : Fd} {tail : List Event} (log : RemovalLog c lastFd tail) :
    roomOf (s.remove i c lastFd tail) = (roomOf s).leave c := by
  have members := live_remove (s := s) (i := i) log
  have view : ∀ fd, fd ≠ c →
      (roomOf (s.remove i c lastFd tail)).mailbox fd = (roomOf s).mailbox fd ∧
        (roomOf (s.remove i c lastFd tail)).told fd = (roomOf s).told fd := by
    intro fd other
    refine view_silent rfl fun x hx => ?_
    have kinds : x = .copied c lastFd ∨ x = .closed c := by
      cases log <;> simpa [or_comm] using hx
    rcases kinds with rfl | rfl
    · exact ⟨apart_of_neither rfl, rfl, rfl⟩
    · exact ⟨apart_closed other, rfl, rfl⟩
  have outside : c ∉ live Event.life (s.remove i c lastFd tail).log := by
    rw [members]
    exact Finset.notMem_erase c _
  have gone := view_outsider outside
  apply Room.ext_at
  · exact members
  · intro fd
    by_cases same : fd = c
    · subst same
      rw [gone.1, Room.leave_mailbox, Function.update_self]
    · rw [(view fd same).1, Room.leave_mailbox, Function.update_of_ne same]
  · intro fd
    by_cases same : fd = c
    · subst same
      rw [gone.2, Room.leave_told, Function.update_self]
    · rw [(view fd same).2, Room.leave_told, Function.update_of_ne same]

/-- A message and the assignments of the broadcast that follows it. -/
theorem roomOf_heard {bytes : List Byte} {assigned : List Event} (inv : Inv s) (ledger : Ledger s)
    (log : t.log = s.log ++ .received c bytes :: assigned)
    (only : ∀ x ∈ assigned, ∃ f, x = .assigned f c) : roomOf t = (roomOf s).say c bytes := by
  have quiet : ∀ fd, ∀ x ∈ assigned, Silent fd x := by
    intro fd x hx
    obtain ⟨f, rfl⟩ := only x hx
    exact ⟨apart_of_neither rfl, rfl, rfl⟩
  have apart : ∀ fd, ∀ x ∈ Event.received c bytes :: assigned, Apart Event.life fd x := by
    intro fd x hx
    rcases List.mem_cons.mp hx with rfl | later
    · exact apart_of_neither rfl
    · exact (quiet fd x later).toApart
  have members : live Event.life t.log = live Event.life s.log := by
    ext fd
    rw [log, mem_live_append (apart fd)]
  have sent : ∀ fd, sentTo fd (.received c bytes :: assigned) = [] := by
    intro fd
    rw [← List.singleton_append, sentTo_append, sentTo_silent (quiet fd)]
    rfl
  have told : ∀ fd, heard fd (.received c bytes :: assigned) = if fd = c then [] else [bytes] := by
    intro fd
    rw [← List.singleton_append, heard_append, heard_silent (quiet fd)]
    by_cases same : fd = c
    · simp [heard, same]
    · simp [heard, same, Ne.symm same]
  have outsider : ∀ fd, fd ∉ live Event.life s.log → tenureOf t fd = tenureOf s fd := by
    intro fd outside
    rw [tenureOf_outsider outside, tenureOf_outsider (members ▸ outside)]
  apply Room.ext_at
  · exact members
  · intro fd
    by_cases member : fd ∈ live Event.life s.log
    · have segment := tenureOf_append log member (apart fd)
      have short := ledger.sent_le_heard inv member
      by_cases same : fd = c
      · subst same
        simp [roomOf, Room.say, segment, sent, told]
      · simp [roomOf, Room.say, segment, sent, told, same, member,
          List.drop_append_of_le_length short]
    · simp [roomOf, Room.say, outsider fd member, member]
  · intro fd
    by_cases member : fd ∈ live Event.life s.log
    · simp [roomOf, Room.say, tenureOf_append log member (apart fd), sent]
    · simp [roomOf, Room.say, outsider fd member]

/-- The pending text of a waiting client is all that its mailbox holds. -/
theorem roomOf_flush (stray : List Byte) (inv : Inv s) (ledger : Ledger s)
    (client : Client s i c e r) (writes : Writes r) (pending : (s.users.cell c).writeBuf ≠ .null) :
    ∃ text, (roomOf s).mailbox c = [text] ∧
      roomOf (s.flush i c e r ((s.stringAt (s.users.cell c).writeBuf).getD stray)) =
        (roomOf s).deliver c text [] := by
  have member := client.open inv
  obtain ⟨seg, text, on, string, balance⟩ :=
    (ledger i c e r client).waiting ⟨client.out inv writes.1, pending⟩
  obtain rfl := Option.some.inj (on.symm.trans (tenureOf_member member))
  have waits : (roomOf s).mailbox c = [text] := by
    simp [roomOf, balance]
  refine ⟨text, waits, ?_⟩
  rw [string, Option.getD_some]
  have neutral : ∀ {fd}, ∀ x ∈ [Event.readPending c (s.users.cell c).writeBuf, .sent c text,
      .reset c], Apart Event.life fd x := fun {fd} => apart_of_all_neither (by simp [Event.life])
  have served : tenureOf (s.flush i c e r text) c = tenureOf s c ++
      [.readPending c (s.users.cell c).writeBuf, .sent c text, .reset c] :=
    tenureOf_append rfl member neutral
  have others : ∀ fd, fd ≠ c → (roomOf (s.flush i c e r text)).mailbox fd = (roomOf s).mailbox fd ∧
      (roomOf (s.flush i c e r text)).told fd = (roomOf s).told fd := by
    intro fd other
    refine view_silent rfl fun x hx => ⟨neutral x hx, ?_, ?_⟩
    all_goals
      simp only [List.mem_cons, List.not_mem_nil, or_false] at hx
      rcases hx with rfl | rfl | rfl <;> simp [sentTo, heard, Ne.symm other]
  apply Room.ext_at
  · ext fd
    show fd ∈ live Event.life _ ↔ fd ∈ live Event.life s.log
    rw [St.flush_log, mem_live_append neutral]
  · intro fd
    by_cases same : fd = c
    · subst same
      rw [Room.deliver_mailbox, Function.update_self]
      have untold : heard fd [.readPending fd (s.users.cell fd).writeBuf, .sent fd text,
          .reset fd] = [] := rfl
      simp only [roomOf, served, heard_append, untold, balance, List.append_nil]
      simp [sentTo]
    · rw [(others fd same).1, Room.deliver_mailbox, Function.update_of_ne same]
  · intro fd
    by_cases same : fd = c
    · subst same
      rw [Room.deliver_told, Function.update_self]
      simp [roomOf, served, sentTo]
    · rw [(others fd same).2, Room.deliver_told, Function.update_of_ne same]

end Acts

/-- A state follows another in the room by one act or none. -/
def Follows (s t : St) : Prop :=
  roomOf t = roomOf s ∨ ∃ act, Room.step userLimit.toNat (roomOf s) act = some (roomOf t)

section Steps

variable {s t : St} {i : Int} {a : Answers}

theorem Follows.turn (inv : Inv s) (ledger : Ledger s) (turn : Turn .testPoll s i a t) :
    Follows s t := by
  cases turn with
  | idle => exact .inl (roomOf_congr rfl)
  | refuse c addr _ fresh => exact .inl (roomOf_refuse inv fresh)
  | enroll c addr _ fresh vacant =>
    refine .inr ⟨.join c, ?_⟩
    have nonneg := inv.counterNonneg
    have outside : c ∉ (roomOf s).members := fresh.closed inv
    have count : (roomOf s).members.card < userLimit.toNat := by
      show (live Event.life s.log).card < _
      rw [inv.card_members]
      omega
    rw [Room.step, if_pos ⟨outside, count⟩, roomOf_enroll]
  | hangup fd lastFd e r e' r' client _ _ =>
    refine .inr ⟨.leave fd, ?_⟩
    have member : fd ∈ (roomOf s).members := client.open inv
    rw [Room.step, if_pos member, roomOf_remove .hangup]
  | failed fd lastFd e r e' r' errno client _ _ _ _ =>
    refine .inr ⟨.leave fd, ?_⟩
    have member : fd ∈ (roomOf s).members := client.open inv
    have cleared : roomOf (s.filled fd []) = roomOf s := roomOf_congr rfl
    rw [Room.step, if_pos member, roomOf_remove .failed, cleared]
  | cleared fd e r _ _ _ => exact .inl (roomOf_congr rfl)
  | heard fd e r bytes m client _ _ _ _ run =>
    refine .inr ⟨.say fd bytes, ?_⟩
    have member : fd ∈ (roomOf s).members := client.open inv
    have ready : Inv ((s.filled fd bytes).emit (.received fd bytes)) :=
      (inv.filled fd bytes).emit rfl
    obtain ⟨assigned, log, only, -⟩ := (broadcast_announced ready run).history
    have extended : (m.next i).log = s.log ++ .received fd bytes :: assigned := by
      simpa [St.next, St.emit] using log
    rw [Room.step, if_pos member, roomOf_heard inv ledger extended]
    intro x hx
    obtain ⟨f, -, rfl⟩ := only x hx
    exact ⟨f, rfl⟩
  | nothing fd e r _ _ _ =>
    refine .inl (roomOf_silent [.readPending fd .null] rfl fun f x hx => ?_)
    obtain rfl := List.mem_singleton.mp hx
    exact ⟨apart_of_neither rfl, rfl, rfl⟩
  | flushed fd e r client writes pending =>
    obtain ⟨text, waits, after⟩ :=
      roomOf_flush a.strayText inv ledger client writes pending
    refine .inr ⟨.deliver fd, ?_⟩
    rw [after]
    simp only [Room.step, waits]

theorem Follows.move {a : Input} (inv : Inv s) (ledger : Ledger s) (move : Move .testPoll s a t) :
    Follows s t := by
  cases move with
  | polled revents t _ polled => exact .inl (roomOf_congr polled.log)
  | left => exact .inl (roomOf_congr rfl)
  | passed i a _ _ => exact .inl (roomOf_congr rfl)
  | turn i a fd e r t _ _ _ _ _ turn =>
    have silent : ∀ f, Silent f (.examined fd r) := fun f => ⟨apart_of_neither rfl, rfl, rfl⟩
    have examined : roomOf (s.emit (.examined fd r)) = roomOf s := by
      refine roomOf_silent [.examined fd r] rfl fun f x hx => ?_
      obtain rfl := List.mem_singleton.mp hx
      exact silent f
    have follows : Follows (s.emit (.examined fd r)) t :=
      .turn (inv.emit rfl) (ledger.emit silent) turn
    rwa [Follows, examined] at follows

end Steps

/-- In calm runs, where no pending text is disturbed and no zero byte is said to others,
`test_poll.c` is a room of five: a turn is one act of the room or none. -/
theorem calm_refines_room : Machine.Simulates ((machine .testPoll).guard Calm)
    (Room.machine Fd (List Byte) userLimit.toNat) roomOf where
  start := by
    rintro s ⟨listenfd, files, memory, -, -, rfl⟩
    rfl
  step := by
    intro s a t reach lawful run
    have base := reach.of_guard
    have move := reachable_move base lawful.1 run
    rcases Follows.move (reachable_inv base) (reachable_ledger reach) move with same | ⟨act, next⟩
    · exact .inl same
    · exact .inr ⟨act, trivial, next⟩

end JiajiaNetwork.PollChat
