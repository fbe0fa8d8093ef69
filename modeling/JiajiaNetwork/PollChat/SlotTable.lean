/- The slot table of both poll servers: in every reachable state slots 1 to `user_counter`
   list the open client sockets, each once, and no step of the program faults. -/
import JiajiaNetwork.PollChat.Turn

set_option autoImplicit false
set_option relaxedAutoImplicit false

namespace JiajiaNetwork.PollChat

open Lib

section Membership

variable {s : St} {i : Int} {c fd : Fd}

theorem some_image_insert (fd : Fd) (S : Finset Fd) :
    (some '' ((insert fd S : Finset Fd) : Set Fd)) = insert (some fd) (some '' (S : Set Fd)) := by
  rw [Finset.coe_insert, Set.image_insert_eq]

theorem some_image_erase (fd : Fd) (S : Finset Fd) :
    (some '' ((S.erase fd : Finset Fd) : Set Fd)) = (some '' (S : Set Fd)) \ {some fd} := by
  rw [Finset.coe_erase, Set.image_sdiff (Option.some_injective Fd), Set.image_singleton]

/-- The refused socket is opened and closed within the turn. -/
theorem live_refuse (fresh : c ∉ live Event.life s.log) :
    live Event.life (s.refuse i c).log = live Event.life s.log := by
  simp [live_append, liveStep, Event.life, Finset.erase_insert fresh]

@[simp] theorem live_enroll {addr : SockaddrIn} :
    live Event.life (s.enroll i c addr).log = insert c (live Event.life s.log) := by
  simp [live_append, liveStep, Event.life]

/-- The two removals differ only in the order of close and copy. -/
inductive RemovalLog (fd lastFd : Fd) : List Event → Prop
  | hangup : RemovalLog fd lastFd [.copied fd lastFd, .closed fd]
  | failed : RemovalLog fd lastFd [.closed fd, .copied fd lastFd]

theorem live_remove {lastFd : Fd} {tail : List Event} (h : RemovalLog fd lastFd tail) :
    live Event.life (s.remove i fd lastFd tail).log = (live Event.life s.log).erase fd := by
  cases h <;> simp [live_append, liveStep, Event.life]

theorem closes_remove {lastFd : Fd} {tail : List Event} (h : RemovalLog fd lastFd tail)
    (old : Always (ClosesLive Event.life) s.log) (member : fd ∈ live Event.life s.log) :
    Always (ClosesLive Event.life) (s.remove i fd lastFd tail).log := by
  refine always_append.mpr ⟨old, ?_⟩
  cases h <;> simp [always_cons, ClosesLive, live_append, liveStep, Event.life, member]

end Membership

section Preserved

variable {s : St} {i : Int} {c fd : Fd} {e r : Mask}

theorem Fresh.closed (inv : Inv s) (fresh : Fresh s c) : c ∉ live Event.life s.log :=
  fun member => fresh.1 (inv.sockets c member).2.2.2

theorem Inv.refuse (inv : Inv s) (lower : 0 ≤ i) (fresh : Fresh s c) : Inv (s.refuse i c) := by
  have closed := fresh.closed inv
  have sockets := live_refuse (i := i) closed
  constructor
  case counterNonneg => exact inv.counterNonneg
  case counterLe => exact inv.counterLe
  case listener => exact inv.listener
  case clients => exact inv.clients
  case table => rw [sockets]; exact inv.table
  case sockets =>
    rw [sockets, St.refuse_files, Finset.erase_insert fresh.1]
    exact inv.sockets
  case listening =>
    rw [St.refuse_files, Finset.erase_insert fresh.1]
    exact inv.listening
  case index => exact index_of_ctl rfl (by omega)
  case closes =>
    refine always_append.mpr ⟨inv.closes, ?_⟩
    simp [always_cons, ClosesLive, live_append, liveStep, Event.life]

theorem Inv.enroll {addr : SockaddrIn} (inv : Inv s) (lower : 0 ≤ i) (fresh : Fresh s c)
    (room : s.userCounter < userLimit) : Inv (s.enroll i c addr) := by
  have closed := fresh.closed inv
  have nonneg := inv.counterNonneg
  constructor
  case counterNonneg => simp only [St.enroll_userCounter]; omega
  case counterLe => simp only [St.enroll_userCounter]; omega
  case listener =>
    have other : (0 : Int) ≠ s.userCounter + 1 := by omega
    simpa [other] using inv.listener
  case clients =>
    intro k low high
    by_cases last : k = s.userCounter + 1
    · subst last
      refine ⟨c, pollIn ||| pollRdhup ||| pollErr, 0, by simp, by decide, ?_⟩
      intro out
      exact absurd out not_has_zero
    · have old : k ≤ s.userCounter := by
        simp only [St.enroll_userCounter] at high
        omega
      simpa [last] using inv.clients k low old
  case table =>
    rw [live_enroll, some_image_insert, St.enroll_userCounter]
    refine (inv.table.push (x := some c) nonneg ?_).congr ?_
    · rintro ⟨fd, member, same⟩
      exact closed (Option.some.inj same ▸ member)
    · intro k _
      simp only [St.enroll_fds, CArray.put_cell, Function.update_apply]
      split_ifs <;> rfl
  case sockets =>
    intro fd member
    rw [live_enroll, Finset.mem_insert] at member
    rcases member with rfl | old
    · refine ⟨fresh.2.1, fresh.2.2, ?_, Finset.mem_insert_self fd s.files⟩
      intro same
      exact fresh.1 (same ▸ inv.listening)
    · obtain ⟨lo, hi, other, opened⟩ := inv.sockets fd old
      exact ⟨lo, hi, other, Finset.mem_insert_of_mem opened⟩
  case listening => exact Finset.mem_insert_of_mem inv.listening
  case index => exact index_of_ctl rfl (by omega)
  case closes =>
    refine always_append.mpr ⟨inv.closes, ?_⟩
    simp [always_cons, ClosesLive, Event.life]

theorem Inv.remove {lastFd : Fd} {tail : List Event} (inv : Inv s) (client : Client s i fd e r)
    (log : RemovalLog fd lastFd tail) : Inv (s.remove i fd lastFd tail) := by
  have lower := client.lower
  have upper := client.upper
  have limit := inv.counterLe
  have sockets := live_remove (s := s) (i := i) log
  have cells : ∀ k, (s.remove i fd lastFd tail).fds.cell k =
      swapLast s.fds.cell i s.userCounter k := fun k => rfl
  constructor
  case counterNonneg => simp only [St.remove_userCounter]; omega
  case counterLe => simp only [St.remove_userCounter]; omega
  case listener =>
    have other : (0 : Int) ≠ i := by omega
    simpa [other] using inv.listener
  case clients =>
    intro k low high
    obtain ⟨l, ⟨hl1, hl2⟩, -, moved⟩ :=
      swapLast_source (f := s.fds.cell) (n := s.userCounter) ⟨lower, upper⟩ ⟨low, high⟩
    rw [cells, moved]
    exact inv.clients l hl1 hl2
  case table =>
    have gone := inv.table.swapRemove (i := i) ⟨lower, upper⟩
    rw [client.slot] at gone
    rw [sockets, some_image_erase, St.remove_userCounter]
    refine gone.congr fun k _ => ?_
    simp only [cells, swapLast, Function.update_apply]
    split_ifs <;> rfl
  case sockets =>
    intro f member
    rw [sockets, Finset.mem_erase] at member
    obtain ⟨lo, hi, other, opened⟩ := inv.sockets f member.2
    exact ⟨lo, hi, other, Finset.mem_erase.mpr ⟨member.1, opened⟩⟩
  case listening =>
    have other := (inv.sockets fd (client.open inv)).2.2.1
    exact Finset.mem_erase.mpr ⟨Ne.symm other, inv.listening⟩
  case index => exact index_of_ctl rfl (by omega)
  case closes => exact closes_remove log inv.closes (client.open inv)

theorem Inv.turn {v : Program} {a : Answers} {t : St} (inv : Inv s) (lower : 0 ≤ i)
    (turn : Turn v s i a t) : Inv t := by
  cases turn with
  | idle => exact inv.next lower
  | refuse c addr _ fresh => exact inv.refuse lower fresh
  | enroll c addr _ fresh room => exact inv.enroll lower fresh room
  | hangup fd lastFd e r e' r' client _ _ => exact inv.remove client .hangup
  | failed fd lastFd e r e' r' errno client _ _ _ _ =>
    exact (inv.filled fd []).remove (client_filled.mpr client) .failed
  | cleared fd e r client _ _ => exact (inv.filled fd []).next lower
  | heard fd e r bytes m client _ _ _ _ run =>
    have ready : Inv ((s.filled fd bytes).emit (.received fd bytes)) :=
      (inv.filled fd bytes).emit rfl
    have spread := spread_of_broadcast ready client.lower client.upper run
    exact (ready.spread spread).next lower
  | nothing fd e r client _ _ => exact (inv.emit rfl).next lower
  | flushed fd e r client _ _ => exact inv.flush client _

end Preserved

/-! The call of `poll` and the two exits of the loops. -/

/-- What `poll` changes: the results of the slots it was given. -/
structure Polled (s : St) (revents : Int → Mask) (t : St) : Prop where
  ctl : t.ctl = .scanning 0
  users : t.users = s.users
  userCounter : t.userCounter = s.userCounter
  listenfd : t.listenfd = s.listenfd
  files : t.files = s.files
  log : t.log = s.log
  slots : ∀ k f e r, 0 ≤ k → k ≤ s.userCounter → s.fds.cell k = ⟨f, some e, r⟩ →
    t.fds.cell k = ⟨f, some e, some (revents k)⟩

theorem pollReturns_polled {s : St} (inv : Inv s) (revents : Int → Mask) :
    ∃ t, pollReturns s revents = some t ∧ Polled s revents t := by
  have limit := inv.counterLe
  have nonneg := inv.counterNonneg
  -- slots below `j` are written, slots from `j` on are as they were
  let P : Int → St → Prop := fun j m =>
    { s with fds := m.fds } = m ∧ (∀ k, j ≤ k → m.fds.cell k = s.fds.cell k) ∧
    ∀ k f e r, 0 ≤ k → k < j → s.fds.cell k = ⟨f, some e, r⟩ →
      m.fds.cell k = ⟨f, some e, some (revents k)⟩
  have start : P 0 s := ⟨rfl, fun _ _ => rfl, fun k _ _ _ lower upper => by omega⟩
  obtain ⟨m, run, frame, -, written⟩ := forLoop_rule (P := P) (fun k s => do
      let p ← s.fds.get k
      let _ ← p.fd
      let _ ← p.events
      let fds ← s.fds.set k { p with revents := some (revents k) }
      some { s with fds }) (s.userCounter + 1).toNat 0 s start (by
    rintro j m lower upper ⟨frame, rest, written⟩
    obtain ⟨fd, e, r, slot⟩ := inv.slot (k := j) lower (by omega)
    have same : m.fds.cell j = ⟨some fd, some e, some r⟩ := (rest j le_rfl).trans slot
    refine ⟨{ m with fds := m.fds.put j ⟨some fd, some e, some (revents j)⟩ }, ?_, ?_, ?_, ?_⟩
    · simp [CArray.get_eq_some m.fds lower (by omega), same,
        CArray.set_eq_some m.fds _ lower (by omega)]
    · rw [← frame]
    · intro k hk
      have other : k ≠ j := by omega
      simpa [other] using rest k (by omega)
    · intro k f e' r' low high hk
      by_cases last : k = j
      · subst last
        obtain ⟨rfl, rfl, -⟩ : some fd = f ∧ e = e' ∧ some r = r' := by
          simpa using slot.symm.trans hk
        simp
      · simpa [last] using written k f e' r' low (by omega) hk)
  refine ⟨{ m with ctl := .scanning 0 }, ?_, ?_⟩
  · unfold pollReturns
    rw [run]
    rfl
  · rw [← frame]
    exact ⟨rfl, rfl, rfl, rfl, rfl, rfl, fun k f e r low high =>
      written k f e r low (by omega)⟩

theorem Reported.out {s : St} {k : Int} {f : Option Fd} {e r : Mask} {r0 : Option Mask}
    (h : Reported s k r) (slot : s.fds.cell k = ⟨f, some e, r0⟩) (out : has r pollOut) :
    has e pollOut := by
  have within : Within r (e ||| (pollErr ||| pollHup ||| pollNval)) := by
    simpa [slot] using h.1
  rcases has_or.mp (within.has out) with asked | unasked
  · exact asked
  · exact absurd unasked (by decide)

theorem Inv.polled {s t : St} {revents : Int → Mask} (inv : Inv s)
    (reported : ∀ k, 0 ≤ k → k ≤ s.userCounter → Reported s k (revents k))
    (h : Polled s revents t) : Inv t := by
  have nonneg := inv.counterNonneg
  constructor
  case counterNonneg => rw [h.userCounter]; exact nonneg
  case counterLe => rw [h.userCounter]; exact inv.counterLe
  case listener =>
    obtain ⟨e, r, slot, -⟩ := inv.listener
    refine ⟨e, revents 0, by rw [h.slots 0 _ e _ le_rfl nonneg slot, h.listenfd], ?_⟩
    exact (reported 0 le_rfl nonneg).2 (by rw [slot])
  case clients =>
    intro k lower upper
    rw [h.userCounter] at upper
    obtain ⟨fd, e, r, slot, rdhup, -⟩ := inv.clients k lower upper
    refine ⟨fd, e, revents k, h.slots k _ e _ (by omega) upper slot, rdhup, ?_⟩
    exact (reported k (by omega) upper).out slot
  case table =>
    rw [h.log, h.userCounter]
    refine inv.table.congr ?_
    rintro k ⟨lower, upper⟩
    obtain ⟨fd, e, r, client⟩ := inv.client lower upper
    simp [h.slots k _ e _ (by omega) upper client.slot, client.slot]
  case sockets => rw [h.log, h.listenfd, h.files]; exact inv.sockets
  case listening => rw [h.listenfd, h.files]; exact inv.listening
  case index => exact index_of_ctl h.ctl le_rfl
  case closes => rw [h.log]; exact inv.closes

theorem Inv.stop {s : St} (inv : Inv s) {ctl : Control} (h : ctl.isScanning = false) :
    Inv { s with ctl } := by
  refine inv.grow ⟨rfl, rfl, rfl, ?_, fun _ _ e _ slot => ⟨e, slot, fun _ hx => hx⟩,
    [], by simp, by simp⟩
  rintro i (rfl : ctl = .scanning i)
  simp [Control.isScanning] at h

/-- A step of the program, by the place it starts from. -/
inductive Move (v : Program) (s : St) : Input → St → Prop
  | polled (revents : Int → Mask) (t : St) :
      (∀ k, 0 ≤ k → k ≤ s.userCounter → Reported s k (revents k)) → Polled s revents t →
      Move v s (.poll revents) t
  | left : Move v s .pollFailed { s with ctl := .left }
  | passed (i : Int) (a : Answers) :
      s.ctl = .scanning i → s.userCounter < i → Move v s (.turn a) { s with ctl := .polling }
  | turn (i : Int) (a : Answers) (fd : Fd) (e r : Mask) (t : St) :
      s.ctl = .scanning i → 0 ≤ i → i ≤ s.userCounter →
      s.fds.cell i = ⟨some fd, some e, some r⟩ → body v s i a = some t →
      Turn v (s.emit (.examined fd r)) i a t → Move v s (.turn a) t

/-- No lawful step faults. -/
theorem step_move {s : St} (inv : Inv s) (v : Program) {a : Input} (lawful : Lawful s a) :
    ∃ t, step v s a = some t ∧ Move v s a t := by
  cases a with
  | poll revents =>
    obtain ⟨t, run, polled⟩ := pollReturns_polled inv revents
    exact ⟨t, run, .polled revents t lawful.2 polled⟩
  | pollFailed => exact ⟨_, rfl, .left⟩
  | turn a =>
    obtain ⟨scanning, fresh, short⟩ := lawful
    cases ctl : s.ctl with
    | scanning i =>
      by_cases inside : i < s.userCounter + 1
      · obtain ⟨fd, e, r, t, slot, run, turn⟩ :=
          body_turn (v := v) inv (inv.index i ctl) (by omega) fresh short
        exact ⟨t, by simp [step, ctl, inside, run],
          .turn i a fd e r t ctl (inv.index i ctl) (by omega) slot run turn⟩
      · exact ⟨_, by simp [step, ctl, inside], .passed i a ctl (by omega)⟩
    | polling => simp [ctl, Control.isScanning] at scanning
    | left => simp [ctl, Control.isScanning] at scanning

theorem Inv.move {v : Program} {s t : St} {a : Input} (inv : Inv s) (move : Move v s a t) :
    Inv t := by
  cases move with
  | polled revents t reported polled => exact inv.polled reported polled
  | left => exact inv.stop rfl
  | passed i a _ _ => exact inv.stop rfl
  | turn i a fd e r t ctl lower upper slot _ turn => exact (inv.emit rfl).turn lower turn

theorem Start.inv {v : Program} {s : St} (h : Start v s) : Inv s := by
  obtain ⟨listenfd, files, memory, listening, -, rfl⟩ := h
  constructor
  case counterNonneg => exact le_rfl
  case counterLe => simp [initial, userLimit]
  case listener => exact ⟨listenEvents v, 0, by simp [initial, initialSlot], by simp, by simp⟩
  case clients =>
    intro k lower upper
    have : k ≤ 0 := upper
    omega
  case table => simpa [initial] using Holds.empty _
  case sockets => simp [initial]
  case listening => exact listening
  case index => simp [initial]
  case closes => simp [initial]

theorem Inv.move_of_step {v : Program} {s t : St} {a : Input} (inv : Inv s)
    (lawful : Lawful s a) (run : step v s a = some t) : Move v s a t := by
  obtain ⟨t', run', move⟩ := step_move inv v lawful
  obtain rfl := Option.some.inj (run'.symm.trans run)
  exact move

theorem reachable_inv {v : Program} {s : St} (h : (machine v).Reachable s) : Inv s := by
  refine h.invariant (fun s start => Start.inv start) ?_
  intro s a t _ inv lawful run
  exact inv.move (inv.move_of_step lawful run)

/-- Every step out of a reachable state is a `Move`. -/
theorem reachable_move {v : Program} {s t : St} {a : Input} (h : (machine v).Reachable s)
    (lawful : (machine v).Lawful s a) (run : (machine v).step s a = some t) : Move v s a t :=
  (reachable_inv h).move_of_step lawful run

/-- The table at the head of the `for` loop. -/
structure SlotTable (s : St) : Prop where
  counterNonneg : 0 ≤ s.userCounter
  counterLe : s.userCounter ≤ userLimit
  listener : (s.fds.cell 0).fd = some s.listenfd
  initialised : ∀ k ∈ rows s.userCounter, ∃ fd e r,
    s.fds.cell k = ⟨some fd, some e, some r⟩ ∧ fd ≠ s.listenfd ∧ has e pollRdhup
  distinct : Set.InjOn (fun k => (s.fds.cell k).fd) (rows s.userCounter)
  owned : ∀ fd, fd ∈ live Event.life s.log ↔
    ∃ k ∈ rows s.userCounter, (s.fds.cell k).fd = some fd
  closedOnce : Always (ClosesLive Event.life) s.log

theorem Inv.slotTable {s : St} (inv : Inv s) : SlotTable s where
  counterNonneg := inv.counterNonneg
  counterLe := inv.counterLe
  listener := by
    obtain ⟨e, r, slot, -⟩ := inv.listener
    rw [slot]
  initialised := by
    rintro k ⟨lower, upper⟩
    obtain ⟨fd, e, r, slot, rdhup, -⟩ := inv.clients k lower upper
    have client : Client s k fd e r := ⟨lower, upper, slot⟩
    exact ⟨fd, e, r, slot, (inv.sockets fd (client.open inv)).2.2.1, rdhup⟩
  distinct := inv.table.injOn
  owned fd := by
    rw [← inv.table.mem_iff]
    simp
  closedOnce := inv.closes

/-- In every reachable state the table is well formed, and every access that a lawful step
makes to `fds`, to `users` and to an open descriptor succeeds. -/
theorem slot_table (v : Program) (s : St) (h : (machine v).Reachable s) :
    SlotTable s ∧ ∀ a, Lawful s a → ∃ t, step v s a = some t := by
  refine ⟨(reachable_inv h).slotTable, fun a lawful => ?_⟩
  obtain ⟨t, run, -⟩ := step_move (reachable_inv h) v lawful
  exact ⟨t, run⟩

/-! A run in which two clients join. -/

/-- The server listens on 3, and `malloc` left a stray pointer in every entry. -/
def boot (v : Program) : St :=
  initial v 3 {0, 1, 2, 3} ⟨fun _ => ⟨⟨0, 0, 0⟩, .stray 1, List.replicate bufferSize 0⟩⟩

theorem boot_reachable (v : Program) : (machine v).Reachable (boot v) :=
  .start ⟨3, {0, 1, 2, 3}, _, by simp, by simp, rfl⟩

/-- The results of `poll`, slot by slot; slots behind the list report nothing. -/
def reports (results : List Mask) : Input := .poll fun k => results.getD k.toNat 0

def idleTurn : Input := .turn ⟨none, .error eagain, []⟩
def acceptTurn (connfd : Fd) : Input := .turn ⟨some (connfd, ⟨2, 0, 0⟩), .error eagain, []⟩
def recvTurn (bytes : List Byte) : Input := .turn ⟨none, .ok bytes, []⟩

/-- Clients on 5 and 6 connect, one after the other. -/
def joins : List Input :=
  [reports [pollIn], acceptTurn 5, idleTurn, idleTurn,
    reports [pollIn], acceptTurn 6, idleTurn, idleTurn, idleTurn]

def joined (v : Program) : St := ((machine v).replay (boot v) joins).getD (boot v)

theorem joined_reachable (v : Program) : (machine v).Reachable (joined v) :=
  (boot_reachable v).replay_getD joins

theorem slot_table_joined : (joined .chatRoomServer).userCounter = 2 ∧
    SlotTable (joined .chatRoomServer) :=
  ⟨by decide +kernel, (slot_table .chatRoomServer (joined .chatRoomServer)
    (joined_reachable .chatRoomServer)).1⟩

end JiajiaNetwork.PollChat
