/- What one turn of the loop can do. Under the slot invariant no access of a turn is a fault,
   and its result is one of the named states below. -/
import JiajiaNetwork.Lib.CompactTable
import JiajiaNetwork.Lib.Lifetime
import JiajiaNetwork.PollChat.Server

set_option autoImplicit false
set_option relaxedAutoImplicit false

namespace JiajiaNetwork.PollChat

open Lib

/-! The slot invariant. -/

/-- What an event does to an accepted socket. -/
def Event.life : Event → Life Fd
  | .accepted fd => .opens fd
  | .closed fd => .closes fd
  | _ => .neither

theorem apart_accepted {fd c : Fd} (other : fd ≠ c) : Apart Event.life fd (.accepted c) :=
  ⟨by simp [Event.life, Ne.symm other], by simp [Event.life]⟩

theorem apart_closed {fd c : Fd} (other : fd ≠ c) : Apart Event.life fd (.closed c) :=
  ⟨by simp [Event.life], by simp [Event.life, Ne.symm other]⟩

/-- Slot `k` belongs to the client on `fd`. -/
structure Client (s : St) (k : Int) (fd : Fd) (e r : Mask) : Prop where
  lower : 1 ≤ k
  upper : k ≤ s.userCounter
  slot : s.fds.cell k = ⟨some fd, some e, some r⟩

/-- Only the list and the counter say who is on a slot. -/
theorem Client.congr {s t : St} {k : Int} {fd : Fd} {e r : Mask} (h : Client s k fd e r)
    (slots : t.fds = s.fds := by rfl) (counter : t.userCounter = s.userCounter := by rfl) :
    Client t k fd e r where
  lower := h.lower
  upper := counter ▸ h.upper
  slot := slots ▸ h.slot

structure Inv (s : St) : Prop where
  counterNonneg : 0 ≤ s.userCounter
  counterLe : s.userCounter ≤ userLimit
  listener : ∃ e r, s.fds.cell 0 = ⟨some s.listenfd, some e, some r⟩ ∧
    ¬ has r pollOut ∧ ¬ has r pollRdhup
  clients : ∀ k, 1 ≤ k → k ≤ s.userCounter → ∃ fd e r, s.fds.cell k = ⟨some fd, some e, some r⟩ ∧
    has e pollRdhup ∧ (has r pollOut → has e pollOut)
  table : Holds (fun k => (s.fds.cell k).fd) s.userCounter
    (some '' (live Event.life s.log : Set Fd))
  sockets : ∀ fd ∈ live Event.life s.log,
    0 ≤ fd ∧ fd < fdLimit ∧ fd ≠ s.listenfd ∧ fd ∈ s.files
  listening : s.listenfd ∈ s.files
  index : ∀ i, s.ctl = .scanning i → 0 ≤ i
  closes : Always (ClosesLive Event.life) s.log

theorem Inv.client {s : St} (inv : Inv s) {k : Int} (lower : 1 ≤ k) (upper : k ≤ s.userCounter) :
    ∃ fd e r, Client s k fd e r := by
  obtain ⟨fd, e, r, slot, -⟩ := inv.clients k lower upper
  exact ⟨fd, e, r, lower, upper, slot⟩

theorem Inv.slot {s : St} (inv : Inv s) {k : Int} (lower : 0 ≤ k) (upper : k ≤ s.userCounter) :
    ∃ fd e r, s.fds.cell k = ⟨some fd, some e, some r⟩ := by
  by_cases head : k = 0
  · subst head
    obtain ⟨e, r, slot, -⟩ := inv.listener
    exact ⟨_, e, r, slot⟩
  · obtain ⟨fd, e, r, client⟩ := inv.client (k := k) (by omega) upper
    exact ⟨fd, e, r, client.slot⟩

theorem Client.open {s : St} (inv : Inv s) {k : Int} {fd : Fd} {e r : Mask}
    (h : Client s k fd e r) : fd ∈ live Event.life s.log := by
  have member := inv.table.mem (k := k) ⟨h.lower, h.upper⟩
  rw [h.slot] at member
  obtain ⟨fd', hfd, same⟩ := member
  rwa [← Option.some.inj same]

theorem Client.get {s : St} (inv : Inv s) {k : Int} {fd : Fd} {e r : Mask}
    (h : Client s k fd e r) : s.fds.get k = some ⟨some fd, some e, some r⟩ := by
  have lower := h.lower
  have upper := h.upper
  have limit := inv.counterLe
  rw [CArray.get_eq_some _ (by omega) (by omega), h.slot]

theorem Client.unique {s : St} (inv : Inv s) {k l : Int} {fd : Fd} {e r e' r' : Mask}
    (hk : Client s k fd e r) (hl : Client s l fd e' r') : k = l :=
  inv.table.injOn ⟨hk.lower, hk.upper⟩ ⟨hl.lower, hl.upper⟩ (by simp [hk.slot, hl.slot])

theorem Client.same {s : St} {k : Int} {fd fd' : Fd} {e r e' r' : Mask}
    (h : Client s k fd e r) (h' : Client s k fd' e' r') : fd = fd' ∧ e = e' ∧ r = r' := by
  have slot := h.slot.symm.trans h'.slot
  simpa using slot

/-! The states a turn can end in. -/

namespace St

/-- A client is turned away. -/
@[simps ctl fds users userCounter listenfd files log]
def refuse (s : St) (i : Int) (connfd : Fd) : St :=
  { s with
    files := (insert connfd s.files).erase connfd
    log := s.log ++ [.accepted connfd, .refused connfd tooManyUsers, .closed connfd]
    ctl := .scanning (i + 1) }

/-- A client takes the slot behind the last one. -/
@[simps ctl fds users userCounter listenfd files log]
def enroll (s : St) (i : Int) (connfd : Fd) (address : SockaddrIn) : St :=
  { s with
    files := insert connfd s.files
    log := s.log ++ [.accepted connfd]
    userCounter := s.userCounter + 1
    users := s.users.put connfd { s.users.cell connfd with address }
    fds := s.fds.put (s.userCounter + 1)
      ⟨some connfd, some (pollIn ||| pollRdhup ||| pollErr), some 0⟩
    ctl := .scanning (i + 1) }

/-- The client of slot `i` is removed; `tail` holds its close and its copied entry. -/
@[simps ctl fds users userCounter listenfd files log]
def remove (s : St) (i : Int) (fd lastFd : Fd) (tail : List Event) : St :=
  { s with
    users := s.users.put fd (s.users.cell lastFd)
    files := s.files.erase fd
    fds := s.fds.put i (s.fds.cell s.userCounter)
    userCounter := s.userCounter - 1
    ctl := .scanning i
    log := s.log ++ tail }

/-- The buffer of `connfd` holds `bytes` and zeros. -/
@[simps ctl fds users userCounter listenfd files log]
def filled (s : St) (connfd : Fd) (bytes : List Byte) : St :=
  { s with
    users := s.users.put connfd { s.users.cell connfd with
      buf := overlay bytes (List.replicate bufferSize 0) } }

/-- The pending text of `connfd` was sent. -/
@[simps ctl fds users userCounter listenfd files log]
def flush (s : St) (i : Int) (connfd : Fd) (e r : Mask) (text : List Byte) : St :=
  { s with
    users := s.users.put connfd { s.users.cell connfd with writeBuf := .null }
    fds := s.fds.put i ⟨some connfd, some (e ||| ~~~pollOut ||| pollIn), some r⟩
    log := s.log ++ [.readPending connfd (s.users.cell connfd).writeBuf, .sent connfd text,
      .reset connfd]
    ctl := .scanning (i + 1) }

end St

/-- The branches a client's `revents` select. -/
def HangsUp (r : Mask) : Prop := has r pollRdhup ∧ ¬ has r pollErr
def Reads (r : Mask) : Prop := has r pollIn ∧ ¬ has r pollRdhup ∧ ¬ has r pollErr
def Writes (r : Mask) : Prop :=
  has r pollOut ∧ ¬ has r pollIn ∧ ¬ has r pollRdhup ∧ ¬ has r pollErr

/-- The outcomes of a turn at slot `i`, from the state that has logged the examination. -/
inductive Turn (v : Program) (s : St) (i : Int) (a : Answers) : St → Prop
  | idle : Turn v s i a (s.next i)
  | refuse (c : Fd) (addr : SockaddrIn) :
      a.accept = some (c, addr) → Fresh s c → Turn v s i a (s.refuse i c)
  | enroll (c : Fd) (addr : SockaddrIn) :
      a.accept = some (c, addr) → Fresh s c → s.userCounter < userLimit →
      Turn v s i a (s.enroll i c addr)
  | hangup (fd lastFd : Fd) (e r e' r' : Mask) :
      Client s i fd e r → HangsUp r → Client s s.userCounter lastFd e' r' →
      Turn v s i a (s.remove i fd lastFd [.copied fd lastFd, .closed fd])
  | failed (fd lastFd : Fd) (e r e' r' : Mask) (errno : Errno) :
      Client s i fd e r → Reads r → a.recv = .error errno → errno ≠ eagain →
      Client s s.userCounter lastFd e' r' →
      Turn v s i a ((s.filled fd []).remove i fd lastFd [.closed fd, .copied fd lastFd])
  | cleared (fd : Fd) (e r : Mask) :
      Client s i fd e r → Reads r → a.recv = .error eagain ∨ a.recv = .ok [] →
      Turn v s i a ((s.filled fd []).next i)
  | heard (fd : Fd) (e r : Mask) (bytes : List Byte) (m : St) :
      Client s i fd e r → Reads r → a.recv = .ok bytes → bytes ≠ [] →
      bytes.length ≤ bufferSize - 1 →
      broadcast v i fd ((s.filled fd bytes).emit (.received fd bytes)) = some m →
      Turn v s i a (m.next i)
  | nothing (fd : Fd) (e r : Mask) :
      Client s i fd e r → Writes r → (s.users.cell fd).writeBuf = .null →
      Turn v s i a ((s.emit (.readPending fd .null)).next i)
  | flushed (fd : Fd) (e r : Mask) :
      Client s i fd e r → Writes r → (s.users.cell fd).writeBuf ≠ .null →
      Turn v s i a (s.flush i fd e r
        ((s.stringAt (s.users.cell fd).writeBuf).getD a.strayText))

/-! The checked operations on slots and entries that are in range. -/

section Checked

variable {s : St} {i k : Int} {fd connfd : Fd} {e r : Mask}

theorem copyUser_eq {source : Fd} (lo : 0 ≤ fd) (hi : fd < fdLimit) (lo' : 0 ≤ source)
    (hi' : source < fdLimit) :
    s.copyUser fd source = some { s with
      users := s.users.put fd (s.users.cell source)
      log := s.log ++ [.copied fd source] } := by
  simp [St.copyUser, CArray.get_eq_some _ lo' hi', CArray.set_eq_some _ _ lo hi]

theorem fill_eq {bytes : List Byte} (lo : 0 ≤ fd) (hi : fd < fdLimit) :
    s.fill fd bytes = some (s.filled fd bytes) := by
  simp [St.fill, St.filled, CArray.get_eq_some _ lo hi, CArray.set_eq_some _ _ lo hi]

theorem raise_eq {set bit : Mask} {f : Option Fd} {r : Option Mask} (lo : 0 ≤ k)
    (hi : k < userLimit + 1) (slot : s.fds.cell k = ⟨f, some e, r⟩) :
    s.raise k set bit = some { s with fds := s.fds.put k ⟨f, some (e ||| set ||| bit), r⟩ } := by
  simp [St.raise, CArray.get_eq_some _ lo hi, CArray.set_eq_some _ _ lo hi, slot]

theorem pointTo_eq (lo : 0 ≤ fd) (hi : fd < fdLimit) :
    s.pointTo fd connfd = some { s with
      users := s.users.put fd { s.users.cell fd with writeBuf := .buf connfd }
      log := s.log ++ [.assigned fd connfd] } := by
  simp [St.pointTo, CArray.get_eq_some _ lo hi, CArray.set_eq_some _ _ lo hi]

end Checked

/-! The broadcast loop keeps owners, results and buffers and only adds mask bits. -/

structure Spread (s t : St) : Prop where
  ctl : t.ctl = s.ctl
  userCounter : t.userCounter = s.userCounter
  listenfd : t.listenfd = s.listenfd
  files : t.files = s.files
  slots : ∀ k f e r, s.fds.cell k = ⟨f, some e, r⟩ →
    ∃ e', t.fds.cell k = ⟨f, some e', r⟩ ∧ ∀ x, has e x → has e' x
  outside : ∀ k, k < 1 ∨ s.userCounter < k → t.fds.cell k = s.fds.cell k
  users : ∀ fd, (t.users.cell fd).buf = (s.users.cell fd).buf ∧
    (t.users.cell fd).address = (s.users.cell fd).address
  log : ∃ new, t.log = s.log ++ new ∧ ∀ e ∈ new, ∃ fd source, e = .assigned fd source

theorem Spread.refl (s : St) : Spread s s where
  ctl := rfl
  userCounter := rfl
  listenfd := rfl
  files := rfl
  slots _ _ e _ h := ⟨e, h, fun _ hx => hx⟩
  outside _ _ := rfl
  users _ := ⟨rfl, rfl⟩
  log := ⟨[], by simp, by simp⟩

/-- Raising the mask of one client slot and pointing one entry at the sender. -/
theorem Spread.round {s m : St} (h : Spread s m) {k : Int} (fd connfd : Fd) (set bit : Mask)
    {f : Option Fd} {e : Mask} {r : Option Mask} (lower : 1 ≤ k) (upper : k ≤ s.userCounter)
    (slot : m.fds.cell k = ⟨f, some e, r⟩) :
    Spread s { m with
      fds := m.fds.put k ⟨f, some (e ||| set ||| bit), r⟩
      users := m.users.put fd { m.users.cell fd with writeBuf := .buf connfd }
      log := m.log ++ [.assigned fd connfd] } where
  ctl := h.ctl
  userCounter := h.userCounter
  listenfd := h.listenfd
  files := h.files
  slots l f0 e0 r0 hl := by
    obtain ⟨e1, h1, grow⟩ := h.slots l f0 e0 r0 hl
    by_cases same : l = k
    · subst same
      obtain ⟨rfl, he, rfl⟩ : f0 = f ∧ e1 = e ∧ r0 = r := by simpa using h1.symm.trans slot
      exact ⟨e ||| set ||| bit, by simp, fun x hx => by simp [← he, grow x hx]⟩
    · exact ⟨e1, by simp [same, h1], grow⟩
  outside l hl := by
    have other : l ≠ k := by omega
    simpa [other] using h.outside l hl
  users fd' := by
    by_cases same : fd' = fd
    · subst same
      simpa using h.users fd'
    · simpa [same] using h.users fd'
  log := by
    obtain ⟨new, hlog, only⟩ := h.log
    refine ⟨new ++ [.assigned fd connfd], by simp [hlog], ?_⟩
    intro e he
    rcases List.mem_append.mp he with old | last
    · exact only e old
    · exact ⟨fd, connfd, List.mem_singleton.mp last⟩

private theorem broadcastRound_spread {s m : St} (inv : Inv s) (h : Spread s m) {slot j : Int}
    {connfd : Fd} (slotLower : 1 ≤ slot) (slotUpper : slot ≤ s.userCounter) (lower : 1 ≤ j)
    (upper : j ≤ s.userCounter) : ∃ t, broadcastRound slot connfd j m = some t ∧ Spread s t := by
  have limit := inv.counterLe
  obtain ⟨fd, e, r, client⟩ := inv.client lower upper
  obtain ⟨e1, cell, -⟩ := h.slots j _ _ _ client.slot
  have get : m.fds.get j = some ⟨some fd, some e1, some r⟩ := by
    rw [CArray.get_eq_some _ (by omega) (by omega), cell]
  by_cases same : fd = connfd
  · exact ⟨m, by simp [broadcastRound, get, same], h⟩
  · obtain ⟨lo, hi, -⟩ := inv.sockets fd (client.open inv)
    obtain ⟨_, _, _, other⟩ := inv.client slotLower slotUpper
    obtain ⟨e2, edited, -⟩ := h.slots slot _ _ _ other.slot
    refine ⟨_, ?_, h.round fd connfd (~~~pollIn) pollOut
      slotLower slotUpper edited⟩
    simp [broadcastRound, get, same, raise_eq (by omega) (by omega) edited, pointTo_eq lo hi]

theorem broadcast_spread {s : St} (inv : Inv s) (v : Program) {i : Int} (lower : 1 ≤ i)
    (upper : i ≤ s.userCounter) (connfd : Fd) :
    ∃ t, broadcast v i connfd s = some t ∧ Spread s t := by
  cases v with
  | testPoll =>
    obtain ⟨t, run, spread⟩ := forLoop_rule (fun j => broadcastRound j connfd j)
      (P := fun _ t => Spread s t) s.userCounter.toNat 1 s (.refl s) (by
        intro j m lo hi h
        exact broadcastRound_spread inv h (by omega) (by omega) (by omega) (by omega))
    exact ⟨t, run, spread⟩
  | chatRoomServer =>
    obtain ⟨t, run, spread⟩ := forLoop_rule (broadcastRound i connfd)
      (P := fun _ t => Spread s t) (s.userCounter - 1).toNat 1 s (.refl s) (by
        intro j m lo hi h
        exact broadcastRound_spread inv h lower upper (by omega) (by omega))
    exact ⟨t, run, spread⟩

theorem spread_of_broadcast {s t : St} (inv : Inv s) {v : Program} {i : Int} (lower : 1 ≤ i)
    (upper : i ≤ s.userCounter) {connfd : Fd} (run : broadcast v i connfd s = some t) :
    Spread s t := by
  obtain ⟨t', run', spread⟩ := broadcast_spread inv v lower upper connfd
  obtain rfl := Option.some.inj (run'.symm.trans run)
  exact spread

/-! Changes that keep the slot invariant without touching the set of clients. -/

structure Grow (s t : St) : Prop where
  userCounter : t.userCounter = s.userCounter
  listenfd : t.listenfd = s.listenfd
  files : t.files = s.files
  index : ∀ i, t.ctl = .scanning i → 0 ≤ i
  slots : ∀ k f e r, s.fds.cell k = ⟨f, some e, r⟩ →
    ∃ e', t.fds.cell k = ⟨f, some e', r⟩ ∧ ∀ x, has e x → has e' x
  log : ∃ new, t.log = s.log ++ new ∧ ∀ e ∈ new, e.life = .neither

/-- The index of the loop is read off the control location. -/
theorem index_of_ctl {t : St} {i : Int} (ctl : t.ctl = .scanning i) (lower : 0 ≤ i) :
    ∀ j, t.ctl = .scanning j → 0 ≤ j := by
  intro j other
  obtain rfl := Control.scanning.inj (ctl.symm.trans other)
  exact lower

theorem Inv.grow {s t : St} (inv : Inv s) (h : Grow s t) : Inv t := by
  obtain ⟨new, hlog, quiet⟩ := h.log
  have sockets : live Event.life t.log = live Event.life s.log := by
    rw [hlog, live_quiet quiet]
  constructor
  case counterNonneg => rw [h.userCounter]; exact inv.counterNonneg
  case counterLe => rw [h.userCounter]; exact inv.counterLe
  case listener =>
    obtain ⟨e, r, slot, idle⟩ := inv.listener
    obtain ⟨e', slot', -⟩ := h.slots 0 _ _ _ slot
    exact ⟨e', r, by rw [slot', h.listenfd], idle⟩
  case clients =>
    intro k lower upper
    obtain ⟨fd, e, r, slot, rdhup, out⟩ := inv.clients k lower (h.userCounter ▸ upper)
    obtain ⟨e', slot', keep⟩ := h.slots k _ _ _ slot
    exact ⟨fd, e', r, slot', keep _ rdhup, fun hr => keep _ (out hr)⟩
  case table =>
    rw [sockets, h.userCounter]
    refine inv.table.congr ?_
    rintro k ⟨lower, upper⟩
    obtain ⟨fd, e, r, client⟩ := inv.client lower upper
    obtain ⟨e', slot', -⟩ := h.slots k _ _ _ client.slot
    simp [slot', client.slot]
  case sockets => rw [sockets, h.listenfd, h.files]; exact inv.sockets
  case listening => rw [h.listenfd, h.files]; exact inv.listening
  case index => exact h.index
  case closes => rw [hlog]; exact closesLive_quiet inv.closes quiet

section Grow

variable {s : St} {i : Int} {fd : Fd}

theorem Inv.emit (inv : Inv s) {e : Event} (h : e.life = .neither) : Inv (s.emit e) :=
  inv.grow ⟨rfl, rfl, rfl, inv.index, fun _ _ e _ slot => ⟨e, slot, fun _ hx => hx⟩,
    [e], rfl, by simpa using h⟩

theorem Inv.next (inv : Inv s) (lower : 0 ≤ i) : Inv (s.next i) := by
  refine inv.grow ⟨rfl, rfl, rfl, ?_, fun _ _ e _ slot => ⟨e, slot, fun _ hx => hx⟩,
    [], by simp [St.next], by simp⟩
  exact index_of_ctl rfl (by omega)

theorem Inv.filled (inv : Inv s) (fd : Fd) (bytes : List Byte) : Inv (s.filled fd bytes) :=
  inv.grow ⟨rfl, rfl, rfl, inv.index, fun _ _ e _ slot => ⟨e, slot, fun _ hx => hx⟩,
    [], by simp, by simp⟩

theorem Inv.spread {t : St} (inv : Inv s) (h : Spread s t) : Inv t := by
  obtain ⟨new, hlog, only⟩ := h.log
  refine inv.grow ⟨h.userCounter, h.listenfd, h.files, h.ctl ▸ inv.index, h.slots, new, hlog, ?_⟩
  intro e he
  obtain ⟨fd, source, rfl⟩ := only e he
  rfl

theorem Inv.flush {e r : Mask} (inv : Inv s) (client : Client s i fd e r) (text : List Byte) :
    Inv (s.flush i fd e r text) := by
  have lower := client.lower
  refine inv.grow ⟨rfl, rfl, rfl, ?_, ?_, _, rfl, by simp [Event.life]⟩
  · exact index_of_ctl rfl (by omega)
  · intro k f e' r' slot
    by_cases same : k = i
    · subst same
      obtain ⟨rfl, rfl, rfl⟩ : some fd = f ∧ e = e' ∧ some r = r' := by
        simpa using client.slot.symm.trans slot
      exact ⟨e ||| ~~~pollOut ||| pollIn, by simp, fun x hx => by simp [hx]⟩
    · exact ⟨e', by simp [same, slot], fun _ hx => hx⟩

end Grow

/-! Every turn ends in one of the states of `Turn`. -/

section Turn

variable {v : Program} {s : St} {i : Int} {a : Answers} {fd : Fd} {e r : Mask}

theorem acceptBranch_turn (inv : Inv s) (fresh : ∀ answer ∈ a.accept, Fresh s answer.1) :
    ∃ t, acceptBranch s i a = some t ∧ Turn v s i a t := by
  have limit := inv.counterLe
  have nonneg := inv.counterNonneg
  cases answer : a.accept with
  | none => exact ⟨s.next i, by simp [acceptBranch, answer], .idle⟩
  | some p =>
    obtain ⟨c, addr⟩ := p
    have hc : Fresh s c := fresh (c, addr) answer
    have lo := hc.2.1
    have hi := hc.2.2
    by_cases full : s.userCounter ≥ userLimit
    · refine ⟨s.refuse i c, ?_, .refuse c addr answer hc⟩
      simp [acceptBranch, answer, full, St.opened, St.emit, St.close, St.next, St.refuse]
    · have room : s.userCounter < userLimit := by omega
      refine ⟨s.enroll i c addr, ?_, .enroll c addr answer hc room⟩
      have put : ∀ p, s.fds.set (s.userCounter + 1) p = some (s.fds.put (s.userCounter + 1) p) :=
        fun p => CArray.set_eq_some _ _ (by omega) (by omega)
      simp [acceptBranch, answer, full, St.opened, St.next, St.enroll,
        CArray.get_eq_some _ lo hi, CArray.set_eq_some _ _ lo hi, put]

/-- What the removal of a client finds: the client of the last slot, both entries of `users`, an
open descriptor and the slot that is to be filled. -/
theorem Inv.removal (inv : Inv s) (client : Client s i fd e r) :
    ∃ lastFd e' r', Client s s.userCounter lastFd e' r' ∧ (0 ≤ fd ∧ fd < fdLimit) ∧
      (0 ≤ lastFd ∧ lastFd < fdLimit) ∧ fd ∈ s.files ∧
        ∀ p, s.fds.set i p = some (s.fds.put i p) := by
  have lower := client.lower
  have upper := client.upper
  have limit := inv.counterLe
  obtain ⟨lastFd, e', r', last⟩ := inv.client (by omega) le_rfl
  obtain ⟨lo, hi, -, opened⟩ := inv.sockets fd (client.open inv)
  obtain ⟨lo', hi', -, -⟩ := inv.sockets lastFd (last.open inv)
  refine ⟨lastFd, e', r', last, ⟨lo, hi⟩, ⟨lo', hi'⟩, opened, fun p => ?_⟩
  exact CArray.set_eq_some _ _ (by omega) (by omega)

theorem removeHungUp_eq (inv : Inv s) (client : Client s i fd e r) :
    ∃ lastFd e' r', Client s s.userCounter lastFd e' r' ∧
      removeHungUp s i = some (s.remove i fd lastFd [.copied fd lastFd, .closed fd]) := by
  obtain ⟨lastFd, e', r', last, ⟨lo, hi⟩, ⟨lo', hi'⟩, opened, put⟩ := inv.removal client
  refine ⟨lastFd, e', r', last, ?_⟩
  simp [removeHungUp, client.get inv, last.get inv, copyUser_eq lo hi lo' hi', St.close, opened,
    St.moveLast, put, St.remove, last.slot]

theorem removeFailed_eq (inv : Inv s) (client : Client s i fd e r) :
    ∃ lastFd e' r', Client s s.userCounter lastFd e' r' ∧
      removeFailed s i fd = some (s.remove i fd lastFd [.closed fd, .copied fd lastFd]) := by
  obtain ⟨lastFd, e', r', last, ⟨lo, hi⟩, ⟨lo', hi'⟩, opened, put⟩ := inv.removal client
  refine ⟨lastFd, e', r', last, ?_⟩
  simp [removeFailed, client.get inv, last.get inv, copyUser_eq lo hi lo' hi', St.close, opened,
    St.moveLast, put, St.remove, last.slot]

/-- Clearing the buffer leaves the slots alone. -/
theorem client_filled {k : Int} {f c : Fd} {bytes : List Byte} :
    Client (s.filled c bytes) k f e r ↔ Client s k f e r :=
  ⟨fun h => h.congr, fun h => h.congr⟩

theorem readBranch_turn (inv : Inv s) (client : Client s i fd e r) (reads : Reads r)
    (short : ∀ bytes ∈ a.recv.toOption, bytes.length ≤ bufferSize - 1) :
    ∃ t, readBranch v s i fd a = some t ∧ Turn v s i a t := by
  obtain ⟨lo, hi, -⟩ := inv.sockets fd (client.open inv)
  cases answer : a.recv with
  | error errno =>
    by_cases again : errno = eagain
    · subst again
      refine ⟨(s.filled fd []).next i, ?_, .cleared fd e r client reads (.inl answer)⟩
      simp [readBranch, answer, fill_eq lo hi]
    · obtain ⟨lastFd, e', r', last, run⟩ :=
        removeFailed_eq (inv.filled fd []) (client_filled.mpr client)
      refine ⟨_, ?_, .failed fd lastFd e r e' r' errno client reads answer again
        (client_filled.mp last)⟩
      simp [readBranch, answer, fill_eq lo hi, again, run]
  | ok bytes =>
    cases bytes with
    | nil =>
      refine ⟨(s.filled fd []).next i, ?_, .cleared fd e r client reads (.inr answer)⟩
      simp [readBranch, answer, fill_eq lo hi]
    | cons b rest =>
      have ready : Inv ((s.filled fd (b :: rest)).emit (.received fd (b :: rest))) :=
        (inv.filled fd _).emit rfl
      obtain ⟨m, run, -⟩ := broadcast_spread ready v client.lower client.upper fd
      refine ⟨m.next i, ?_, .heard fd e r (b :: rest) m client reads answer (by simp)
        (short _ (by simp [answer, Except.toOption])) run⟩
      simp [readBranch, answer, fill_eq lo hi, run]

theorem writeBranch_turn (inv : Inv s) (client : Client s i fd e r) (writes : Writes r) :
    ∃ t, writeBranch s i fd a = some t ∧ Turn v s i a t := by
  have lower := client.lower
  have upper := client.upper
  have limit := inv.counterLe
  obtain ⟨lo, hi, -⟩ := inv.sockets fd (client.open inv)
  by_cases pending : (s.users.cell fd).writeBuf = .null
  · refine ⟨(s.emit (.readPending fd .null)).next i, ?_, .nothing fd e r client writes pending⟩
    simp [writeBranch, CArray.get_eq_some _ lo hi, pending]
  · refine ⟨_, ?_, .flushed fd e r client writes pending⟩
    have put : ∀ p, s.fds.set i p = some (s.fds.put i p) :=
      fun p => CArray.set_eq_some _ _ (by omega) (by omega)
    simp [writeBranch, CArray.get_eq_some _ lo hi, pending, CArray.set_eq_some _ _ lo hi,
      St.raise, client.get inv, put, St.flush, St.emit, St.next, St.stringAt]

theorem dispatch_turn (inv : Inv s) (slot : s.fds.cell i = ⟨some fd, some e, some r⟩)
    (lower : 0 ≤ i) (upper : i ≤ s.userCounter)
    (fresh : ∀ answer ∈ a.accept, Fresh s answer.1)
    (short : ∀ bytes ∈ a.recv.toOption, bytes.length ≤ bufferSize - 1) :
    ∃ t, dispatch v s i fd r a = some t ∧ Turn v s i a t := by
  by_cases listening : fd = s.listenfd ∧ has r pollIn
  · rw [dispatch, if_pos listening]
    exact acceptBranch_turn inv fresh
  · rw [dispatch, if_neg listening]
    by_cases err : has r pollErr
    · exact ⟨_, by rw [if_pos err], .idle⟩
    · rw [if_neg err]
      by_cases head : i = 0
      · -- the listening socket reports nothing else
        subst head
        obtain ⟨e0, r0, slot0, out, rdhup⟩ := inv.listener
        obtain ⟨rfl, -, rfl⟩ : s.listenfd = fd ∧ e0 = e ∧ r0 = r := by
          simpa using slot0.symm.trans slot
        have quiet : ¬ has r0 pollIn := fun hin => listening ⟨rfl, hin⟩
        rw [if_neg rdhup, if_neg quiet, if_neg out]
        exact ⟨_, rfl, .idle⟩
      · have client : Client s i fd e r := ⟨by omega, upper, slot⟩
        by_cases rdhup : has r pollRdhup
        · obtain ⟨lastFd, e', r', last, run⟩ := removeHungUp_eq inv client
          rw [if_pos rdhup]
          exact ⟨_, run, .hangup fd lastFd e r e' r' client ⟨rdhup, err⟩ last⟩
        · rw [if_neg rdhup]
          by_cases readable : has r pollIn
          · rw [if_pos readable]
            exact readBranch_turn inv client ⟨readable, rdhup, err⟩ short
          · rw [if_neg readable]
            by_cases writable : has r pollOut
            · rw [if_pos writable]
              exact writeBranch_turn inv client ⟨writable, readable, rdhup, err⟩
            · rw [if_neg writable]
              exact ⟨_, rfl, .idle⟩

/-- A turn never faults, and it is one of the outcomes of `Turn`. -/
theorem body_turn (inv : Inv s) (lower : 0 ≤ i) (upper : i ≤ s.userCounter)
    (fresh : ∀ answer ∈ a.accept, Fresh s answer.1)
    (short : ∀ bytes ∈ a.recv.toOption, bytes.length ≤ bufferSize - 1) :
    ∃ fd e r t, s.fds.cell i = ⟨some fd, some e, some r⟩ ∧ body v s i a = some t ∧
      Turn v (s.emit (.examined fd r)) i a t := by
  have limit := inv.counterLe
  obtain ⟨fd, e, r, slot⟩ := inv.slot lower upper
  have get : s.fds.get i = some ⟨some fd, some e, some r⟩ := by
    rw [CArray.get_eq_some _ lower (by omega), slot]
  obtain ⟨t, run, turn⟩ := dispatch_turn (v := v) (a := a)
    (inv.emit (e := .examined fd r) rfl) slot lower upper fresh short
  exact ⟨fd, e, r, t, slot, by simp [body, get, run], turn⟩

end Turn

end JiajiaNetwork.PollChat
