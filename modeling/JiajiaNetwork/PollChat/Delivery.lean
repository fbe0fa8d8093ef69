/- Delivery in `test_poll.c`. A client's single pending pointer aliases the speaker's receive
   buffer. As long as nothing disturbs a pending text, what was sent to a client, followed by
   the text that is pending for it, is what the other clients have said to it. -/
import JiajiaNetwork.PollChat.Departure

set_option autoImplicit false
set_option relaxedAutoImplicit false

namespace JiajiaNetwork.PollChat

open Lib

/-- The byte strings the POLLOUT branch passed to `send` for the client on `fd`. -/
def sentTo (fd : Fd) (seg : List Event) : List (List Byte) :=
  seg.filterMap fun
    | .sent f text => if f = fd then some text else none
    | _ => none

/-- The byte strings `recv` returned from the other clients. -/
def heard (fd : Fd) (seg : List Event) : List (List Byte) :=
  seg.filterMap fun
    | .received f bytes => if f = fd then none else some bytes
    | _ => none

@[simp] theorem sentTo_append (fd : Fd) (seg new : List Event) :
    sentTo fd (seg ++ new) = sentTo fd seg ++ sentTo fd new := List.filterMap_append

@[simp] theorem heard_append (fd : Fd) (seg new : List Event) :
    heard fd (seg ++ new) = heard fd seg ++ heard fd new := List.filterMap_append

/-- On every connection that is on, what was sent is a prefix of what the others said. -/
def Delivers (s : St) : Prop :=
  ∀ fd seg, tenure Event.life fd s.log = some seg → sentTo fd seg <+: heard fd seg

/-- The client on `fd` with mask `e` asks for POLLOUT and its pending pointer is set. -/
def Awaits (s : St) (fd : Fd) (e : Mask) : Prop :=
  has e pollOut ∧ (s.users.cell fd).writeBuf ≠ .null

/-- No waiting client but the one on slot `i` points at the buffer of `fd`. -/
def Unread (s : St) (i : Int) (fd : Fd) : Prop :=
  ∀ k f e r, Client s k f e r → k ≠ i → Awaits s f e → (s.users.cell f).writeBuf ≠ .buf fd

/-- The buffer of the last slot's client holds the same text as that of `fd`. -/
def LastAlike (s : St) (fd : Fd) : Prop :=
  ∀ lastFd e r, Client s s.userCounter lastFd e r →
    cString (s.users.cell fd).buf = cString (s.users.cell lastFd).buf

/-- A client is read while nobody waits for its text, and what it says holds no zero byte and
finds nobody else waiting, unless it is alone. A failed read clears the text, but the removal
may copy the same text back. -/
def ReadsCalmly (s : St) (i : Int) (a : Answers) (fd : Fd) : Prop :=
  match a.recv with
  | .error errno => Unread s i fd ∨ errno ≠ eagain ∧ i ≠ s.userCounter ∧ LastAlike s fd
  | .ok bytes => Unread s i fd ∧ (bytes ≠ [] →
      ∀ k f e r, Client s k f e r → k ≠ i → (0 : Byte) ∉ bytes ∧ ¬ Awaits s f e)

/-- The turn disturbs no pending text, and brings no zero byte for others. -/
def CalmTurn (s : St) (i : Int) (a : Answers) : Prop :=
  ∀ fd e r, Client s i fd e r →
    (HangsUp r → i = s.userCounter ∨ Unread s i fd ∨ LastAlike s fd) ∧
    (Reads r → ReadsCalmly s i a fd)

def Calm (s : St) : Input → Prop
  | .turn a => ∀ i, s.ctl = .scanning i → CalmTurn s i a
  | _ => True

section Decidable

variable {s : St}

instance (fd : Fd) (e : Mask) : Decidable (Awaits s fd e) :=
  inferInstanceAs (Decidable (_ ∧ _))

instance (i : Int) (fd : Fd) : Decidable (Unread s i fd) :=
  inferInstanceAs (Decidable (∀ k f e r, Client s k f e r → k ≠ i → Awaits s f e →
    (s.users.cell f).writeBuf ≠ .buf fd))

end Decidable

instance (s : St) (fd : Fd) : Decidable (LastAlike s fd) := by
  unfold LastAlike
  infer_instance

instance (s : St) (i : Int) (a : Answers) (fd : Fd) : Decidable (ReadsCalmly s i a fd) := by
  unfold ReadsCalmly
  split <;> infer_instance

instance (s : St) (i : Int) (a : Answers) : Decidable (CalmTurn s i a) := by
  unfold CalmTurn
  infer_instance

instance (s : St) : (a : Input) → Decidable (Calm s a)
  | .turn a =>
    match ctl : s.ctl with
    | .scanning i => decidable_of_iff (CalmTurn s i a) (by simp [Calm, ctl])
    | .polling | .left => isTrue (by simp [Calm, ctl])
  | .poll _ | .pollFailed => isTrue trivial

/-- What the client on `fd` was sent and what it still waits for, against what it heard. -/
structure Account (s : St) (fd : Fd) (e : Mask) : Prop where
  waiting : Awaits s fd e → ∃ seg text, tenure Event.life fd s.log = some seg ∧
    s.stringAt (s.users.cell fd).writeBuf = some text ∧ heard fd seg = sentTo fd seg ++ [text]
  served : ¬ Awaits s fd e →
    ∃ seg, tenure Event.life fd s.log = some seg ∧ heard fd seg = sentTo fd seg

/-- The accounts of all clients. -/
def Ledger (s : St) : Prop := ∀ k fd e r, Client s k fd e r → Account s fd e

/-- Events that are no part of what a client is told. -/
structure Silent (fd : Fd) (e : Event) : Prop extends Apart Event.life fd e where
  sent : sentTo fd [e] = []
  heard : heard fd [e] = []

section Silent

variable {fd : Fd} {seg new : List Event}

theorem sentTo_silent (silent : ∀ e ∈ new, Silent fd e) : sentTo fd new = [] := by
  induction new with
  | nil => rfl
  | cons e new ih =>
    rw [← List.singleton_append, sentTo_append, (silent e (by simp)).sent,
      ih fun x hx => silent x (List.mem_cons_of_mem e hx), List.append_nil]

theorem heard_nil (untold : ∀ e ∈ new, heard fd [e] = []) : heard fd new = [] := by
  induction new with
  | nil => rfl
  | cons e new ih =>
    rw [← List.singleton_append, heard_append, untold e (by simp),
      ih fun x hx => untold x (List.mem_cons_of_mem e hx), List.append_nil]

theorem heard_silent (silent : ∀ e ∈ new, Silent fd e) : heard fd new = [] :=
  heard_nil fun e he => (silent e he).heard

theorem tenure_silent {log : List Event} (h : tenure Event.life fd log = some seg)
    (silent : ∀ e ∈ new, Silent fd e) : tenure Event.life fd (log ++ new) = some (seg ++ new) :=
  tenure_append h fun e he => (silent e he).toApart

end Silent

/-- Steps that keep a client's pointer and the text it waits for, and tell it nothing. -/
structure Keeps (s t : St) (new : List Event) (fd : Fd) (e : Mask) : Prop where
  origin : ∃ l r, Client s l fd e r
  pointer : (t.users.cell fd).writeBuf = (s.users.cell fd).writeBuf
  text : Awaits s fd e →
    t.stringAt (s.users.cell fd).writeBuf = s.stringAt (s.users.cell fd).writeBuf
  silent : ∀ x ∈ new, Silent fd x

theorem Ledger.keeps {s t : St} {new : List Event} {fd : Fd} {e : Mask} (ledger : Ledger s)
    (log : t.log = s.log ++ new) (keeps : Keeps s t new fd e) : Account t fd e := by
  obtain ⟨⟨l, r, before⟩, pointer, text, silent⟩ := keeps
  have same : Awaits t fd e ↔ Awaits s fd e := by
    unfold Awaits
    rw [pointer]
  constructor
  case waiting =>
    intro awaits
    have was := same.mp awaits
    obtain ⟨seg, m, on, string, balance⟩ := (ledger l fd e r before).waiting was
    refine ⟨seg ++ new, m, log ▸ tenure_silent on silent, ?_, ?_⟩
    · rw [pointer, text was, string]
    · simp [sentTo_silent silent, heard_silent silent, balance]
  case served =>
    intro idle
    obtain ⟨seg, on, balance⟩ := (ledger l fd e r before).served fun was => idle (same.mpr was)
    refine ⟨seg ++ new, log ▸ tenure_silent on silent, ?_⟩
    simp [sentTo_silent silent, heard_silent silent, balance]

/-- Steps that keep everyone's account. -/
theorem Ledger.frame {s t : St} (ledger : Ledger s) (new : List Event)
    (log : t.log = s.log ++ new)
    (keeps : ∀ k fd e r, Client t k fd e r → Keeps s t new fd e) : Ledger t :=
  fun k fd e r client => ledger.keeps log (keeps k fd e r client)

/-- A text depends on the buffers only. -/
theorem stringAt_congr {s t : St}
    (buffers : ∀ owner, (t.users.cell owner).buf = (s.users.cell owner).buf) (p : WriteBuf) :
    t.stringAt p = s.stringAt p := by
  cases p with
  | buf owner => simp only [St.stringAt, buffers owner]
  | null => rfl
  | stray address => rfl

/-- The pointer of a waiting client leads to another client's buffer. -/
theorem Awaits.owner {s : St} {k : Int} {fd : Fd} {e r : Mask} (back : Backed s)
    (client : Client s k fd e r) (h : Awaits s fd e) :
    ∃ owner, owner ≠ fd ∧ (s.users.cell fd).writeBuf = .buf owner := by
  obtain ⟨seg, -, vouched⟩ := back.clients k fd e r client
  rcases vouched h.1 with ⟨owner, ne, pointer, -⟩ | ⟨null, -⟩
  · exact ⟨owner, ne, pointer⟩
  · exact absurd null h.2

section Steps

variable {s t : St} {i : Int} {c : Fd} {e r : Mask}

/-- Steps that touch neither the clients nor the history. -/
theorem Ledger.congr (ledger : Ledger s) (slots : t.fds = s.fds := by rfl)
    (counter : t.userCounter = s.userCounter := by rfl) (users : t.users = s.users := by rfl)
    (log : t.log = s.log := by rfl) : Ledger t := by
  apply ledger.frame [] (by simp [log])
  intro k fd e r client
  refine ⟨⟨k, r, client.congr slots.symm counter.symm⟩, by rw [users], fun _ => ?_, by simp⟩
  exact stringAt_congr (by simp [users]) _

/-- Events that are silent for everyone. -/
theorem Ledger.emit (ledger : Ledger s) {x : Event} (silent : ∀ fd, Silent fd x) :
    Ledger (s.emit x) :=
  ledger.frame (t := s.emit x) [x] rfl fun k fd e r client =>
    ⟨⟨k, r, client.congr⟩, rfl, fun _ => rfl, fun y hy => by
      obtain rfl := List.mem_singleton.mp hy
      exact silent fd⟩

/-- Writing into a buffer that no other client waits for. -/
theorem Ledger.filled (back : Backed s) (ledger : Ledger s)
    (client : Client s i c e r) (unread : Unread s i c) (bytes : List Byte) :
    Ledger (s.filled c bytes) := by
  refine ledger.frame [] (by simp) ?_
  intro k fd e' r' h
  have before : Client s k fd e' r' := client_filled.mp h
  refine ⟨⟨k, r', before⟩, ?_, ?_, by simp⟩
  · exact CArray.put_field ClientData.writeBuf rfl
  · intro awaits
    obtain ⟨owner, ne, pointer⟩ := awaits.owner back before
    have other : owner ≠ c := by
      rintro rfl
      by_cases own : k = i
      · subst own
        exact ne (before.same client).1.symm
      · exact unread k fd e' r' before own awaits pointer
    simp [pointer, St.stringAt, other]

theorem Ledger.refuse (inv : Inv s) (ledger : Ledger s) (fresh : Fresh s c) :
    Ledger (s.refuse i c) := by
  refine ledger.frame _ rfl ?_
  intro k fd e r h
  have before : Client s k fd e r := h.congr
  have other := before.fresh inv fresh
  refine ⟨⟨k, r, before⟩, rfl, fun _ => rfl, ?_⟩
  simp only [List.mem_cons, List.not_mem_nil, or_false]
  rintro x (rfl | rfl | rfl)
  · exact ⟨apart_accepted other, rfl, rfl⟩
  · exact ⟨apart_of_neither rfl, rfl, rfl⟩
  · exact ⟨apart_closed other, rfl, rfl⟩

/-- A newcomer has heard nothing and was sent nothing. -/
theorem Ledger.enroll {addr : SockaddrIn} (inv : Inv s) (ledger : Ledger s) (fresh : Fresh s c) :
    Ledger (s.enroll i c addr) := by
  intro k fd e r client
  rcases client.of_enroll with before | ⟨rfl, rfl, -⟩
  · have other := before.fresh inv fresh
    apply ledger.keeps rfl
    refine ⟨⟨k, r, before⟩, CArray.put_field ClientData.writeBuf rfl, fun _ => ?_, ?_⟩
    · apply stringAt_congr
      exact fun owner => CArray.put_field ClientData.buf rfl
    · intro x hx
      obtain rfl := List.mem_singleton.mp hx
      exact ⟨apart_accepted other, rfl, rfl⟩
  · constructor
    case waiting => exact fun awaits => absurd awaits.1 not_out_initial
    case served => exact fun _ => ⟨[], tenure_opens rfl, rfl⟩

/-- A removal that keeps the texts that are waited for. -/
theorem Ledger.remove {lastFd : Fd} {tail : List Event} (inv : Inv s) (ledger : Ledger s)
    (client : Client s i c e r) (log : RemovalLog c lastFd tail)
    (texts : Unread s i c ∨ cString (s.users.cell c).buf = cString (s.users.cell lastFd).buf) :
    Ledger (s.remove i c lastFd tail) := by
  refine ledger.frame _ rfl ?_
  intro k fd e' r' stays
  obtain ⟨l, apart, before⟩ := Client.of_remove client stays
  have other : fd ≠ c := before.ne inv client apart
  refine ⟨⟨l, r', before⟩, by simp [other], ?_, ?_⟩
  · intro awaits
    rw [stringAt_remove]
    split_ifs with pointer
    · rcases texts with unread | equal
      · exact absurd pointer (unread l fd e' r' before apart awaits)
      · rw [pointer, St.stringAt, equal]
    · rfl
  · intro x hx
    have kinds : x = .copied c lastFd ∨ x = .closed c := by
      cases log <;> simpa [or_comm] using hx
    rcases kinds with rfl | rfl
    · exact ⟨apart_of_neither rfl, rfl, rfl⟩
    · exact ⟨apart_closed other, rfl, rfl⟩

theorem client_emit {x : Event} {k : Int} : Client (s.emit x) k c e r ↔ Client s k c e r :=
  ⟨fun h => h.congr, fun h => h.congr⟩

theorem awaits_filled {bytes : List Byte} {fd : Fd} :
    Awaits (s.filled fd bytes) c e ↔ Awaits s c e := by
  have pointer : ((s.filled fd bytes).users.cell c).writeBuf = (s.users.cell c).writeBuf :=
    CArray.put_field ClientData.writeBuf rfl
  unfold Awaits
  rw [pointer]

theorem Unread.filled (unread : Unread s i c) (bytes : List Byte) :
    Unread (s.filled c bytes) i c := by
  intro k f e r client apart awaits
  have pointer : ((s.filled c bytes).users.cell f).writeBuf = (s.users.cell f).writeBuf :=
    CArray.put_field ClientData.writeBuf rfl
  rw [pointer]
  exact unread k f e r (client_filled.mp client) apart (awaits_filled.mp awaits)

theorem Calm.emit {a : Answers} {x : Event} (calm : Calm s (.turn a)) :
    Calm (s.emit x) (.turn a) := by
  simp only [Calm, CalmTurn, LastAlike, ReadsCalmly, Unread, client_emit] at calm ⊢
  exact calm

theorem has_out_raised : has (raised e) pollOut := has_or.mpr (.inr (by decide))

/-- A broadcast to clients that were all served leaves each of them waiting for it. -/
theorem Ledger.announced {bytes : List Byte} (inv : Inv s) (ledger : Ledger s)
    (client : Client s i c e r) (h : Announced (s.emit (.received c bytes)) c t)
    (text : ∀ k f e r, Client s k f e r → k ≠ i → cString (s.users.cell c).buf = some bytes)
    (served : ∀ k f e r, Client s k f e r → k ≠ i → ¬ Awaits s f e) : Ledger t := by
  obtain ⟨new, log, only, -⟩ := h.history
  have silent : ∀ fd, ∀ x ∈ new, Silent fd x := by
    intro fd x hx
    obtain ⟨f', -, rfl⟩ := only x hx
    exact ⟨apart_of_neither rfl, rfl, rfl⟩
  have own : ∀ x ∈ Event.received c bytes :: new, Silent c x := by
    intro x hx
    rcases List.mem_cons.mp hx with rfl | later
    · exact ⟨apart_of_neither rfl, rfl, by simp [heard]⟩
    · exact silent c x later
  have extended : t.log = s.log ++ Event.received c bytes :: new := by simpa [St.emit] using log
  have strings : ∀ p, t.stringAt p = s.stringAt p := stringAt_congr fun owner => (h.users owner).1
  have origin : ∀ {k fd e r}, Client t k fd e r →
      ∃ e0, Client s k fd e0 r ∧ e = (if fd = c then e0 else raised e0) ∧
        (t.users.cell fd).writeBuf = if fd = c then (s.users.cell fd).writeBuf else .buf c := by
    intro k fd e r after
    obtain ⟨e0, before, mask⟩ := after.of_announced (inv.emit rfl) h
    exact ⟨e0, client_emit.mp before, mask, h.pointers k fd e0 r before⟩
  intro k fd e' r' after
  obtain ⟨e0, before, rfl, pointer⟩ := origin after
  by_cases sender : fd = c
  · subst sender
    rw [if_pos rfl] at pointer ⊢
    exact ledger.keeps extended ⟨⟨k, r', before⟩, pointer, fun _ => strings _, own⟩
  · rw [if_neg sender] at pointer ⊢
    constructor
    case waiting =>
      intro _
      have apart : k ≠ i := by
        rintro rfl
        exact sender (before.same client).1
      obtain ⟨seg, on, balance⟩ :=
        (ledger k fd e0 r' before).served (served k fd e0 r' before apart)
      refine ⟨seg ++ [.received c bytes] ++ new, bytes, ?_, ?_, ?_⟩
      · rw [log]
        apply tenure_silent _ (silent fd)
        exact tenure_append on (apart_of_all_neither (by simp [Event.life]))
      · rw [pointer, strings]
        exact text k fd e0 r' before apart
      · have message : heard fd [.received c bytes] = [bytes] := by simp [heard, Ne.symm sender]
        have unsent : sentTo fd [.received c bytes] = [] := rfl
        simp only [sentTo_append, heard_append, sentTo_silent (silent fd),
          heard_silent (silent fd), balance, message, unsent, List.append_nil]
    case served =>
      -- every recipient waits now
      intro idle
      exact absurd ⟨has_out_raised, by simp [pointer]⟩ idle

/-- Serving a waiting client settles its account. -/
theorem Ledger.flush {stray : List Byte} (inv : Inv s) (ledger : Ledger s)
    (client : Client s i c e r) (writes : Writes r) (pending : (s.users.cell c).writeBuf ≠ .null) :
    Ledger (s.flush i c e r ((s.stringAt (s.users.cell c).writeBuf).getD stray)) := by
  obtain ⟨seg, text, on, string, balance⟩ :=
    (ledger i c e r client).waiting ⟨client.out inv writes.1, pending⟩
  rw [string, Option.getD_some]
  have neutral : ∀ {fd}, ∀ x ∈ [Event.readPending c (s.users.cell c).writeBuf, .sent c text,
      .reset c], Apart Event.life fd x := fun {fd} => apart_of_all_neither (by simp [Event.life])
  intro k fd e' r' after
  rcases client.of_flush after with ⟨-, rfl, -, -⟩ | ⟨apart, before⟩
  · constructor
    case waiting => exact fun awaits => absurd (by simp) awaits.2
    case served =>
      intro _
      refine ⟨_, tenure_append on neutral, ?_⟩
      rw [heard_append, sentTo_append, balance]
      simp [sentTo, heard]
  · have other : fd ≠ c := before.ne inv client apart
    apply ledger.keeps rfl
    refine ⟨⟨k, r', before⟩, by simp [other], fun _ => ?_, ?_⟩
    · apply stringAt_congr
      exact fun owner => CArray.put_field ClientData.buf rfl
    · intro x hx
      refine ⟨neutral x hx, ?_, ?_⟩
      all_goals
        simp only [List.mem_cons, List.not_mem_nil, or_false] at hx
        rcases hx with rfl | rfl | rfl <;> simp [sentTo, heard, Ne.symm other]

theorem Calm.reads {a : Answers} (calm : Calm s (.turn a)) (ctl : s.ctl = .scanning i)
    (client : Client s i c e r) (reads : Reads r) : ReadsCalmly s i a c :=
  (calm i ctl c e r client).2 reads

theorem Calm.hangs {a : Answers} {lastFd : Fd} {e' r' : Mask} (calm : Calm s (.turn a))
    (ctl : s.ctl = .scanning i) (client : Client s i c e r) (hangs : HangsUp r)
    (last : Client s s.userCounter lastFd e' r') :
    Unread s i c ∨ cString (s.users.cell c).buf = cString (s.users.cell lastFd).buf := by
  rcases (calm i ctl c e r client).1 hangs with final | unread | alike
  · subst final
    rw [(client.same last).1]
    exact .inr rfl
  · exact .inl unread
  · exact .inr (alike lastFd e' r' last)

/-- The entry that a removal overwrites may have been cleared before. -/
theorem remove_filled {lastFd : Fd} {bytes : List Byte} {tail : List Event} (other : lastFd ≠ c) :
    (s.filled c bytes).remove i c lastFd tail = s.remove i c lastFd tail := by
  simp [St.remove, St.filled, other]

theorem Ledger.turn {a : Answers} (inv : Inv s) (back : Backed s) (ledger : Ledger s)
    (ctl : s.ctl = .scanning i) (calm : Calm s (.turn a)) (turn : Turn .testPoll s i a t) :
    Ledger t := by
  cases turn with
  | idle => exact ledger.congr
  | refuse c addr _ fresh => exact ledger.refuse inv fresh
  | enroll c addr _ fresh _ => exact ledger.enroll inv fresh
  | hangup fd lastFd e r e' r' client hangs last =>
    exact ledger.remove inv client .hangup (calm.hangs ctl client hangs last)
  | failed fd lastFd e r e' r' errno client reads answer _ last =>
    have calmly := calm.reads ctl client reads
    simp only [ReadsCalmly, answer] at calmly
    rcases calmly with unread | ⟨-, final, alike⟩
    · have cleared := ledger.filled back client unread []
      exact cleared.remove (inv.filled fd []) (client_filled.mpr client) .failed
        (.inl (unread.filled []))
    · -- the copied entry hides that the buffer was cleared
      have other : lastFd ≠ fd := last.ne inv client (Ne.symm final)
      rw [remove_filled other]
      exact ledger.remove inv client .failed (.inr (alike lastFd e' r' last))
  | cleared fd e r client reads answer =>
    have calmly := calm.reads ctl client reads
    have unread : Unread s i fd := by
      rcases answer with again | closed
      · simpa [ReadsCalmly, again] using calmly
      · simpa [ReadsCalmly, closed] using calmly
    exact (ledger.filled back client unread []).congr
  | heard fd e r bytes m client reads answer nonempty short run =>
    have calmly := calm.reads ctl client reads
    simp only [ReadsCalmly, answer] at calmly
    obtain ⟨unread, clean⟩ := calmly
    have filled := ledger.filled back client unread bytes
    have ready : Inv (s.filled fd bytes) := inv.filled fd bytes
    refine Ledger.congr (s := m) ?_
    apply filled.announced ready (client_filled.mpr client)
      (broadcast_announced (ready.emit rfl) run)
    · intro k f e' r' other apart
      have zeroFree := (clean nonempty k f e' r' (client_filled.mp other) apart).1
      rw [St.filled_users, CArray.put_cell_same]
      exact cString_overlay_replicate (by unfold bufferSize at *; omega) zeroFree
    · intro k f e' r' other apart awaits
      exact (clean nonempty k f e' r' (client_filled.mp other) apart).2
        (awaits_filled.mp awaits)
  | nothing fd e r _ _ _ =>
    have read : Ledger (s.emit (.readPending fd .null)) :=
      ledger.emit fun f => ⟨apart_of_neither rfl, rfl, rfl⟩
    exact read.congr
  | flushed fd e r client writes pending => exact ledger.flush inv client writes pending

theorem Ledger.move {a : Input} (inv : Inv s) (back : Backed s) (ledger : Ledger s)
    (calm : Calm s a) (move : Move .testPoll s a t) : Ledger t := by
  cases move with
  | polled revents t _ polled =>
    refine ledger.frame [] (by simp [polled.log]) ?_
    intro k fd e r client
    obtain ⟨r0, before, -⟩ := client.of_polled inv polled
    refine ⟨⟨k, r0, before⟩, by rw [polled.users], fun _ => ?_, by simp⟩
    exact stringAt_congr (by simp [polled.users]) _
  | left => exact ledger.congr
  | passed i a _ _ => exact ledger.congr
  | turn i a fd e r t ctl _ _ _ _ turn =>
    have examined : Ledger (s.emit (.examined fd r)) :=
      ledger.emit fun f => ⟨apart_of_neither rfl, rfl, rfl⟩
    exact examined.turn (inv.emit rfl) (back.emit fd r) ctl calm.emit turn

end Steps

theorem reachable_ledger {s : St} (h : ((machine .testPoll).guard Calm).Reachable s) :
    Ledger s := by
  refine h.invariant ?_ ?_
  · rintro s ⟨listenfd, files, memory, -, -, rfl⟩
    have empty : ∀ {k fd e r}, ¬ Client (initial .testPoll listenfd files memory) k fd e r := by
      intro k fd e r client
      have lower := client.lower
      have upper : k ≤ 0 := client.upper
      omega
    exact fun k fd e r client => absurd client empty
  · intro s a t reach ledger lawful run
    have base := reach.of_guard
    exact ledger.move (reachable_inv base) (reachable_backed base) lawful.2
      (reachable_move base lawful.1 run)

theorem Ledger.delivers {s : St} (inv : Inv s) (ledger : Ledger s) : Delivers s := by
  intro fd seg on
  have member : fd ∈ live Event.life s.log := tenure_isSome.mp (by simp [on])
  obtain ⟨k, ⟨lower, upper⟩, slot⟩ := (inv.slotTable.owned fd).mp member
  obtain ⟨fd', e, r, client⟩ := inv.client lower upper
  obtain rfl : fd' = fd := by
    rw [client.slot] at slot
    exact Option.some.inj slot
  by_cases awaits : Awaits s fd' e
  · obtain ⟨seg', text, on', -, balance⟩ := (ledger k fd' e r client).waiting awaits
    obtain rfl := Option.some.inj (on'.symm.trans on)
    exact ⟨[text], balance.symm⟩
  · obtain ⟨seg', on', balance⟩ := (ledger k fd' e r client).served awaits
    obtain rfl := Option.some.inj (on'.symm.trans on)
    rw [balance]

/-- In a run whose every turn is calm, what the POLLOUT branch has sent to a client is a prefix
of what the other clients have said to it. -/
theorem calm_delivers (s : St) (h : ((machine .testPoll).guard Calm).Reachable s) :
    Delivers s :=
  (reachable_ledger h).delivers (reachable_inv h.of_guard)

/-! Two clients join, the one on 5 says "hi" and the one on 6 is served: every turn is calm. -/

instance (s : St) (a : Input) : Decidable (((machine .testPoll).guard Calm).Lawful s a) :=
  inferInstanceAs (Decidable (Lawful s a ∧ Calm s a))

def calmlyGreeted : St :=
  (((machine .testPoll).guard Calm).replay (boot .testPoll) (joins ++ greeting)).getD
    (boot .testPoll)

theorem calmlyGreeted_reachable : ((machine .testPoll).guard Calm).Reachable calmlyGreeted := by
  have start : ((machine .testPoll).guard Calm).Reachable (boot .testPoll) :=
    .start ⟨3, {0, 1, 2, 3}, _, by simp, by simp, rfl⟩
  exact start.replay_getD (joins ++ greeting)

theorem calm_delivers_greeted :
    (tenure Event.life 6 calmlyGreeted.log).map (sentTo 6) = some [[104, 105]] ∧
      Delivers calmlyGreeted :=
  ⟨by decide +kernel, calm_delivers calmlyGreeted calmlyGreeted_reachable⟩

/-- The client on 5 speaks twice before the client on 6 is served, which gets the second
message only. -/
def hurry : List Input :=
  [reports [0, pollIn, 0], idleTurn, recvTurn [120], idleTurn, idleTurn,
    reports [0, pollIn, pollOut], idleTurn, recvTurn [121], idleTurn]

theorem hurried_skips : ∃ s, (machine .testPoll).Reachable s ∧ ¬ Delivers s := by
  obtain ⟨s, reach, skipped⟩ := (joined_reachable .testPoll).of_replay
    (p := fun s => decide ((tenure Event.life 6 s.log).map
      (fun seg => (sentTo 6 seg, heard 6 seg)) = some ([[121]], [[120], [121]])))
    hurry (by decide +kernel)
  refine ⟨s, reach, fun delivers => ?_⟩
  obtain ⟨seg, on, told⟩ := Option.map_eq_some_iff.mp (of_decide_eq_true skipped)
  obtain ⟨sent, said⟩ := Prod.mk.inj told
  have order := delivers 6 seg on
  rw [sent, said] at order
  exact absurd order (by decide)

end JiajiaNetwork.PollChat
