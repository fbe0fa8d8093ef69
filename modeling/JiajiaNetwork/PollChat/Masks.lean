/- The masks of `test_poll.c`. Both updates add the complement of the bit they should take away,
   so the first broadcast that reaches a client makes it ask for POLLIN and POLLOUT for good. -/
import JiajiaNetwork.PollChat.Delivery

set_option autoImplicit false
set_option relaxedAutoImplicit false

namespace JiajiaNetwork.PollChat

open Lib

/-- A broadcast has set the pending pointer of `fd`. -/
def Reached (fd : Fd) (seg : List Event) : Prop := ∃ source, .assigned fd source ∈ seg

/-- What a client asks for is what is left to do for it. -/
structure Asks (fd : Fd) (seg : List Event) (e : Mask) (pointer : WriteBuf) : Prop where
  reached : Reached fd seg → (has e pollOut ↔ pointer ≠ .null) ∧ (has e pollIn ↔ pointer = .null)
  unreached : ¬ Reached fd seg → has e pollIn ∧ ¬ has e pollOut

def InterestFollows (s : St) : Prop :=
  ∀ k fd e r, Client s k fd e r → ∃ seg, tenure Event.life fd s.log = some seg ∧
    Asks fd seg e (s.users.cell fd).writeBuf

/-- `recv` has returned nothing from the other clients since a client was accepted. -/
def Unheard (s : St) : Prop :=
  ∀ fd seg, tenure Event.life fd s.log = some seg → heard fd seg = []

/-- The mask of a client that heard nothing is the initial one, and any other asks for both. -/
structure Masked (fd : Fd) (seg : List Event) (e : Mask) : Prop where
  unheard : heard fd seg = [] → ¬ Reached fd seg ∧ e = (pollIn ||| pollRdhup ||| pollErr)
  told : heard fd seg ≠ [] → Reached fd seg ∧ has e pollIn ∧ has e pollOut

def AllMasked (s : St) : Prop :=
  ∀ k fd e r, Client s k fd e r → ∃ seg, tenure Event.life fd s.log = some seg ∧ Masked fd seg e

/-- Events that tell a client nothing and assign it nothing. -/
structure Untold (fd : Fd) (e : Event) : Prop extends Apart Event.life fd e where
  heard : heard fd [e] = []
  unassigned : ∀ source, e ≠ .assigned fd source

section Segments

variable {fd c : Fd} {seg new : List Event} {e : Mask}

theorem reached_append : Reached fd (seg ++ new) ↔ Reached fd seg ∨ Reached fd new := by
  simp only [Reached, List.mem_append, exists_or]

theorem Masked.has_in (h : Masked fd seg e) : has e pollIn := by
  by_cases none : heard fd seg = []
  · rw [(h.unheard none).2]
    decide
  · exact (h.told none).2.1

theorem Masked.append (h : Masked fd seg e) (untold : ∀ x ∈ new, Untold fd x) :
    Masked fd (seg ++ new) e := by
  have quiet : heard fd (seg ++ new) = heard fd seg := by
    rw [heard_append, heard_nil fun x mem => (untold x mem).heard, List.append_nil]
  have same : Reached fd (seg ++ new) ↔ Reached fd seg := by
    rw [reached_append, or_iff_left_iff_imp]
    rintro ⟨source, mem⟩
    exact absurd rfl ((untold _ mem).unassigned source)
  refine ⟨?_, ?_⟩
  · rw [quiet, same]
    exact h.unheard
  · rw [quiet, same]
    exact h.told

theorem has_in_raised (asks : has e pollIn) : has (raised e) pollIn :=
  has_or.mpr (.inl (has_or.mpr (.inl asks)))

/-- Data for the client, followed by the assignment to its pointer. -/
theorem Masked.raise {bytes : List Byte} (h : Masked fd seg e) (other : c ≠ fd)
    (assigned : .assigned fd c ∈ new) :
    Masked fd (seg ++ .received c bytes :: new) (raised e) := by
  have told : heard fd (seg ++ .received c bytes :: new) ≠ [] := by
    rw [heard_append, ← List.singleton_append, heard_append]
    simp [heard, other]
  refine ⟨fun none => absurd none told, fun _ => ⟨?_, has_in_raised h.has_in, has_out_raised⟩⟩
  exact ⟨c, List.mem_append_right _ (List.mem_cons_of_mem _ assigned)⟩

end Segments

section Steps

variable {s t : St} {i : Int} {c fd : Fd} {e r : Mask} {new : List Event}

theorem AllMasked.keeps {l : Int} (masked : AllMasked s) (before : Client s l fd e r)
    (log : t.log = s.log ++ new) (untold : ∀ x ∈ new, Untold fd x) :
    ∃ seg, tenure Event.life fd t.log = some seg ∧ Masked fd seg e := by
  obtain ⟨seg, on, mask⟩ := masked l fd e r before
  refine ⟨seg ++ new, ?_, mask.append untold⟩
  rw [log]
  exact tenure_append on fun x mem => (untold x mem).toApart

/-- Steps that keep the masks and tell no client anything. -/
theorem AllMasked.frame (masked : AllMasked s) (new : List Event) (log : t.log = s.log ++ new)
    (origin : ∀ k fd e r, Client t k fd e r →
      (∃ l r0, Client s l fd e r0) ∧ ∀ x ∈ new, Untold fd x) : AllMasked t := by
  intro k fd e r client
  obtain ⟨⟨l, r0, before⟩, untold⟩ := origin k fd e r client
  exact masked.keeps before log untold

theorem AllMasked.congr (masked : AllMasked s) (slots : t.fds = s.fds := by rfl)
    (counter : t.userCounter = s.userCounter := by rfl) (log : t.log = s.log := by rfl) :
    AllMasked t :=
  masked.frame [] (by rw [log, List.append_nil]) fun k _ _ r client =>
    ⟨⟨k, r, client.congr slots.symm counter.symm⟩, by simp⟩

/-- A step that logs one event which tells nobody anything. -/
theorem AllMasked.emit {x : Event} (masked : AllMasked s) (untold : ∀ fd, Untold fd x) :
    AllMasked (s.emit x) := by
  refine masked.frame (t := s.emit x) [x] rfl fun k fd e r client => ⟨⟨k, r, client.congr⟩, ?_⟩
  intro y mem
  rw [List.mem_singleton.mp mem]
  exact untold fd

theorem AllMasked.refuse (inv : Inv s) (masked : AllMasked s) (fresh : Fresh s c) :
    AllMasked (s.refuse i c) := by
  refine masked.frame _ rfl fun k fd e r client => ?_
  have before : Client s k fd e r := client.congr
  have other := before.fresh inv fresh
  refine ⟨⟨k, r, before⟩, ?_⟩
  simp only [List.mem_cons, List.not_mem_nil, or_false]
  rintro x (rfl | rfl | rfl)
  · exact ⟨apart_accepted other, rfl, by simp⟩
  · exact ⟨apart_of_neither rfl, rfl, by simp⟩
  · exact ⟨apart_closed other, rfl, by simp⟩

theorem AllMasked.enroll {addr : SockaddrIn} (inv : Inv s) (masked : AllMasked s)
    (fresh : Fresh s c) : AllMasked (s.enroll i c addr) := by
  intro k fd e r client
  rcases client.of_enroll with before | ⟨rfl, rfl, -⟩
  · have other := before.fresh inv fresh
    apply masked.keeps before rfl
    intro x mem
    rw [List.mem_singleton.mp mem]
    exact ⟨apart_accepted other, rfl, by simp⟩
  · refine ⟨[], tenure_opens rfl, fun _ => ⟨?_, rfl⟩, fun told => absurd rfl told⟩
    rintro ⟨source, mem⟩
    exact absurd mem List.not_mem_nil

theorem AllMasked.remove {lastFd : Fd} {tail : List Event} (inv : Inv s) (masked : AllMasked s)
    (client : Client s i c e r) (log : RemovalLog c lastFd tail) :
    AllMasked (s.remove i c lastFd tail) := by
  refine masked.frame _ rfl fun k fd e' r' stays => ?_
  obtain ⟨l, apart, before⟩ := Client.of_remove client stays
  have other : fd ≠ c := before.ne inv client apart
  refine ⟨⟨l, r', before⟩, fun x mem => ?_⟩
  have kinds : x = .copied c lastFd ∨ x = .closed c := by
    cases log <;> simpa [or_comm] using mem
  rcases kinds with rfl | rfl
  · exact ⟨apart_of_neither rfl, rfl, by simp⟩
  · exact ⟨apart_closed other, rfl, by simp⟩

/-- A broadcast raises the mask of everyone it reaches. -/
theorem AllMasked.announced {bytes : List Byte} (inv : Inv s) (masked : AllMasked s)
    (h : Announced (s.emit (.received c bytes)) c t) : AllMasked t := by
  obtain ⟨new, log, only, all⟩ := h.history
  have extended : t.log = s.log ++ .received c bytes :: new := by simpa [St.emit] using log
  have apart : ∀ {fd}, ∀ x ∈ .received c bytes :: new, Apart Event.life fd x := by
    intro fd x mem
    rcases List.mem_cons.mp mem with rfl | later
    · exact apart_of_neither rfl
    · obtain ⟨f', -, rfl⟩ := only x later
      exact apart_of_neither rfl
  intro k fd e r client
  obtain ⟨e0, before, rfl⟩ := client.of_announced (inv.emit rfl) h
  have before' : Client s k fd e0 r := before.congr
  by_cases sender : fd = c
  · subst sender
    rw [if_pos rfl]
    apply masked.keeps before' extended
    intro x mem
    refine ⟨apart x mem, ?_, ?_⟩
    · rcases List.mem_cons.mp mem with rfl | later
      · simp [heard]
      · obtain ⟨f', -, rfl⟩ := only x later
        rfl
    · rintro source rfl
      rcases List.mem_cons.mp mem with same | later
      · cases same
      · obtain ⟨f', ne, same⟩ := only _ later
        exact ne (Event.assigned.inj same).1.symm
  · rw [if_neg sender]
    obtain ⟨seg, on, mask⟩ := masked k fd e0 r before'
    refine ⟨seg ++ .received c bytes :: new, extended ▸ tenure_append on apart, ?_⟩
    exact mask.raise (Ne.symm sender) (all k fd e0 r before sender)

/-- The update behind a send adds POLLIN and takes nothing away. -/
theorem AllMasked.flush (inv : Inv s) (masked : AllMasked s) (client : Client s i c e r)
    (writes : Writes r) (text : List Byte) : AllMasked (s.flush i c e r text) := by
  have untold : ∀ fd, ∀ x ∈ [Event.readPending c (s.users.cell c).writeBuf, .sent c text,
      .reset c], Untold fd x := by
    intro fd x mem
    simp only [List.mem_cons, List.not_mem_nil, or_false] at mem
    rcases mem with rfl | rfl | rfl
    · exact ⟨apart_of_neither rfl, rfl, by simp⟩
    · exact ⟨apart_of_neither rfl, rfl, by simp⟩
    · exact ⟨apart_of_neither rfl, rfl, by simp⟩
  intro k fd e' r' after
  rcases client.of_flush after with ⟨rfl, rfl, rfl, rfl⟩ | ⟨-, before⟩
  · obtain ⟨seg, on, mask⟩ := masked.keeps (t := s.flush k fd e r' text) client rfl (untold fd)
    refine ⟨seg, on, fun none => ?_, fun told => ?_⟩
    · rw [(mask.unheard none).2] at client
      exact absurd (client.out inv writes.1) not_out_initial
    · obtain ⟨reached, -, out⟩ := mask.told told
      exact ⟨reached, has_or.mpr (.inr (by decide)), has_or.mpr (.inl (has_or.mpr (.inl out)))⟩
  · exact masked.keeps before rfl (untold fd)

theorem AllMasked.turn {a : Answers} (inv : Inv s) (masked : AllMasked s)
    (turn : Turn .testPoll s i a t) : AllMasked t := by
  cases turn with
  | idle => exact masked.congr
  | refuse c addr _ fresh => exact masked.refuse inv fresh
  | enroll c addr _ fresh _ => exact masked.enroll inv fresh
  | hangup fd lastFd e r e' r' client _ _ => exact masked.remove inv client .hangup
  | failed fd lastFd e r e' r' errno client _ _ _ _ =>
    have cleared : AllMasked (s.filled fd []) := masked.congr
    exact cleared.remove (inv.filled fd []) (client_filled.mpr client) .failed
  | cleared fd e r _ _ _ => exact masked.congr
  | heard fd e r bytes m client _ _ _ _ run =>
    have ready : Inv (s.filled fd bytes) := inv.filled fd bytes
    have filled : AllMasked (s.filled fd bytes) := masked.congr
    refine AllMasked.congr (s := m) ?_
    exact filled.announced ready (broadcast_announced (ready.emit rfl) run)
  | nothing fd e r client _ _ =>
    refine AllMasked.congr (s := s.emit (.readPending fd .null)) (masked.emit fun f => ?_)
    exact ⟨apart_of_neither rfl, rfl, by simp⟩
  | flushed fd e r client writes _ => exact masked.flush inv client writes _

theorem AllMasked.move {a : Input} (inv : Inv s) (masked : AllMasked s)
    (move : Move .testPoll s a t) : AllMasked t := by
  cases move with
  | polled revents t _ polled =>
    refine masked.frame [] (by rw [polled.log, List.append_nil]) fun k f e r client => ?_
    obtain ⟨r0, before, -⟩ := client.of_polled inv polled
    exact ⟨⟨k, r0, before⟩, by simp⟩
  | left => exact masked.congr
  | passed i a _ _ => exact masked.congr
  | turn i a fd e r t _ _ _ _ _ turn =>
    refine AllMasked.turn (inv.emit rfl) (masked.emit fun f => ?_) turn
    exact ⟨apart_of_neither rfl, rfl, by simp⟩

end Steps

theorem reachable_allMasked {s : St} (h : (machine .testPoll).Reachable s) : AllMasked s := by
  refine h.invariant ?_ ?_
  · rintro s ⟨listenfd, files, memory, -, -, rfl⟩ k fd e r client
    have lower := client.lower
    have upper : k ≤ 0 := client.upper
    omega
  · intro s a t reach masked lawful run
    exact masked.move (reachable_inv reach) (reachable_move reach lawful run)

/-- A mask that asks for both is right for no pointer. -/
theorem Masked.asks_iff {fd : Fd} {seg : List Event} {e : Mask} {pointer : WriteBuf}
    (h : Masked fd seg e) : Asks fd seg e pointer ↔ heard fd seg = [] := by
  constructor
  · intro asks
    by_contra told
    obtain ⟨reached, asksIn, out⟩ := h.told told
    obtain ⟨outIff, inIff⟩ := asks.reached reached
    exact outIff.mp out (inIff.mp asksIn)
  · intro none
    obtain ⟨unreached, rfl⟩ := h.unheard none
    exact ⟨fun reached => absurd reached unreached, fun _ => ⟨by decide, not_out_initial⟩⟩

theorem AllMasked.follows_iff {s : St} (inv : Inv s) (masked : AllMasked s) :
    InterestFollows s ↔ Unheard s := by
  constructor
  · intro follows fd seg on
    have member : fd ∈ live Event.life s.log := by
      rw [← tenure_isSome, on]
      rfl
    obtain ⟨k, ⟨lower, upper⟩, owner⟩ := (inv.slotTable.owned fd).mp member
    obtain ⟨fd', e, r, client⟩ := inv.client lower upper
    obtain rfl : fd' = fd := by
      rw [client.slot] at owner
      exact Option.some.inj owner
    obtain ⟨seg', on', asks⟩ := follows k fd' e r client
    obtain ⟨seg'', on'', mask⟩ := masked k fd' e r client
    obtain rfl := Option.some.inj (on.symm.trans on')
    obtain rfl := Option.some.inj (on.symm.trans on'')
    exact mask.asks_iff.mp asks
  · intro unheard k fd e r client
    obtain ⟨seg, on, mask⟩ := masked k fd e r client
    exact ⟨seg, on, mask.asks_iff.mpr (unheard fd seg on)⟩

/-- In every reachable state, at the call of `poll` and elsewhere, the requests of the clients
follow their pending texts exactly if none of them has heard anything yet. -/
theorem interest_follows_iff {s : St} (h : (machine .testPoll).Reachable s) :
    InterestFollows s ↔ Unheard s :=
  (reachable_allMasked h).follows_iff (reachable_inv h)

theorem interest_follows_iff_joined : InterestFollows (joined .testPoll) := by
  refine (interest_follows_iff (joined_reachable .testPoll)).mpr fun fd seg on => ?_
  have member : fd ∈ live Event.life (joined .testPoll).log := by
    rw [← tenure_isSome, on]
    rfl
  have clients : ∀ c ∈ live Event.life (joined .testPoll).log,
      ((tenure Event.life c (joined .testPoll).log).all fun seg => (heard c seg).isEmpty) =
        true := by
    decide +kernel
  have quiet := clients fd member
  rw [on] at quiet
  exact List.isEmpty_iff.mp quiet

/-- The next call of `poll` after the client on 6 was sent what 5 has said. -/
def attended : St := ((machine .testPoll).replay greeted [idleTurn]).getD greeted

/-- The client on 6 goes on asking for POLLOUT with nothing pending. -/
theorem not_interest_follows : (machine .testPoll).Reachable attended ∧ attended.ctl = .polling ∧
    (attended.users.cell 6).writeBuf = .null ∧ ¬ InterestFollows attended := by
  have reach : (machine .testPoll).Reachable attended := greeted_reachable.replay_getD _
  refine ⟨reach, by decide +kernel, by decide +kernel, fun follows => ?_⟩
  have told : ((tenure Event.life 6 attended.log).all fun seg => !(heard 6 seg).isEmpty) =
      true := by
    decide +kernel
  have connected : (tenure Event.life 6 attended.log).isSome = true := by decide +kernel
  obtain ⟨seg, on⟩ := Option.isSome_iff_exists.mp connected
  rw [on] at told
  have silent := ((reachable_allMasked reach).follows_iff (reachable_inv reach)).mp follows 6 seg on
  rw [Option.all_some, silent] at told
  cases told

end JiajiaNetwork.PollChat
