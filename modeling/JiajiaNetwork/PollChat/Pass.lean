/- One pass of the `for` loop over the results of a `poll`. The bound shrinks with every removal
   and the last slot moves to the place of the removed one, where the loop stands still: what is
   ahead of the index is what was ahead before, until nothing is left. -/
import JiajiaNetwork.PollChat.Network

set_option autoImplicit false
set_option relaxedAutoImplicit false

namespace JiajiaNetwork.PollChat

open Lib

/-- The program between two calls of `poll`, from the state in which the first returns. -/
def pass (v : Program) (s : St) : Machine St Answers where
  Start t := t = s
  Lawful t a := Lawful t (.turn a)
  step t a := step v t (.turn a)

instance (v : Program) (s t : St) (a : Answers) : Decidable ((pass v s).Lawful t a) :=
  lawfulDecidable t (.turn a)

/-- The results with which the loop examined a slot of `fd`. -/
def examinations (fd : Fd) (log : List Event) : List Mask :=
  log.filterMap fun
    | .examined f r => if f = fd then some r else none
    | _ => none

/-- Slot `k` holds the client on `fd` and its result, whatever it asks for. -/
def Listed (s : St) (k : Int) (fd : Fd) (r : Mask) : Prop := ∃ e, Client s k fd e r

/-- The turns that can follow at index `i`. Only the first slot may add a client. -/
def remaining (s : St) (i : Int) : Int := s.userCounter + 1 - i + if i = 0 then 1 else 0

/-- From `j` on, the slots of `t` hold what the slots behind `i` held, or a newcomer. -/
structure Advances (s : St) (i : Int) (t : St) (j : Int) : Prop where
  ctl : t.ctl = .scanning j
  lower : 0 < j
  upper : j ≤ t.userCounter + 1
  less : remaining t j < remaining s i
  kept : ∀ l fd r, i < l → Listed s l fd r → ∃ l', j ≤ l' ∧ Listed t l' fd r
  ahead : ∀ l fd r, j ≤ l → Listed t l fd r →
    (∃ l', i < l' ∧ Listed s l' fd r) ∨ i = 0 ∧ Fresh s fd

section Turns

variable {v : Program} {s t u : St} {i j : Int} {fd : Fd} {e r : Mask} {a : Answers}

/-- A turn that leaves the list alone. -/
theorem Advances.on (lower : 0 ≤ i) (upper : i ≤ s.userCounter) (ctl : t.ctl = .scanning (i + 1))
    (counter : t.userCounter = s.userCounter)
    (listed : ∀ l fd r, Listed t l fd r ↔ Listed s l fd r) : Advances s i t (i + 1) where
  ctl := ctl
  lower := by omega
  upper := by omega
  less := by
    unfold remaining
    rw [counter]
    split_ifs <;> omega
  kept l fd r behind h := ⟨l, by omega, (listed l fd r).mpr h⟩
  ahead l fd r behind h := .inl ⟨l, by omega, (listed l fd r).mp h⟩

theorem listed_congr (slots : t.fds = s.fds := by rfl)
    (counter : t.userCounter = s.userCounter := by rfl) (l : Int) (fd : Fd) (r : Mask) :
    Listed t l fd r ↔ Listed s l fd r :=
  exists_congr fun _ => ⟨fun h => h.congr slots.symm counter.symm, fun h => h.congr slots counter⟩

/-- Only the list, the counter and the open descriptors say what is ahead. -/
theorem Advances.source (h : Advances u i t j) (slots : s.fds = u.fds := by rfl)
    (counter : s.userCounter = u.userCounter := by rfl) (files : s.files = u.files := by rfl) :
    Advances s i t j where
  ctl := h.ctl
  lower := h.lower
  upper := h.upper
  less := by
    have less := h.less
    unfold remaining at less ⊢
    rwa [counter]
  kept l f r behind listed := h.kept l f r behind ((listed_congr slots counter l f r).mp listed)
  ahead l f r behind listed := by
    rcases h.ahead l f r behind listed with ⟨l', behind', old⟩ | ⟨first, fresh⟩
    · exact .inl ⟨l', behind', (listed_congr slots counter l' f r).mpr old⟩
    · exact .inr ⟨first, files ▸ fresh.1, fresh.2⟩

theorem Advances.enroll {addr : SockaddrIn} (fresh : Fresh s fd) (nonneg : 0 ≤ s.userCounter) :
    Advances s 0 (s.enroll 0 fd addr) 1 where
  ctl := rfl
  lower := by decide
  upper := by
    simp only [St.enroll_userCounter]
    omega
  less := by
    unfold remaining
    simp
  kept l f r behind h := by
    obtain ⟨e, client⟩ := h
    have upper := client.upper
    refine ⟨l, by omega, e, client.lower, by simp only [St.enroll_userCounter]; omega, ?_⟩
    rw [St.enroll_fds, CArray.put_cell_of_ne _ _ (by omega)]
    exact client.slot
  ahead l f r behind h := by
    obtain ⟨e, client⟩ := h
    rcases client.of_enroll with old | ⟨rfl, -, -⟩
    · exact .inl ⟨l, by omega, e, old⟩
    · exact .inr ⟨rfl, fresh⟩

/-- A removal puts the last slot where the loop goes on. -/
theorem Advances.remove {lastFd : Fd} {tail : List Event} (client : Client s i fd e r) :
    Advances s i (s.remove i fd lastFd tail) i where
  ctl := rfl
  lower := client.lower
  upper := by
    have upper := client.upper
    simp only [St.remove_userCounter]
    omega
  less := by
    unfold remaining
    simp only [St.remove_userCounter]
    omega
  kept l f r0 behind h := by
    obtain ⟨e0, listed⟩ := h
    obtain ⟨k, low, high, moved⟩ := swapLast_behind (f := s.fds.cell) behind listed.upper
    have lower := client.lower
    exact ⟨k, low, e0, by omega, high, moved.trans listed.slot⟩
  ahead l f r0 behind h := by
    obtain ⟨e0, listed⟩ := h
    have upper := listed.upper
    simp only [St.remove_userCounter] at upper
    obtain ⟨k, low, high, moved⟩ := swapLast_ahead (f := s.fds.cell) behind upper
    have lower := client.lower
    exact .inl ⟨k, low, e0, by omega, high, moved.symm.trans listed.slot⟩

theorem Turn.advances (inv : Inv s) (lower : 0 ≤ i) (upper : i ≤ s.userCounter)
    (turn : Turn v s i a t) (head : a.accept.isSome → i = 0) : ∃ j, Advances s i t j := by
  cases turn with
  | idle => exact ⟨_, .on lower upper rfl rfl (listed_congr)⟩
  | refuse c addr answer _ => exact ⟨_, .on lower upper rfl rfl (listed_congr)⟩
  | enroll c addr answer fresh _ =>
    obtain rfl := head (by rw [answer]; rfl)
    exact ⟨1, .enroll fresh upper⟩
  | hangup c lastFd e r e' r' client _ _ => exact ⟨i, .remove client⟩
  | failed c lastFd e r e' r' errno client _ _ _ _ =>
    exact ⟨i, .source (.remove (client_filled.mpr client))⟩
  | cleared c e r _ _ _ => exact ⟨_, .on lower upper rfl rfl (listed_congr)⟩
  | heard c e r bytes m client _ _ _ _ run =>
    have ready : Inv ((s.filled c bytes).emit (.received c bytes)) :=
      (inv.filled c bytes).emit rfl
    have spread := spread_of_broadcast ready client.lower client.upper run
    refine ⟨_, .on lower upper rfl spread.userCounter fun l f r0 => ⟨?_, ?_⟩⟩
    · rintro ⟨e0, listed⟩
      have listed' : Client m l f e0 r0 := listed.congr
      obtain ⟨e1, before⟩ := listed'.of_spread ready spread
      exact ⟨e1, before.congr⟩
    · rintro ⟨e0, listed⟩
      obtain ⟨e1, slot, -⟩ := spread.slots l _ _ _ listed.slot
      exact ⟨e1, listed.lower, spread.userCounter ▸ listed.upper, slot⟩
  | nothing c e r _ _ _ => exact ⟨_, .on lower upper rfl rfl (listed_congr)⟩
  | flushed c e r client _ _ =>
    refine ⟨_, .on lower upper rfl rfl fun l f r0 => ⟨?_, ?_⟩⟩
    · rintro ⟨e0, listed⟩
      rcases client.of_flush listed with ⟨rfl, rfl, rfl, rfl⟩ | ⟨-, before⟩
      · exact ⟨e, client⟩
      · exact ⟨e0, before⟩
    · rintro ⟨e0, listed⟩
      by_cases same : l = i
      · subst same
        obtain ⟨rfl, rfl, rfl⟩ := client.same listed
        exact ⟨e ||| ~~~pollOut ||| pollIn, client.lower, client.upper, by simp⟩
      · exact ⟨e0, listed.lower, listed.upper, by simpa [same] using listed.slot⟩

/-- The branches of a client's slot do not call `accept`. -/
theorem body_client (inv : Inv s) (client : Client s i fd e r) :
    body v s i { a with accept := none } = body v s i a := by
  have other : ¬ (fd = (s.emit (.examined fd r)).listenfd ∧ has r pollIn) :=
    fun h => (inv.sockets fd (client.open inv)).2.2.1 h.1
  simp only [body, client.get inv, Option.bind_eq_bind, Option.bind_some, dispatch, if_neg other]
  rfl

/-- What a turn of the pass does. -/
structure Examines (s : St) (i : Int) (fd : Fd) (r : Mask) (t : St) : Prop where
  lower : 0 ≤ i
  upper : i ≤ s.userCounter
  slot : (s.fds.cell i).fd = some fd ∧ (s.fds.cell i).revents = some r
  advances : ∃ j, Advances s i t j
  log : ∃ new, t.log = s.log ++ .examined fd r :: new ∧ ∀ f r, .examined f r ∉ new

theorem step_examines (inv : Inv s) (ctl : s.ctl = .scanning i) (inside : i ≤ s.userCounter)
    (lawful : Lawful s (.turn a)) (run : step v s (.turn a) = some t) :
    ∃ fd r, Examines s i fd r t := by
  obtain ⟨-, fresh, short⟩ := lawful
  have lower := inv.index i ctl
  have run' : body v s i a = some t := by
    rw [step] at run
    simpa [ctl, show i < s.userCounter + 1 by omega] using run
  -- a client's turn is one without an answer to `accept`
  obtain ⟨b, same, fresh', short', head⟩ : ∃ b : Answers, body v s i b = some t ∧
      (∀ answer ∈ b.accept, Fresh s answer.1) ∧
      (∀ bytes ∈ b.recv.toOption, bytes.length ≤ bufferSize - 1) ∧
      (b.accept.isSome → i = 0) := by
    by_cases first : i = 0
    · exact ⟨a, run', fresh, short, fun _ => first⟩
    · obtain ⟨fd, e, r, client⟩ := inv.client (k := i) (by omega) inside
      exact ⟨{ a with accept := none }, (body_client inv client).trans run', by simp, short,
        by simp⟩
  obtain ⟨fd, e, r, t', slot, run'', turn⟩ := body_turn inv lower inside fresh' short'
  obtain rfl := Option.some.inj (run''.symm.trans same)
  have ready : Inv (s.emit (.examined fd r)) := inv.emit rfl
  obtain ⟨j, advances⟩ := turn.advances ready lower inside head
  obtain ⟨new, carries⟩ := turn.carries ready
  refine ⟨fd, r, lower, inside, by rw [slot]; exact ⟨rfl, rfl⟩, ⟨j, .source advances⟩, new, ?_,
    carries.unexamined⟩
  rw [carries.log, St.emit, List.append_assoc]
  rfl

end Turns

section Survey

variable {v : Program} {s t u : St} {i : Int} {fd f : Fd} {r r0 : Mask} {seg new : List Event}

theorem examinations_append :
    examinations fd (seg ++ new) = examinations fd seg ++ examinations fd new :=
  List.filterMap_append

theorem examinations_examined (quiet : ∀ f r, .examined f r ∉ new) :
    examinations fd (.examined f r :: new) = if f = fd then [r] else [] := by
  have none : examinations fd new = [] := by
    rw [examinations, List.filterMap_eq_nil_iff]
    intro e mem
    cases e with
    | examined f r => exact absurd mem (quiet f r)
    | accepted | refused | closed | received | assigned | copied | readPending | sent | reset => rfl
  rw [← List.singleton_append, examinations_append, none, List.append_nil]
  by_cases same : f = fd
  · simp [examinations, same]
  · simp [examinations, same]

/-- The client on `fd` waits ahead of the index, or it was examined and is not listed there. -/
def Surveyed (u : St) (seg : List Event) (fd : Fd) (r : Mask) : Control → Prop
  | .scanning i => (examinations fd seg = [] ∧ ∃ l, i ≤ l ∧ Listed u l fd r) ∨
      (examinations fd seg = [r] ∧ 0 < i ∧ ∀ l r', i ≤ l → ¬ Listed u l fd r')
  | .polling => examinations fd seg = [r]
  | .left => False

theorem Listed.unique (inv : Inv s) {k l : Int} (h : Listed s k fd r) (h' : Listed s l fd r0) :
    k = l ∧ r = r0 := by
  obtain ⟨e, client⟩ := h
  obtain ⟨e', client'⟩ := h'
  obtain rfl := client.unique inv client'
  exact ⟨rfl, (client.same client').2.2⟩

theorem Examines.listed (inv : Inv s) (h : Examines s i fd r t) (client : i ≠ 0) :
    Listed s i fd r := by
  obtain ⟨fd', e, r', listed⟩ := inv.client (k := i) (by have := h.lower; omega) h.upper
  obtain ⟨slot, revents⟩ := h.slot
  rw [listed.slot] at slot revents
  obtain rfl := Option.some.inj slot
  obtain rfl := Option.some.inj revents
  exact ⟨e, listed⟩

/-- A client ahead of the index is on another descriptor than the one examined. -/
theorem Examines.ne (inv : Inv s) (h : Examines s i f r0 t) {l : Int} (behind : i < l)
    (listed : Listed s l fd r) : f ≠ fd := by
  rintro rfl
  by_cases first : i = 0
  · subst first
    obtain ⟨e, client⟩ := listed
    obtain ⟨e0, r1, slot, -⟩ := inv.listener
    have listening : some s.listenfd = some f := by
      rw [← h.slot.1, slot]
    exact (inv.sockets f (client.open inv)).2.2.1 (Option.some.inj listening).symm
  · obtain ⟨rfl, -⟩ := (h.listed inv first).unique inv listed
    omega

/-- A turn examines the client at the index, and no other. -/
theorem Surveyed.turn (inv : Inv s) (h : Examines s i f r0 t)
    (surveyed : Surveyed s seg fd r (.scanning i)) (quiet : ∀ f r, .examined f r ∉ new) :
    Surveyed t (seg ++ .examined f r0 :: new) fd r t.ctl := by
  obtain ⟨j, advances⟩ := h.advances
  rw [advances.ctl]
  unfold Surveyed
  simp only [examinations_append, examinations_examined quiet]
  -- what was not listed behind the index is not listed ahead of the next one
  have gone : 0 < i → (∀ l r', i < l → ¬ Listed s l fd r') →
      ∀ l r', j ≤ l → ¬ Listed t l fd r' := by
    intro started absent l r' ahead listed
    rcases advances.ahead l fd r' ahead listed with ⟨l', behind, old⟩ | ⟨first, -⟩
    · exact absent l' r' behind old
    · omega
  rcases surveyed with ⟨waits, l, ahead, listed⟩ | ⟨done, started, absent⟩
  · by_cases here : l = i
    · subst here
      have started : 0 < l := by
        obtain ⟨e, client⟩ := listed
        exact client.lower
      obtain ⟨e, client⟩ := listed
      obtain ⟨e', client'⟩ := h.listed inv (by omega)
      obtain ⟨rfl, -, rfl⟩ := client'.same client
      right
      refine ⟨by rw [waits, if_pos rfl, List.nil_append], advances.lower, gone started ?_⟩
      intro l' r' behind again
      obtain ⟨same, -⟩ := Listed.unique inv ⟨e, client⟩ again
      omega
    · have behind : i < l := by omega
      left
      rw [waits, if_neg (h.ne inv behind listed)]
      exact ⟨rfl, advances.kept l fd r behind listed⟩
  · right
    have other : f ≠ fd := by
      rintro rfl
      exact absent i r0 le_rfl (h.listed inv (by omega))
    rw [done, if_neg other]
    exact ⟨rfl, advances.lower, gone started fun l r' behind => absent l r' (by omega)⟩

/-- The state of a pass that started from `t`, after the turns in `steps`. -/
structure Passing (v : Program) (t : St) (steps : List (St × Answers)) (u : St) : Prop where
  reachable : (machine v).Reachable u
  going : u.ctl ≠ .left
  length : (steps.length : Int) ≤ t.userCounter + 3
  bounded : ∀ i, u.ctl = .scanning i →
    i ≤ u.userCounter + 1 ∧ steps.length + remaining u i + 1 ≤ t.userCounter + 3
  clients : ∃ seg, u.log = t.log ++ seg ∧
    ∀ k fd e r, Client t k fd e r → Surveyed u seg fd r u.ctl

theorem Passing.start (reach : (machine v).Reachable t) (ctl : t.ctl = .scanning 0) :
    Passing v t [] t where
  reachable := reach
  going := by
    rw [ctl]
    exact Control.noConfusion
  length := by
    have nonneg := (reachable_inv reach).counterNonneg
    simp only [List.length_nil]
    omega
  bounded i at_ := by
    obtain rfl := Control.scanning.inj (ctl.symm.trans at_)
    have nonneg := (reachable_inv reach).counterNonneg
    simp only [remaining, List.length_nil]
    omega
  clients := by
    refine ⟨[], (List.append_nil _).symm, fun k fd e r client => ?_⟩
    rw [ctl]
    have lower := client.lower
    exact .inl ⟨rfl, k, by omega, e, client⟩

theorem Passing.turn {steps : List (St × Answers)} {a : Answers} (passing : Passing v t steps s)
    (lawful : Lawful s (.turn a)) (run : step v s (.turn a) = some u) :
    Passing v t (steps ++ [(s, a)]) u := by
  have inv := reachable_inv passing.reachable
  have reach : (machine v).Reachable u := passing.reachable.step (a := .turn a) lawful run
  obtain ⟨seg, log, clients⟩ := passing.clients
  cases ctl : s.ctl with
  | polling =>
    have scanning := lawful.1
    rw [ctl] at scanning
    cases scanning
  | left => exact absurd ctl passing.going
  | scanning i =>
    obtain ⟨upper, length⟩ := passing.bounded i ctl
    have lower := inv.index i ctl
    have nonneg := inv.counterNonneg
    rw [ctl] at clients
    by_cases inside : i ≤ s.userCounter
    · obtain ⟨f, r0, h⟩ := step_examines inv ctl inside lawful run
      obtain ⟨j, advances⟩ := h.advances
      obtain ⟨new, log', quiet⟩ := h.log
      have less := advances.less
      have bounded : (steps.length : Int) + 1 + remaining u j + 1 ≤ t.userCounter + 3 := by omega
      have left : 0 ≤ remaining u j := by
        have := advances.upper
        unfold remaining
        split_ifs <;> omega
      refine ⟨reach, by rw [advances.ctl]; exact Control.noConfusion, ?_, ?_,
        seg ++ .examined f r0 :: new, ?_, ?_⟩
      · simp only [List.length_append, List.length_singleton]
        omega
      · intro k at_
        obtain rfl := Control.scanning.inj (advances.ctl.symm.trans at_)
        simp only [List.length_append, List.length_singleton]
        exact ⟨advances.upper, by omega⟩
      · rw [log', log, List.append_assoc]
      · exact fun k fd e r client => (clients k fd e r client).turn inv h quiet
    · have last : i = s.userCounter + 1 := by omega
      obtain rfl : { s with ctl := .polling } = u := by
        rw [step, ctl] at run
        simpa [show ¬ i < s.userCounter + 1 by omega] using run
      have first : i ≠ 0 := by omega
      refine ⟨reach, Control.noConfusion, ?_, fun k at_ => Control.noConfusion at_, seg, log, ?_⟩
      · rw [remaining, if_neg first] at length
        simp only [List.length_append, List.length_singleton]
        omega
      · intro k fd e r client
        rcases clients k fd e r client with ⟨-, l, ahead, e', listed⟩ | ⟨done, -⟩
        · -- nobody waits behind the last slot
          have behind := listed.upper
          omega
        · exact done

end Survey

/-- From the return of `poll` on, no turn faults, the loop ends after at most one turn for each
slot and one more for a newcomer, and then it has examined each client's slot exactly once, with
the result of that `poll`. -/
theorem pass_examines_once (v : Program) {s t u : St} {revents : Int → Mask}
    {steps : List (St × Answers)} (h : (machine v).Reachable s)
    (lawful : (machine v).Lawful s (.poll revents))
    (returns : (machine v).step s (.poll revents) = some t) (run : (pass v t).Run steps u) :
    (∀ a, (pass v t).Lawful u a → ∃ u', (pass v t).step u a = some u') ∧
    (steps.length : Int) ≤ t.userCounter + 3 ∧ (u.ctl = .polling ∨
      u.ctl.isScanning = true ∧ (steps.length : Int) < t.userCounter + 3) ∧
    (u.ctl = .polling → ∃ seg, u.log = t.log ++ seg ∧
      ∀ k fd e r, Client t k fd e r → r = revents k ∧ examinations fd seg = [r]) := by
  have inv := reachable_inv h
  have polled : Polled s revents t := by
    cases reachable_move h lawful returns with
    | polled _ _ _ polled => exact polled
  have passing : Passing v t steps u := by
    apply run.invariant (I := Passing v t)
    · rintro _ rfl
      exact .start (h.step lawful returns) polled.ctl
    · exact fun steps s a u _ passing lawful run => passing.turn lawful run
  refine ⟨?_, passing.length, ?_, ?_⟩
  · intro a lawful
    obtain ⟨u', run', -⟩ := step_move (reachable_inv passing.reachable) v (a := .turn a) lawful
    exact ⟨u', run'⟩
  · cases ctl : u.ctl with
    | polling => exact .inl rfl
    | left => exact absurd ctl passing.going
    | scanning i =>
      obtain ⟨upper, length⟩ := passing.bounded i ctl
      have left : 0 ≤ remaining u i := by
        unfold remaining
        split_ifs <;> omega
      exact .inr ⟨rfl, by omega⟩
  · intro ended
    obtain ⟨seg, log, clients⟩ := passing.clients
    refine ⟨seg, log, fun k fd e r client => ?_⟩
    obtain ⟨r0, -, result⟩ := client.of_polled inv polled
    have surveyed := clients k fd e r client
    rw [ended] at surveyed
    exact ⟨result, surveyed⟩


/-- A new client arrives, 5 has hung up and 6 has sent something. -/
def crowded : Input := reports [pollIn, pollRdhup, pollIn]

def passStart (v : Program) : St := (step v (joined v) (crowded)).getD (joined v)

/-- The removal of 5 moves the newcomer on 7 to its slot. -/
def passEnd (v : Program) : St :=
  ((pass v (passStart v)).replay (passStart v)
    [⟨some (7, ⟨2, 0, 0⟩), .error eagain, []⟩, ⟨none, .error eagain, []⟩,
      ⟨none, .error eagain, []⟩, ⟨none, .ok [104, 105], []⟩,
      ⟨none, .error eagain, []⟩]).getD (passStart v)

theorem pass_examines_once_crowded : (passEnd .testPoll).ctl = .polling ∧
    (passEnd .testPoll).userCounter = 2 ∧ ∃ seg,
      (passEnd .testPoll).log = (passStart .testPoll).log ++ seg ∧
      examinations 5 seg = [pollRdhup] ∧ examinations 6 seg = [pollIn] := by
  have lawful : Lawful (joined .testPoll) (crowded) := by
    refine ⟨by decide +kernel, ?_⟩
    decide +kernel
  obtain ⟨t, run, -⟩ := step_move (reachable_inv (joined_reachable .testPoll)) .testPoll lawful
  have same : passStart .testPoll = t := by
    rw [passStart, run]
    rfl
  subst same
  have start : (pass .testPoll (passStart .testPoll)).Reachable (passStart .testPoll) := .start rfl
  obtain ⟨steps, turns⟩ : (pass .testPoll (passStart .testPoll)).Reachable (passEnd .testPoll) :=
    start.replay_getD _
  have ended : (passEnd .testPoll).ctl = .polling := by decide +kernel
  obtain ⟨seg, log, clients⟩ :=
    (pass_examines_once .testPoll (joined_reachable .testPoll) lawful run turns).2.2.2 ended
  have five : Client (passStart .testPoll) 1 5 (pollIn ||| pollRdhup ||| pollErr) pollRdhup :=
    ⟨by decide, by decide +kernel, by decide +kernel⟩
  have six : Client (passStart .testPoll) 2 6 (pollIn ||| pollRdhup ||| pollErr) pollIn :=
    ⟨by decide, by decide +kernel, by decide +kernel⟩
  exact ⟨ended, by decide +kernel, seg, log, (clients 1 5 _ _ five).2, (clients 2 6 _ _ six).2⟩

end JiajiaNetwork.PollChat
