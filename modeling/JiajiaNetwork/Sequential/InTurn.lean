/- One connection after the other: in every run of either program the connections are accepted in
   the order in which they were made, and what is printed belongs to the one that is open. -/
import Mathlib.Algebra.Ring.Nat
import Mathlib.Data.Finset.Basic
import JiajiaNetwork.Sequential.Server

set_option autoImplicit false
set_option relaxedAutoImplicit false

namespace JiajiaNetwork.Sequential

open Lib

def Event.life : Event → Life Nat
  | .accepted id => .opens id
  | .closed id _ => .closes id
  | .failed _ | .got _ _ _ => .neither

def acceptedIds (log : List Event) : List Nat :=
  log.filterMap fun
    | .accepted id => some id
    | _ => none

/-- The numbers and the texts that were printed for a connection. -/
def rets (id : Nat) (log : List Event) : List Nat :=
  log.filterMap fun
    | .got i ret _ => if i = id then some ret else none
    | _ => none

def texts (id : Nat) (log : List Event) : List (List Byte) :=
  log.filterMap fun
    | .got i _ text => if i = id then some text else none
    | _ => none

@[simp] theorem acceptedIds_append (log new : List Event) :
    acceptedIds (log ++ new) = acceptedIds log ++ acceptedIds new := List.filterMap_append

@[simp] theorem rets_append (id : Nat) (log new : List Event) :
    rets id (log ++ new) = rets id log ++ rets id new := List.filterMap_append

@[simp] theorem texts_append (id : Nat) (log new : List Event) :
    texts id (log ++ new) = texts id log ++ texts id new := List.filterMap_append

/-- The connection that the program is in the middle of. -/
def Control.open : Control → Finset Nat
  | .accepting => ∅
  | .receiving id => {id}

/-- A connection is accepted when none is open, and only the open one is read and closed. -/
def OneByOne (pre : List Event) : Event → Prop
  | .accepted _ => live Event.life pre = ∅
  | .got id _ _ | .closed id _ => live Event.life pre = {id}
  | .failed _ => True

structure InTurn (s : St) : Prop where
  /-- first come, first served, and nobody is served twice or passed over -/
  order : acceptedIds s.log ++ s.queue = List.range s.next
  oneByOne : Always OneByOne s.log
  current : live Event.life s.log = s.ctl.open
  counted : ∀ id, (rets id s.log).sum = (s.streams id).read.length
  shown : ∀ id, (0 : Byte) ∉ (s.streams id).sent → (texts id s.log).flatten = (s.streams id).read
  /-- a connection that is closed behind its end was read to the end -/
  drained : ∀ id, .closed id none ∈ s.log → (s.streams id).Exhausted

section Steps

variable {v : Program} {s t : St} {id : Nat}

/-- The far end of one connection goes on. -/
theorem InTurn.stream (turn : InTurn s) {x : Channel Byte} (going : (s.streams id).finished = false)
    (read : x.read = (s.streams id).read) (sent : (s.streams id).sent <+: x.sent) :
    InTurn { s with streams := Function.update s.streams id x } where
  order := turn.order
  oneByOne := turn.oneByOne
  current := turn.current
  counted i := by
    by_cases same : i = id
    · subst same
      simpa [read] using turn.counted i
    · simpa [same] using turn.counted i
  shown i clean := by
    by_cases same : i = id
    · subst same
      have before : (0 : Byte) ∉ x.sent := by simpa using clean
      simpa [read] using turn.shown i fun zero => before (sent.subset zero)
    · have before : (0 : Byte) ∉ (s.streams i).sent := by simpa [same] using clean
      simpa [same] using turn.shown i before
  drained i closed := by
    have exhausted := turn.drained i closed
    have other : i ≠ id := by
      rintro rfl
      rw [exhausted.finished] at going
      cases going
    show (Function.update s.streams id x i).Exhausted
    rwa [Function.update_of_ne other]

/-- An event that prints no text, and where it leaves the program. -/
theorem InTurn.event (turn : InTurn s) {e : Event} {ctl : Control} {queue : List Nat}
    (listening : Bool) (one : OneByOne s.log e)
    (now : live Event.life (s.log ++ [e]) = ctl.open)
    (order : acceptedIds [e] ++ queue = s.queue) (silent : ∀ i, rets i [e] = [] ∧ texts i [e] = [])
    (ended : ∀ i, e = .closed i none → (s.streams i).Exhausted) :
    InTurn { s.emit e with ctl, queue, listening } where
  order := by
    show acceptedIds (s.log ++ [e]) ++ queue = List.range s.next
    rw [acceptedIds_append, List.append_assoc, order, turn.order]
  oneByOne := always_concat.mpr ⟨turn.oneByOne, one⟩
  current := now
  counted i := by
    show (rets i (s.log ++ [e])).sum = _
    rw [rets_append, (silent i).1, List.append_nil]
    exact turn.counted i
  shown i clean := by
    show (texts i (s.log ++ [e])).flatten = _
    rw [texts_append, (silent i).2, List.append_nil]
    exact turn.shown i clean
  drained i closed := by
    rcases List.mem_append.mp closed with old | new
    · exact turn.drained i old
    · exact ended i (List.mem_singleton.mp new).symm

/-- The text of a message that fits the cleared buffer. -/
theorem got_text {bytes : List Byte} (short : bytes.length ≤ buffSize - 1) :
    ∃ text, cString (overlay bytes (List.replicate buffSize 0)) = some text ∧
      ((0 : Byte) ∉ bytes → text = bytes) := by
  have room : bytes.length < buffSize := by
    unfold buffSize at short ⊢
    omega
  have zero : (0 : Byte) ∈ overlay bytes (List.replicate buffSize 0) := by
    rw [overlay, List.drop_replicate, List.mem_append]
    exact .inr (List.mem_replicate.mpr ⟨by omega, rfl⟩)
  obtain ⟨text, string⟩ := Option.isSome_iff_exists.mp (cString_isSome.mpr zero)
  refine ⟨text, string, fun clean => ?_⟩
  rw [cString_overlay_replicate room clean] at string
  exact (Option.some.inj string).symm

theorem InTurn.got (turn : InTurn s) (ctl : s.ctl = .receiving id) {bytes text : List Byte}
    (yields : (s.streams id).Yields bytes) (whole : (0 : Byte) ∉ bytes → text = bytes) :
    InTurn { s.emit (.got id bytes.length text) with
      streams := Function.update s.streams id ((s.streams id).consume bytes.length) } where
  order := by
    show acceptedIds (s.log ++ [_]) ++ s.queue = List.range s.next
    rw [acceptedIds_append]
    simpa [acceptedIds] using turn.order
  oneByOne := by
    refine always_concat.mpr ⟨turn.oneByOne, ?_⟩
    show live Event.life s.log = {id}
    rw [turn.current, ctl]
    rfl
  current := by
    show live Event.life (s.log ++ [_]) = s.ctl.open
    rw [live_quiet (by simp [Event.life]), turn.current]
  counted i := by
    show (rets i (s.log ++ [_])).sum = _
    rw [rets_append, List.sum_append, turn.counted]
    by_cases same : i = id
    · subst same
      show _ = (Function.update s.streams i ((s.streams i).consume bytes.length) i).read.length
      rw [Function.update_self, yields.read]
      simp [rets]
    · simp [rets, same, Ne.symm same]
  shown i clean := by
    show (texts i (s.log ++ [_])).flatten = _
    rw [texts_append, List.flatten_append]
    by_cases same : i = id
    · subst same
      have before : (0 : Byte) ∉ (s.streams i).sent := by simpa using clean
      have unread : (0 : Byte) ∉ bytes := by
        intro zero
        apply before
        rw [← (s.streams i).read_append_unread]
        exact List.mem_append_right _ (yields.1.subset zero)
      show _ = (Function.update s.streams i ((s.streams i).consume bytes.length) i).read
      rw [Function.update_self, yields.read, turn.shown i before, whole unread]
      simp [texts]
    · have before : (0 : Byte) ∉ (s.streams i).sent := by simpa [same] using clean
      rw [turn.shown i before]
      simp [texts, same, Ne.symm same]
  drained i closed := by
    have old : .closed i none ∈ s.log := by simpa [St.emit] using closed
    have exhausted := turn.drained i old
    by_cases same : i = id
    · subst same
      simpa using exhausted.consume bytes.length
    · simpa [same] using exhausted

theorem InTurn.receive (turn : InTurn s) (ctl : s.ctl = .receiving id)
    {answer : Except Errno (List Byte)} (answered : ∀ bytes ∈ answer.toOption,
      bytes.length ≤ buffSize - 1 ∧ (s.streams id).Yields bytes) :
    ∃ t, receive s id answer = some t ∧ InTurn t := by
  have now : ∀ failure,
      live Event.life (s.log ++ [.closed id failure]) = Control.accepting.open := by
    intro failure
    have gone : live Event.life (s.log ++ [.closed id failure]) =
        (live Event.life s.log).erase id := live_closes rfl
    rw [gone, turn.current, ctl]
    exact Finset.erase_singleton id
  have one : ∀ failure, OneByOne s.log (.closed id failure) := by
    intro failure
    show live Event.life s.log = {id}
    rw [turn.current, ctl]
    rfl
  cases answer with
  | error errno =>
    refine ⟨_, rfl, turn.event s.listening (one _) (now _) rfl (fun _ => ⟨rfl, rfl⟩) ?_⟩
    intro i same
    cases same
  | ok bytes =>
    obtain ⟨short, yields⟩ := answered bytes rfl
    cases bytes with
    | nil =>
      refine ⟨_, rfl, turn.event s.listening (one _) (now _) rfl (fun _ => ⟨rfl, rfl⟩) ?_⟩
      intro i same
      obtain ⟨rfl, -⟩ := Event.closed.inj same
      exact ⟨(yields.2 rfl).2, (yields.2 rfl).1⟩
    | cons b bytes =>
      obtain ⟨text, string, whole⟩ := got_text short
      refine ⟨_, ?_, turn.got ctl yields whole⟩
      simp [Sequential.receive, string]

theorem InTurn.step {a : Input} (turn : InTurn s) (lawful : Lawful v s a) :
    ∃ t, step v s a = some t ∧ InTurn t := by
  cases a with
  | connects =>
    refine ⟨_, rfl, ⟨?_, turn.oneByOne, turn.current, turn.counted, turn.shown, turn.drained⟩⟩
    show acceptedIds s.log ++ (s.queue ++ [s.next]) = List.range (s.next + 1)
    rw [← List.append_assoc, turn.order, List.range_succ]
  | arrives id bytes =>
    exact ⟨_, rfl, turn.stream lawful.2 rfl (List.prefix_append _ _)⟩
  | finishes id => exact ⟨_, rfl, turn.stream lawful.2 rfl (List.prefix_refl _)⟩
  | accept failure =>
    cases failure with
    | none =>
      obtain ⟨ctl, -, waits⟩ := lawful
      obtain ⟨id, rest, queue⟩ := List.exists_cons_of_ne_nil waits
      refine ⟨{ s.emit (.accepted id) with ctl := .receiving id, queue := rest },
        by simp [Sequential.step, ctl, queue], ?_⟩
      apply turn.event s.listening
      · show live Event.life s.log = ∅
        rw [turn.current, ctl]
        rfl
      · have opened : live Event.life (s.log ++ [.accepted id]) =
            insert id (live Event.life s.log) := live_opens rfl
        rw [opened, turn.current, ctl]
        rfl
      · rw [queue]
        rfl
      · exact fun _ => ⟨rfl, rfl⟩
      · intro i same
        cases same
    | some errno =>
      obtain ⟨ctl, -, -⟩ := lawful
      have failed : ∀ listening,
          InTurn { s.emit (.failed errno) with ctl := s.ctl, queue := s.queue, listening } := by
        intro listening
        apply turn.event listening
        · trivial
        · rw [live_quiet (by simp [Event.life]), turn.current]
        · rfl
        · exact fun _ => ⟨rfl, rfl⟩
        · intro i same
          cases same
      refine ⟨acceptFailed v s errno, by simp [Sequential.step, ctl], ?_⟩
      cases v with
      | testBlocking => exact failed false
      | testNoblocking => exact failed s.listening
  | recv answer =>
    have answered : Answered s answer := lawful
    unfold Answered at answered
    cases ctl : s.ctl with
    | accepting => simp [ctl] at answered
    | receiving id =>
      simp only [ctl] at answered
      obtain ⟨t, run, next⟩ := turn.receive ctl answered
      exact ⟨t, by simpa [Sequential.step, ctl] using run, next⟩

end Steps

theorem reachable_inTurn {v : Program} {s : St} (h : (machine v).Reachable s) : InTurn s := by
  apply h.invariant
  · rintro s rfl
    exact ⟨rfl, by simp [initial], rfl, fun _ => rfl, fun _ _ => rfl, by simp [initial]⟩
  · intro s a t _ turn lawful run
    obtain ⟨t', run', next⟩ := turn.step lawful
    obtain rfl := Option.some.inj (run'.symm.trans run)
    exact next

/-- In every run of either server, connections are served one by one in the order in which they
were made, what is read of one is printed before the next one is accepted, and as it is if the
client sends no zero byte, and no call faults. -/
theorem served_in_turn (v : Program) (s : St) (h : (machine v).Reachable s) :
    InTurn s ∧ ∀ a, Lawful v s a → ∃ t, step v s a = some t := by
  refine ⟨reachable_inTurn h, fun a lawful => ?_⟩
  obtain ⟨t, run, -⟩ := (reachable_inTurn h).step lawful
  exact ⟨t, run⟩

/-! Two clients connect; the second one speaks first and is served second. -/

def twoClients : List Input :=
  [.accept (some eagain), .connects, .connects, .arrives 1 [121, 111], .accept none,
    .arrives 0 [104, 105], .recv (.ok [104, 105]), .finishes 0, .recv (.ok []), .accept none,
    .recv (.ok [121])]

def served : St := ((machine .testNoblocking).replay initial twoClients).getD initial

theorem served_reachable : (machine .testNoblocking).Reachable served := by
  have start : (machine .testNoblocking).Reachable initial := .start rfl
  exact start.replay_getD twoClients

theorem served_in_turn_served : acceptedIds served.log = [0, 1] ∧ InTurn served :=
  ⟨by decide +kernel, (served_in_turn .testNoblocking served served_reachable).1⟩

end JiajiaNetwork.Sequential
