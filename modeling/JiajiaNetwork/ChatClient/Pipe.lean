/- The pipe between the standard input and the socket of the chat client. No byte is lost or
   reordered in it; but the second `splice` is called whatever the first one moved, and with
   nothing in the pipe it waits for bytes that only the client itself could write. -/
import JiajiaNetwork.ChatClient.Client

set_option autoImplicit false
set_option relaxedAutoImplicit false

namespace JiajiaNetwork.ChatClient

open Lib Machine

/-- The bytes on the socket and those in the pipe are the bytes typed, in order. -/
def Balanced (s : St) : Prop := s.output ++ s.pipe = s.typed

/-- The second `splice` is about to be called on an empty pipe. -/
structure Starving (s : St) : Prop where
  splicing : s.ctl = .splicing
  empty : s.pipe = []

/-- The client does not wait on its own pipe, and the pipe is balanced. -/
structure Flows (s : St) : Prop where
  filled : ¬ Starving s
  balanced : Balanced s

/-- Whenever the first `splice` is called, it moves something or finds something in the pipe. -/
def Feeds (s : St) : Input → Prop
  | .turn a => ∀ stdin, s.ctl = .input stdin → has stdin pollIn →
      s.pipe ≠ [] ∨ a.spliceIn.getD [] ≠ []
  | _ => True

section Steps

variable {s t : St} {stdin sockfd : Mask} {a : Answers}

/-- A step that leaves the three kinds of bytes alone. -/
theorem Balanced.keeps (balanced : Balanced s) (output : t.output = s.output)
    (pipe : t.pipe = s.pipe) (typed : t.typed = s.typed) : Balanced t := by
  rw [Balanced, output, pipe, typed]
  exact balanced

/-- The first `if` leaves the pipe alone and does not go to the second `splice`. -/
theorem socketBranch_frame (run : socketBranch s stdin sockfd a = some t) :
    t.output = s.output ∧ t.pipe = s.pipe ∧ t.typed = s.typed ∧ t.ctl ≠ .splicing := by
  unfold socketBranch at run
  split_ifs at run with hangs readable
  · obtain rfl := Option.some.inj run
    exact ⟨rfl, rfl, rfl, by simp⟩
  · obtain ⟨text, -, run⟩ := Option.bind_eq_some_iff.mp run
    obtain rfl := Option.some.inj run
    exact ⟨rfl, rfl, rfl, by simp⟩
  · obtain rfl := Option.some.inj run
    exact ⟨rfl, rfl, rfl, by simp⟩

theorem Balanced.inputBranch (balanced : Balanced s) : Balanced (inputBranch s stdin a) := by
  unfold ChatClient.inputBranch
  split_ifs with readable
  · show s.output ++ (s.pipe ++ a.spliceIn.getD []) = s.typed ++ a.spliceIn.getD []
    rw [← List.append_assoc, show s.output ++ s.pipe = s.typed from balanced]
  · exact balanced

theorem Balanced.spliceOut (balanced : Balanced s) : Balanced (spliceOut s a) := by
  show (s.output ++ s.pipe.take (a.spliceOut.getD 0)) ++ s.pipe.drop (a.spliceOut.getD 0) = s.typed
  rw [List.append_assoc, List.take_append_drop]
  exact balanced

/-- Behind the first `splice` the client starves if that moved nothing into an empty pipe. -/
theorem starving_inputBranch (ctl : s.ctl = .input stdin) :
    ¬ Starving (inputBranch s stdin a) ↔ Feeds s (.turn a) := by
  have feeds : Feeds s (.turn a) ↔
      (has stdin pollIn → s.pipe ≠ [] ∨ a.spliceIn.getD [] ≠ []) := by
    constructor
    · intro all
      exact all stdin ctl
    · intro here stdin' same
      obtain rfl := Control.input.inj (ctl.symm.trans same)
      exact here
  rw [feeds]
  unfold inputBranch
  split_ifs with readable
  · rw [imp_iff_right readable, ← not_and_or, not_iff_not]
    constructor
    · intro starving
      exact List.append_eq_nil_iff.mp starving.empty
    · intro none
      exact ⟨rfl, List.append_eq_nil_iff.mpr none⟩
  · refine iff_of_true (fun starving => ?_) fun some => absurd some readable
    cases starving.splicing

theorem step_balanced {i : Input} (balanced : Balanced s) (run : step s i = some t) :
    Balanced t := by
  cases i with
  | arrives bytes =>
    obtain rfl := Option.some.inj run
    exact balanced
  | finishes =>
    obtain rfl := Option.some.inj run
    exact balanced
  | poll stdin sockfd =>
    obtain rfl := Option.some.inj run
    exact balanced
  | pollFailed =>
    obtain rfl := Option.some.inj run
    exact balanced
  | turn a =>
    cases ctl : s.ctl with
    | socket stdin sockfd =>
      simp only [step, ctl] at run
      obtain ⟨output, pipe, typed, -⟩ := socketBranch_frame run
      exact balanced.keeps output pipe typed
    | input stdin =>
      simp only [step, ctl, Option.some.injEq] at run
      exact run ▸ balanced.inputBranch
    | splicing =>
      simp only [step, ctl, Option.some.injEq] at run
      exact run ▸ balanced.spliceOut
    | polling => simp [step, ctl] at run
    | hungUp => simp [step, ctl] at run
    | failed => simp [step, ctl] at run

/-- Only from the first `splice` the client goes on to the second one. -/
theorem turn_starving (run : step s (.turn a) = some t) :
    ¬ Starving t ↔ Feeds s (.turn a) := by
  have elsewhere : t.ctl ≠ .splicing → (∀ stdin, s.ctl ≠ .input stdin) →
      (¬ Starving t ↔ Feeds s (.turn a)) :=
    fun next outside => iff_of_true (fun starving => next starving.splicing)
      fun stdin ctl => absurd ctl (outside stdin)
  cases ctl : s.ctl with
  | socket stdin sockfd =>
    simp only [step, ctl] at run
    exact elsewhere (socketBranch_frame run).2.2.2 (by simp [ctl])
  | input stdin =>
    simp only [step, ctl, Option.some.injEq] at run
    exact run ▸ starving_inputBranch ctl
  | splicing =>
    simp only [step, ctl, Option.some.injEq] at run
    subst run
    exact elsewhere (by simp [spliceOut]) (by simp [ctl])
  | polling => simp [step, ctl] at run
  | hungUp => simp [step, ctl] at run
  | failed => simp [step, ctl] at run

/-- What the environment does leaves a starving client as it is. -/
theorem starving_kept {i : Input} (starving : Starving s) (lawful : Lawful s i)
    (run : step s i = some t) : Starving t := by
  cases i with
  | arrives bytes =>
    obtain rfl := Option.some.inj run
    exact ⟨starving.splicing, starving.empty⟩
  | finishes =>
    obtain rfl := Option.some.inj run
    exact ⟨starving.splicing, starving.empty⟩
  | poll stdin sockfd =>
    have polling : s.ctl = .polling := lawful.1
    rw [starving.splicing] at polling
    cases polling
  | pollFailed =>
    have polling : s.ctl = .polling := lawful
    rw [starving.splicing] at polling
    cases polling
  | turn a =>
    have answered : Answered s a := lawful
    rw [Answered, starving.splicing] at answered
    exact absurd starving.empty answered.1

end Steps

theorem reachable_balanced {s : St} (h : machine.Reachable s) : Balanced s := by
  apply h.invariant
  · rintro s rfl
    rfl
  · exact fun s a t _ balanced _ run => step_balanced balanced run

/-- The client that waits on its own pipe waits for ever. -/
theorem starving_for_ever {s t : St} {later : List (St × Input)} (starving : Starving s)
    (more : (machine.after s).Run later t) : Starving t := by
  apply Reachable.invariant ⟨later, more⟩
  · rintro _ rfl
    exact starving
  · exact fun s a t _ starving lawful run => starving_kept starving lawful run

/-- In every run the pipe loses no byte and keeps their order. The client never waits on its own
pipe exactly when the first `splice` moves something whenever it finds the pipe empty. -/
theorem flows_iff {steps : List (St × Input)} {s : St} (h : machine.Run steps s) : Balanced s ∧
    (Throughout (fun _ => Flows) steps s ↔ ∀ p ∈ steps, Feeds p.1 p.2) := by
  refine ⟨reachable_balanced h.reachable, ?_⟩
  apply h.throughout_iff (J := fun _ => Flows)
  · rintro s rfl
    exact ⟨fun starving => (by cases starving.splicing), rfl⟩
  · exact fun _ _ flows => flows
  · intro steps s a t _ flows lawful run
    have balanced := step_balanced flows.balanced run
    cases a with
    | arrives bytes =>
      obtain rfl := Option.some.inj run
      refine ⟨fun _ => ⟨fun starving => ?_, balanced⟩, fun _ => trivial⟩
      exact flows.filled ⟨starving.splicing, starving.empty⟩
    | finishes =>
      obtain rfl := Option.some.inj run
      refine ⟨fun _ => ⟨fun starving => ?_, balanced⟩, fun _ => trivial⟩
      exact flows.filled ⟨starving.splicing, starving.empty⟩
    | poll stdin sockfd =>
      obtain rfl := Option.some.inj run
      refine ⟨fun _ => ⟨fun starving => ?_, balanced⟩, fun _ => trivial⟩
      cases starving.splicing
    | pollFailed =>
      obtain rfl := Option.some.inj run
      refine ⟨fun _ => ⟨fun starving => ?_, balanced⟩, fun _ => trivial⟩
      cases starving.splicing
    | turn a =>
      have fed := turn_starving run
      exact ⟨fun feeds => ⟨fed.mpr feeds, balanced⟩, fun next => fed.mp next.filled⟩

/-- "hi" is typed; the pipe takes both bytes and gives one, then the other. -/
def typedHi : St := (machine.replay initial
  [.poll pollIn 0, .turn ⟨none, none, none⟩, .turn ⟨none, some [104, 105], none⟩,
    .turn ⟨none, none, some 1⟩, .poll pollIn 0, .turn ⟨none, none, none⟩,
    .turn ⟨none, some [], none⟩, .turn ⟨none, none, some 1⟩]).getD initial

theorem flows_iff_typedHi : ∃ steps, machine.Run steps typedHi ∧ Balanced typedHi ∧
    (Throughout (fun _ => Flows) steps typedHi ↔ ∀ p ∈ steps, Feeds p.1 p.2) := by
  have start : machine.Reachable initial := .start rfl
  obtain ⟨steps, run⟩ := start.replay_getD _
  exact ⟨steps, run, flows_iff run⟩

/-- The standard input is at its end: `poll` reports it, and the client waits for ever. -/
theorem end_of_input_blocks : ∃ steps s, machine.Run steps s ∧
    ¬ Throughout (fun _ => Flows) steps s ∧
    ∀ later t, (machine.after s).Run later t → Starving t := by
  have start : machine.Run [] initial := .start rfl
  have polled := start.step (a := .poll pollIn 0) (by decide) rfl
  have looked := polled.step (a := .turn ⟨none, none, none⟩) (by decide) rfl
  have moved := looked.step (a := .turn ⟨none, some [], none⟩) (by decide) rfl
  have starving : Starving { initial with ctl := .splicing } := ⟨rfl, rfl⟩
  refine ⟨_, _, moved, fun all => ?_, fun later t more => ?_⟩
  · exact all.2.filled starving
  · exact starving_for_ever starving more

end JiajiaNetwork.ChatClient
