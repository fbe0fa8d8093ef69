/- `test_wait.c`: the child ends by itself or is killed, and may be stopped and continued before
   that; the parent reports its changes until it has ended. The kernel keeps the last change that
   was not fetched yet, so that a change may hide an earlier one. -/
import JiajiaNetwork.Lib.Machine
import JiajiaNetwork.Lib.WaitStatus

set_option autoImplicit false
set_option relaxedAutoImplicit false

namespace JiajiaNetwork.TestWait

open Lib

/-- What the parent prints behind `waitpid`. -/
inductive Report
  /-- `exited, status=%d` -/
  | exited (status : BitVec 32)
  /-- `killed by signal %d` -/
  | killed (sig : BitVec 32)
  /-- `stopped by signal %d` -/
  | stopped (sig : BitVec 32)
  | continued
  deriving DecidableEq

inductive Child
  | running
  | stopped
  | ended
  deriving DecidableEq

/-- In the loop, or behind one of the calls of `exit`. -/
inductive Parent
  | waiting
  | failure
  | success
  deriving DecidableEq

structure St where
  child : Child
  /-- the change that the next `waitpid` returns -/
  pending : Option Change
  parent : Parent
  reports : List Report
  /-- the changes of the child so far, for the statements only -/
  changes : List Change

inductive Input
  | exits
  | killed (sig : Signal) (core : Bool)
  | stops (sig : Signal)
  | continues
  | waitpid
  | waitFails

/-- The `else if` chain behind `waitpid`. -/
def report (wstatus : BitVec 32) : List Report :=
  if wifexited wstatus then [.exited (wexitstatus wstatus)]
  else if wifsignaled wstatus then [.killed (wtermsig wstatus)]
  else if wifstopped wstatus then [.stopped (wstopsig wstatus)]
  else if wifcontinued wstatus then [.continued]
  else []

namespace St

def change (s : St) (child : Child) (c : Change) : St :=
  { s with child, pending := some c, changes := s.changes ++ [c] }

/-- One round of the `do` loop. -/
def round (s : St) (wstatus : BitVec 32) : St :=
  { s with
    pending := none
    reports := s.reports ++ report wstatus
    parent := if !wifexited wstatus && !wifsignaled wstatus then .waiting else .success }

end St

/-- `argument` is the value of `atoi(argv[1])`, if the program was given one; the child exits with
its last eight bits, and without one it waits for signals. -/
def step (argument : Option (BitVec 32)) (s : St) : Input → Option St
  | .exits => argument.map fun value => s.change .ended (.exited (value.truncate 8))
  | .killed sig core => some (s.change .ended (.killed sig core))
  | .stops sig => some (s.change .stopped (.stopped sig))
  | .continues => some (s.change .running .continued)
  | .waitpid => s.pending.map fun c => s.round c.status
  | .waitFails => some { s with parent := .failure }

/-- `waitpid` blocks as long as there is nothing to report. -/
def Lawful (argument : Option (BitVec 32)) (s : St) : Input → Prop
  | .exits => s.child = .running ∧ argument.isSome = true
  | .killed _ _ => s.child ≠ .ended
  | .stops _ => s.child = .running
  | .continues => s.child = .stopped
  | .waitpid => s.parent = .waiting ∧ s.pending.isSome = true
  | .waitFails => s.parent = .waiting

instance (argument : Option (BitVec 32)) (s : St) : (a : Input) → Decidable (Lawful argument s a)
  | .exits | .waitpid => inferInstanceAs (Decidable (_ ∧ _))
  | .killed _ _ => inferInstanceAs (Decidable (_ ≠ _))
  | .stops _ | .continues | .waitFails => inferInstanceAs (Decidable (_ = _))

/-- Behind the `fork`. -/
def initial : St := ⟨.running, none, .waiting, [], []⟩

def machine (argument : Option (BitVec 32)) : Machine St Input where
  Start s := s = initial
  Lawful := Lawful argument
  step := step argument

instance (argument : Option (BitVec 32)) (s : St) (a : Input) :
    Decidable ((machine argument).Lawful s a) :=
  inferInstanceAs (Decidable (Lawful argument s a))

/-- What a change should be reported as. -/
def said : Change → Report
  | .exited code => .exited (code.zeroExtend 32)
  | .killed sig _ => .killed (sig.number.zeroExtend 32)
  | .stopped sig => .stopped (sig.number.zeroExtend 32)
  | .continued => .continued

theorem report_status (c : Change) : report c.status = [said c] := by
  cases c with
  | exited code =>
    obtain ⟨ends, code⟩ := exited_word code
    simp [report, ends, code, said]
  | killed sig core =>
    obtain ⟨lives, ends, number⟩ := killed_word sig core
    simp [report, lives, ends, number, said]
  | stopped sig =>
    obtain ⟨lives, unhurt, stops, number⟩ := stopped_word sig
    simp [report, lives, unhurt, stops, number, said]
  | continued =>
    obtain ⟨lives, unhurt, moves, goes⟩ := continued_word
    simp [report, lives, unhurt, moves, goes, said]

/-- The changes `seen` were reported, in order and each once, and the last change of all was
reported or is pending. The parent is through when it has seen the end. -/
structure Learns (s : St) (seen : List Change) : Prop where
  reports : s.reports = seen.map said
  order : (seen ++ s.pending.toList).Sublist s.changes
  latest : (seen ++ s.pending.toList).getLast? = s.changes.getLast?
  ended : s.child = .ended ↔ ∃ c, s.changes.getLast? = some c ∧ c.final = true
  waiting : s.parent = .waiting → ∀ c ∈ seen, c.final = false
  success : s.parent = .success → s.pending = none ∧ ∃ c, seen.getLast? = some c ∧ c.final = true

/-- A child exits with the last byte of its argument. -/
def Exits (argument : Option (BitVec 32)) (c : Change) : Prop :=
  ∀ code, c = .exited code → argument.map (·.truncate 8) = some code

section Steps

variable {argument : Option (BitVec 32)} {s t : St} {seen : List Change}

/-- A change takes the place of one that is pending. -/
theorem Learns.change (learns : Learns s seen) {child : Child} {c : Change}
    (going : s.child ≠ .ended) (kind : child = .ended ↔ c.final = true) :
    Learns (s.change child c) seen where
  reports := learns.reports
  order := by
    have before : seen.Sublist s.changes :=
      (List.sublist_append_left seen s.pending.toList).trans learns.order
    exact before.append (List.Sublist.refl [c])
  latest := by simp [St.change]
  ended := by simpa [St.change] using kind
  waiting := learns.waiting
  success := by
    intro through
    obtain ⟨none, last, seen_last, final⟩ := learns.success through
    have latest := learns.latest
    rw [none, Option.toList_none, List.append_nil, seen_last] at latest
    exact absurd (learns.ended.mpr ⟨last, latest.symm, final⟩) going

theorem Learns.waitpid (learns : Learns s seen) (waits : s.parent = .waiting) {c : Change}
    (pending : s.pending = some c) : Learns (s.round c.status) (seen ++ [c]) := by
  have ended : (!wifexited c.status && !wifsignaled c.status) = !c.final := by
    rw [← ended_iff, Bool.not_or]
  have order := learns.order
  have latest := learns.latest
  rw [pending] at order latest
  constructor
  case reports =>
    show s.reports ++ report c.status = (seen ++ [c]).map said
    rw [learns.reports, report_status, List.map_append]
    rfl
  case order => simpa [St.round] using order
  case latest => simpa [St.round] using latest
  case ended => exact learns.ended
  case waiting =>
    intro still d member
    have unfinished : c.final = false := by
      cases final : c.final with
      | false => rfl
      | true => simp [St.round, ended, final] at still
    rcases List.mem_append.mp member with old | new
    · exact learns.waiting waits d old
    · rw [List.mem_singleton.mp new, unfinished]
  case success =>
    intro through
    refine ⟨rfl, c, by simp, ?_⟩
    cases final : c.final with
    | true => rfl
    | false => simp [St.round, ended, final] at through

theorem Learns.step {a : Input} (learns : Learns s seen) (lawful : Lawful argument s a)
    (run : step argument s a = some t) : ∃ seen', Learns t seen' := by
  cases a with
  | exits =>
    obtain ⟨value, -, rfl⟩ := Option.map_eq_some_iff.mp run
    exact ⟨seen, learns.change (by simp [lawful.1]) (by simp [Change.final])⟩
  | killed sig core =>
    obtain rfl := Option.some.inj run
    exact ⟨seen, learns.change lawful (by simp [Change.final])⟩
  | stops sig =>
    obtain rfl := Option.some.inj run
    have running : s.child = .running := lawful
    exact ⟨seen, learns.change (by simp [running]) (by simp [Change.final])⟩
  | continues =>
    obtain rfl := Option.some.inj run
    have stopped : s.child = .stopped := lawful
    exact ⟨seen, learns.change (by simp [stopped]) (by simp [Change.final])⟩
  | waitpid =>
    obtain ⟨c, pending, rfl⟩ := Option.map_eq_some_iff.mp run
    exact ⟨seen ++ [c], learns.waitpid lawful.1 pending⟩
  | waitFails =>
    obtain rfl := Option.some.inj run
    refine ⟨seen, learns.reports, learns.order, learns.latest, learns.ended, ?_, ?_⟩
    · intro still
      cases still
    · intro through
      cases through

theorem exits_step {a : Input} (exits : ∀ c ∈ s.changes, Exits argument c)
    (run : step argument s a = some t) : ∀ c ∈ t.changes, Exits argument c := by
  have append : ∀ {child c}, Exits argument c → ∀ d ∈ (s.change child c).changes,
      Exits argument d := by
    intro child c new d member
    rcases List.mem_append.mp member with old | last
    · exact exits d old
    · rwa [List.mem_singleton.mp last]
  cases a with
  | exits =>
    obtain ⟨value, given, rfl⟩ := Option.map_eq_some_iff.mp run
    apply append
    intro code same
    obtain rfl := Change.exited.inj same
    rw [given]
    rfl
  | killed sig core =>
    obtain rfl := Option.some.inj run
    exact append nofun
  | stops sig =>
    obtain rfl := Option.some.inj run
    exact append nofun
  | continues =>
    obtain rfl := Option.some.inj run
    exact append nofun
  | waitpid =>
    obtain ⟨c, -, rfl⟩ := Option.map_eq_some_iff.mp run
    exact exits
  | waitFails =>
    obtain rfl := Option.some.inj run
    exact exits

theorem reachable_learns (h : (machine argument).Reachable s) :
    (∃ seen, Learns s seen) ∧ ∀ c ∈ s.changes, Exits argument c := by
  apply h.invariant
  · rintro s rfl
    have learns : Learns initial [] :=
      ⟨rfl, List.Sublist.refl [], rfl, by simp [initial], by simp, nofun⟩
    exact ⟨⟨[], learns⟩, by simp [initial]⟩
  · rintro s a t _ ⟨⟨seen, learns⟩, exits⟩ lawful run
    exact ⟨learns.step lawful run, exits_step exits run⟩

end Steps

/-- However the child is stopped, continued and ended between the calls of `waitpid`, what the
parent reports has happened, in that order and each once; it leaves the loop with success only
behind the report of how the child has ended, and when the child has ended the next `waitpid`
tells so. A child that exits does so with the last byte of its argument. -/
theorem parent_learns (argument : Option (BitVec 32)) (s : St)
    (h : (machine argument).Reachable s) :
    (∃ seen : List Change, s.reports = seen.map said ∧ seen.Sublist s.changes) ∧
    (s.parent = .success → ∃ c, s.changes.getLast? = some c ∧ c.final = true ∧
      s.reports.getLast? = some (said c)) ∧
    (s.parent = .waiting → s.child = .ended → ∃ c, s.pending = some c ∧ c.final = true ∧
      s.changes.getLast? = some c) ∧
    ∀ code, .exited code ∈ s.changes → argument.map (·.truncate 8) = some code := by
  obtain ⟨⟨seen, learns⟩, exits⟩ := reachable_learns h
  refine ⟨⟨seen, learns.reports, ?_⟩, fun through => ?_, fun waits ended => ?_, ?_⟩
  · exact (List.sublist_append_left seen s.pending.toList).trans learns.order
  · obtain ⟨none, c, last, final⟩ := learns.success through
    have latest := learns.latest
    rw [none, Option.toList_none, List.append_nil, last] at latest
    refine ⟨c, latest.symm, final, ?_⟩
    rw [learns.reports, List.getLast?_map, last]
    rfl
  · obtain ⟨c, last, final⟩ := learns.ended.mp ended
    have latest := learns.latest
    rw [last] at latest
    cases pending : s.pending with
    | some d =>
      rw [pending, Option.toList_some, List.getLast?_concat] at latest
      obtain rfl := Option.some.inj latest
      exact ⟨d, rfl, final, last⟩
    | none =>
      rw [pending, Option.toList_none, List.append_nil] at latest
      have unfinished := learns.waiting waits c (List.mem_of_getLast? latest)
      rw [final] at unfinished
      cases unfinished
  · exact fun code member => exits _ member code rfl

/-! The child of `test_wait 300` is stopped and continued before the parent looks, stopped once
more, and exits. -/

def stop : Signal := ⟨19, by decide⟩

def life : List Input :=
  [.stops stop, .continues, .waitpid, .stops stop, .waitpid, .continues, .exits, .waitpid]

def through : St := ((machine (some 300)).replay initial life).getD initial

theorem parent_learns_through : through.reports = [.continued, .stopped 19, .exited 44] ∧
    ∃ c, through.changes.getLast? = some c ∧ c.final = true ∧
      through.reports.getLast? = some (said c) := by
  have start : (machine (some 300)).Reachable initial := .start rfl
  have learnt := parent_learns (some 300) through (start.replay_getD life)
  exact ⟨by decide +kernel, learnt.2.1 (by decide +kernel)⟩

end JiajiaNetwork.TestWait
