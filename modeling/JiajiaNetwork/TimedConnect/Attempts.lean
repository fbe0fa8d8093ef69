/- A process that connects again and again and closes what it got. Its open sockets are those that
   it holds as long as no call breaks its promise; each call that does adds one that is lost. -/
import JiajiaNetwork.Lib.Machine
import JiajiaNetwork.TimedConnect.Sockets

set_option autoImplicit false
set_option relaxedAutoImplicit false

namespace JiajiaNetwork.TimedConnect

open Lib Descriptors Machine

/-- The sockets of a process, and the descriptors that were returned to it and not closed. -/
structure Process where
  st : St
  held : List Fd

inductive Call
  | unblockConnect (answers : Answers)
  | timeoutConnect (time : Int) (answers : Answers)
  | close (fd : Fd)

/-- The caller keeps what is returned, unless it is -1. -/
def Process.keep (p : Process) : Outcome → Option Process
  | .returns ret t => some ⟨t, if ret = -1 then p.held else ret :: p.held⟩
  | .aborts | .fault => none

def Process.step (p : Process) : Call → Option Process
  | .unblockConnect a => p.keep (TimedConnect.unblockConnect p.st a)
  | .timeoutConnect time a => p.keep (TimedConnect.timeoutConnect p.st time a)
  | .close fd => some ⟨p.st.close fd, p.held.filter (· ≠ fd)⟩

/-- The caller closes what it holds. -/
def Process.Lawful (p : Process) : Call → Prop
  | .unblockConnect a | .timeoutConnect _ a => Answered p.st a
  | .close fd => fd ∈ p.held

def attempts : Machine Process Call where
  Start p := p.st.sockets.opened = ∅ ∧ p.held = []
  Lawful := Process.Lawful
  step := Process.step

/-- The open sockets are those that the caller holds. -/
def Process.Accounts (p : Process) : Prop := p.st.sockets.opened = {fd | fd ∈ p.held}

/-- The condition under which a call keeps its promise. -/
def Keeps (_ : Process) : Call → Prop
  | .unblockConnect a => ∀ c ∈ a.socket, Awaits c.1 a.connect
  | .timeoutConnect _ a => ∀ c ∈ a.socket, a.connect = .ok ()
  | .close _ => True

section Steps

variable {p q : Process} {a : Answers} {out : Outcome} {C : Prop}

/-- A tidy call keeps the account, and a call that breaks its promise adds a socket to it that the
caller does not hold. -/
theorem accounts_keep (accounts : p.Accounts) (run : p.keep out = some q)
    (cases : C ∧ Tidy p.st a out ∨ ¬ C ∧ Breaks p.st out) : q.Accounts ↔ C := by
  cases out with
  | aborts => cases run
  | fault => cases run
  | returns ret t =>
    obtain rfl := Option.some.inj run
    rcases cases with ⟨kept, tidy⟩ | ⟨broken, rfl, fd, x, fresh, here⟩
    · refine iff_of_true ?_ kept
      show t.sockets.opened = _
      rw [Opens.opened tidy, show p.st.sockets.opened = _ from accounts]
      split_ifs with failed
      · rfl
      · ext i
        simp
    · refine iff_of_false (fun accounts' => ?_) broken
      have member : fd ∈ t.sockets.opened := by
        rw [here, opened_install]
        exact Set.mem_insert fd _
      rw [show t.sockets.opened = _ from accounts', if_pos rfl] at member
      have before : fd ∈ p.st.sockets.opened := accounts ▸ member
      exact before fresh

theorem accounts_close {fd : Fd} (accounts : p.Accounts) :
    Process.Accounts ⟨p.st.close fd, p.held.filter (· ≠ fd)⟩ := by
  show (p.st.sockets.close fd).opened = _
  rw [opened_close, show p.st.sockets.opened = _ from accounts]
  ext i
  simp

end Steps

/-- In a run of calls the open sockets are always those that the caller holds, exactly when every
call of the run meets the condition of its function. -/
theorem accounts_throughout_iff {steps : List (Process × Call)} {p : Process}
    (h : attempts.Run steps p) :
    Throughout (fun _ => Process.Accounts) steps p ↔ ∀ q ∈ steps, Keeps q.1 q.2 := by
  apply h.throughout_iff (J := fun _ => Process.Accounts)
  · rintro p ⟨opened, held⟩
    rw [Process.Accounts, opened, held]
    simp
  · exact fun _ _ accounts => accounts
  · intro steps p c q _ accounts lawful run
    cases c with
    | unblockConnect a =>
      have kept := accounts_keep accounts run (unblockConnect_cases lawful)
      exact ⟨kept.mpr, kept.mp⟩
    | timeoutConnect time a =>
      have kept := accounts_keep accounts run (timeoutConnect_cases lawful time)
      exact ⟨kept.mpr, kept.mp⟩
    | close fd =>
      obtain rfl := Option.some.inj run
      exact ⟨fun _ => accounts_close accounts, fun _ => trivial⟩

/-- A connection is made and closed. -/
theorem accounts_throughout_iff_made : ∃ steps p, attempts.Run steps p ∧ steps.length = 2 ∧
    Throughout (fun _ => Process.Accounts) steps p := by
  have start : attempts.Run [] ⟨quiet, []⟩ := .start ⟨by simp [quiet, opened], rfl⟩
  have lawful : attempts.Lawful ⟨quiet, []⟩ (Call.unblockConnect (answering 3 (.ok ()))) :=
    answered_answering 3 _ (by decide)
  obtain ⟨p, made, held⟩ : ∃ p, attempts.step ⟨quiet, []⟩
      (Call.unblockConnect (answering 3 (.ok ()))) = some p ∧ p.held = [3] := ⟨_, rfl, rfl⟩
  have holds : attempts.Lawful p (Call.close 3) := by simp [attempts, Process.Lawful, held]
  have run := (start.step lawful made).step holds rfl
  refine ⟨_, _, run, rfl, (accounts_throughout_iff run).mpr ?_⟩
  intro q mem
  rcases List.mem_pair.mp mem with rfl | rfl
  · exact fun _ _ => trivial
  · trivial

end JiajiaNetwork.TimedConnect
