/- The status words that `waitpid` stores and the macros of `<sys/wait.h>` that take them apart. A
   word tells how a child has changed, and no two of the four kinds are confused. -/
import Mathlib.Data.BitVec
import Mathlib.Tactic.Common

set_option autoImplicit false
set_option relaxedAutoImplicit false

namespace JiajiaNetwork.Lib

/-- A signal number, between 1 and 126. -/
structure Signal where
  number : BitVec 7
  isSignal : number ≠ 0 ∧ number ≠ 127

/-- How a child process has changed. -/
inductive Change
  | exited (code : BitVec 8)
  | killed (sig : Signal) (core : Bool)
  | stopped (sig : Signal)
  | continued

namespace Change

/-- The changes that no other one follows. -/
def final : Change → Bool
  | .exited _ | .killed _ _ => true
  | .stopped _ | .continued => false

/-- The word that the kernel stores for a change. -/
def status : Change → BitVec 32
  | .exited code => code.zeroExtend 32 <<< 8
  | .killed sig core => sig.number.zeroExtend 32 ||| if core then 0x80 else 0
  | .stopped sig => sig.number.zeroExtend 32 <<< 8 ||| 0x7f
  | .continued => 0xffff

end Change

def wtermsig (status : BitVec 32) : BitVec 32 := status &&& 0x7f
def wexitstatus (status : BitVec 32) : BitVec 32 := (status &&& 0xff00) >>> 8
def wstopsig (status : BitVec 32) : BitVec 32 := wexitstatus status

def wifexited (status : BitVec 32) : Bool := wtermsig status = 0
/-- `((signed char) ((status & 0x7f) + 1) >> 1) > 0` -/
def wifsignaled (status : BitVec 32) : Bool :=
  0 < ((((status &&& 0x7f) + 1).truncate 8).sshiftRight 1).toInt
def wifstopped (status : BitVec 32) : Bool := status &&& 0xff = 0x7f
def wifcontinued (status : BitVec 32) : Bool := status = 0xffff

section Macros

theorem exited_word (code : BitVec 8) :
    wifexited (Change.exited code).status = true ∧
      wexitstatus (Change.exited code).status = code.zeroExtend 32 := by
  revert code
  decide +kernel

theorem killed_word (sig : Signal) (core : Bool) :
    wifexited (Change.killed sig core).status = false ∧
      wifsignaled (Change.killed sig core).status = true ∧
      wtermsig (Change.killed sig core).status = sig.number.zeroExtend 32 := by
  have all : ∀ (number : BitVec 7) (core : Bool), number ≠ 0 ∧ number ≠ 127 →
      let status := number.zeroExtend 32 ||| if core then (0x80 : BitVec 32) else 0
      wifexited status = false ∧ wifsignaled status = true ∧
        wtermsig status = number.zeroExtend 32 := by
    decide +kernel
  exact all sig.number core sig.isSignal

theorem stopped_word (sig : Signal) :
    wifexited (Change.stopped sig).status = false ∧
      wifsignaled (Change.stopped sig).status = false ∧
      wifstopped (Change.stopped sig).status = true ∧
      wstopsig (Change.stopped sig).status = sig.number.zeroExtend 32 := by
  have all : ∀ number : BitVec 7,
      let status := number.zeroExtend 32 <<< 8 ||| (0x7f : BitVec 32)
      wifexited status = false ∧ wifsignaled status = false ∧ wifstopped status = true ∧
        wstopsig status = number.zeroExtend 32 := by
    decide +kernel
  exact all sig.number

theorem continued_word :
    wifexited Change.continued.status = false ∧ wifsignaled Change.continued.status = false ∧
      wifstopped Change.continued.status = false ∧ wifcontinued Change.continued.status = true := by
  decide

/-- A word says that the child has ended exactly if it has. -/
theorem ended_iff (c : Change) :
    (wifexited c.status || wifsignaled c.status) = c.final := by
  cases c with
  | exited code => simp [(exited_word code).1, Change.final]
  | killed sig core => simp [(killed_word sig core).2.1, Change.final]
  | stopped sig => simp [(stopped_word sig).1, (stopped_word sig).2.1, Change.final]
  | continued => simp [continued_word.1, continued_word.2.1, Change.final]

end Macros

end JiajiaNetwork.Lib
