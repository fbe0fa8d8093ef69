/- A queue from which one thing is taken each time a notice is handled. A notice that is pending
   stands for all that comes until it is reported, so that a second arrival is left behind, and
   so is what a handler fails to take: nothing ever makes up for it. -/
import Mathlib.Algebra.BigOperators.Group.List.Basic
import Mathlib.Algebra.Ring.Nat
import JiajiaNetwork.Lib.Machine

set_option autoImplicit false
set_option relaxedAutoImplicit false

namespace JiajiaNetwork.Lib

universe u v

structure Gauge where
  queued : Nat
  noticed : Bool
  /-- the notices that were reported and are still to be handled -/
  ahead : Nat

namespace Gauge

/-- What a step does to a queue and its notices, and how many things it leaves behind. -/
inductive Move (g g' : Gauge) : Nat → Prop
  | idle : g'.queued = g.queued → g'.noticed = g.noticed → g'.ahead = g.ahead → Move g g' 0
  | arrives : g'.queued = g.queued + 1 → g'.noticed = true → g'.ahead = g.ahead →
      Move g g' g.noticed.toNat
  | reported : g'.queued = g.queued → g.noticed = true → g'.noticed = false →
      g'.ahead = g.ahead + 1 → Move g g' 0
  | taken : g'.queued + 1 = g.queued → g'.noticed = g.noticed → g'.ahead + 1 = g.ahead →
      Move g g' 0
  | failed : g'.queued = g.queued → g'.noticed = g.noticed → g'.ahead + 1 = g.ahead →
      Move g g' 1
  | forgotten : g'.queued = g.queued → g'.noticed = g.noticed → g'.ahead = 0 →
      Move g g' g.ahead

/-- Each thing in the queue has the pending notice or one that is ahead, or was left behind. -/
def Accounts (g : Gauge) (missed : Nat) : Prop :=
  g.queued = g.noticed.toNat + g.ahead + missed

variable {g g' : Gauge} {missed more : Nat}

theorem Accounts.move (h : g.Accounts missed) (move : Move g g' more) :
    g'.Accounts (missed + more) := by
  unfold Accounts at h ⊢
  cases move with
  | idle queued noticed ahead =>
    rw [queued, noticed, ahead]
    omega
  | arrives queued noticed ahead =>
    rw [queued, noticed, ahead, Bool.toNat_true]
    omega
  | reported queued before noticed ahead =>
    rw [before, Bool.toNat_true] at h
    rw [queued, noticed, ahead, Bool.toNat_false]
    omega
  | taken queued noticed ahead =>
    rw [noticed]
    omega
  | failed queued noticed ahead =>
    rw [noticed]
    omega
  | forgotten queued noticed ahead =>
    rw [queued, noticed, ahead]
    omega

end Gauge

section Runs

variable {σ : Type u} {ι : Type v} {M : Machine σ ι} {gauge : σ → Gauge} {missed : σ → ι → Nat}
  {steps later : List (σ × ι)} {s t : σ}

/-- What the steps of a run left behind. -/
def missedIn (missed : σ → ι → Nat) (steps : List (σ × ι)) : Nat :=
  (steps.map fun p => missed p.1 p.2).sum

theorem missedIn_append :
    missedIn missed (steps ++ later) = missedIn missed steps + missedIn missed later := by
  rw [missedIn, List.map_append, List.sum_append, ← missedIn, ← missedIn]

/-- Every step of the machine is a move of the gauge. -/
structure Gauged (M : Machine σ ι) (gauge : σ → Gauge) (missed : σ → ι → Nat) : Prop where
  start : ∀ s, M.Start s → gauge s = ⟨0, false, 0⟩
  step : ∀ s a t, M.Reachable s → M.Lawful s a → M.step s a = some t →
    Gauge.Move (gauge s) (gauge t) (missed s a)

namespace Gauged

theorem accounts (gauged : Gauged M gauge missed) (h : M.Run steps s) :
    (gauge s).Accounts (missedIn missed steps) := by
  refine h.invariant (I := fun steps s => (gauge s).Accounts (missedIn missed steps)) ?_ ?_
  · intro s first
    rw [gauged.start s first]
    rfl
  · intro steps s a t hr before lawful run
    rw [missedIn_append]
    have moved := before.move (gauged.step s a t hr.reachable lawful run)
    simpa [missedIn] using moved

/-- What is in the queue without a notice stays that many at least. -/
theorem never_fewer (gauged : Gauged M gauge missed) (h : M.Run steps s)
    (more : (M.after s).Run later t) :
    (gauge s).queued ≤ (gauge t).queued + (gauge s).noticed.toNat + (gauge s).ahead := by
  have before := gauged.accounts h
  have after := gauged.accounts (h.append more)
  rw [missedIn_append] at after
  unfold Gauge.Accounts at before after
  omega

end Gauged

end Runs

end JiajiaNetwork.Lib
