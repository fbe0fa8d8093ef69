/- A semaphore whose operations are undone at the end of the process that made them: its value and
   what the processes would give back always add up to the same total. -/
import Mathlib.Algebra.BigOperators.Group.Finset.Piecewise
import Mathlib.Algebra.Order.BigOperators.Group.Finset
import Mathlib.Data.Fintype.Card
import Mathlib.Tactic.Common

set_option autoImplicit false
set_option relaxedAutoImplicit false

namespace JiajiaNetwork.Lib

universe u

/-- `adj p` is what the end of `p` adds to the value. -/
structure Semaphore (π : Type u) where
  value : Int
  adj : π → Int

namespace Semaphore

variable {π : Type u}

/-- `SETVAL`, which clears what was to be undone. -/
def ofValue (n : Int) : Semaphore π := ⟨n, fun _ => 0⟩

variable [DecidableEq π]

/-- An operation with `SEM_UNDO`; `none` is a call that blocks. -/
def semop (x : Semaphore π) (p : π) (op : Int) : Option (Semaphore π) :=
  if op = 0 then if x.value = 0 then some x else none
  else if x.value + op < 0 then none
  else some ⟨x.value + op, Function.update x.adj p (x.adj p - op)⟩

/-- The process `p` ends, in whatever way. The value does not fall below zero. -/
def release (x : Semaphore π) (p : π) : Semaphore π :=
  ⟨max 0 (x.value + x.adj p), Function.update x.adj p 0⟩

/-- An operation for which there is enough does not block. -/
theorem exists_semop {x : Semaphore π} {p : π} {op : Int} (nonzero : op ≠ 0)
    (enough : 0 ≤ x.value + op) : ∃ y, x.semop p op = some y := by
  rw [semop, if_neg nonzero, if_neg (not_lt.mpr enough)]
  exact ⟨_, rfl⟩

theorem adj_semop {x y : Semaphore π} {p : π} {op : Int} (run : x.semop p op = some y)
    (nonzero : op ≠ 0) : y.adj p = x.adj p - op := by
  unfold semop at run
  rw [if_neg nonzero] at run
  split_ifs at run
  obtain rfl := Option.some.inj run
  exact Function.update_self ..

variable [Fintype π]

def total (x : Semaphore π) : Int := x.value + ∑ p, x.adj p

variable {x y : Semaphore π} {p q : π} {op : Int}

omit [DecidableEq π] in
@[simp] theorem total_ofValue (n : Int) : (ofValue n : Semaphore π).total = n := by
  simp [total, ofValue]

theorem sum_update (f : π → Int) (p : π) (v : Int) :
    ∑ q, Function.update f p v q = ∑ q, f q - f p + v := by
  rw [Finset.sum_update_of_mem (Finset.mem_univ p), ← Finset.add_sum_erase _ f (Finset.mem_univ p),
    Finset.sdiff_singleton_eq_erase]
  omega

theorem total_semop (run : x.semop p op = some y) : y.total = x.total := by
  unfold semop at run
  split_ifs at run
  · obtain rfl := Option.some.inj run
    rfl
  · obtain rfl := Option.some.inj run
    simp only [total, sum_update]
    omega

/-- The end of a process keeps the total, as long as it gives back no more than there is. -/
theorem total_release (enough : 0 ≤ x.value + x.adj p) : (x.release p).total = x.total := by
  simp only [total, release, sum_update, max_eq_right enough]
  omega

/-- Two processes together hold no more than the total. -/
theorem adj_add_adj_le (value : 0 ≤ x.value) (nonneg : ∀ p, 0 ≤ x.adj p) (other : p ≠ q) :
    x.adj p + x.adj q ≤ x.total := by
  have pair : ∑ r ∈ {p, q}, x.adj r = x.adj p + x.adj q := Finset.sum_pair other
  have part : ∑ r ∈ {p, q}, x.adj r ≤ ∑ r, x.adj r :=
    Finset.sum_le_sum_of_subset_of_nonneg (Finset.subset_univ _) fun r _ _ => nonneg r
  rw [total]
  omega

end Semaphore

end JiajiaNetwork.Lib
