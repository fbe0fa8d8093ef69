/- Tables of open descriptors, and calls that are to open at most one of them: such a call returns
   the descriptor that it opened, or -1 with everything closed. -/
import Mathlib.Data.Set.Insert
import Mathlib.Logic.Function.Basic
import Mathlib.Tactic.Common

set_option autoImplicit false
set_option relaxedAutoImplicit false

namespace JiajiaNetwork.Lib

universe u

/-- What stands behind each open descriptor. -/
abbrev Descriptors (α : Type u) := Int → Option α

namespace Descriptors

variable {α : Type u}

def install (t : Descriptors α) (fd : Int) (x : α) : Descriptors α :=
  Function.update t fd (some x)

def close (t : Descriptors α) (fd : Int) : Descriptors α := Function.update t fd none

/-- A change of what stands behind a descriptor, which does nothing if that is not open. -/
def alter (t : Descriptors α) (fd : Int) (f : α → α) : Descriptors α :=
  Function.update t fd ((t fd).map f)

/-- The descriptors that are open. -/
def opened (t : Descriptors α) : Set Int := {fd | t fd ≠ none}

/-- What a call returns that is to open one descriptor, with `P` behind it: that descriptor, or -1
with nothing left open. -/
def Opens (P : Int → α → Prop) (t : Descriptors α) (ret : Int) (u : Descriptors α) : Prop :=
  if ret = -1 then u = t else t ret = none ∧ ∃ x, P ret x ∧ u = t.install ret x

variable {t u : Descriptors α} {fd ret : Int} {x : α} {f : α → α} {P : Int → α → Prop}

@[simp] theorem install_apply : t.install fd x fd = some x := Function.update_self fd _ t

@[simp] theorem alter_install : (t.install fd x).alter fd f = t.install fd (f x) := by
  simp [alter, install]

/-- To open a descriptor and to close it leaves no trace. -/
theorem close_install (fresh : t fd = none) : (t.install fd x).close fd = t := by
  rw [close, install, Function.update_idem, ← fresh, Function.update_eq_self]

theorem install_ne (fresh : t fd = none) : t.install fd x ≠ t := by
  intro same
  have here := congrFun same fd
  rw [install_apply, fresh] at here
  cases here

theorem alter_of_closed (closed : t fd = none) : t.alter fd f = t := by
  rw [alter, closed, Option.map_none, ← closed, Function.update_eq_self]

theorem opened_install : (t.install fd x).opened = insert fd t.opened := by
  ext i
  by_cases same : i = fd
  · simp [opened, install, same]
  · simp [opened, install, same]

theorem opened_close : (t.close fd).opened = t.opened \ {fd} := by
  ext i
  by_cases same : i = fd
  · simp [opened, close, same]
  · simp [opened, close, same]

theorem opens_failed_iff : Opens P t (-1) u ↔ u = t := by rw [Opens, if_pos rfl]

theorem opens_install (nonneg : 0 ≤ fd) (fresh : t fd = none) (holds : P fd x) :
    Opens P t fd (t.install fd x) := by
  have valid : fd ≠ -1 := by omega
  rw [Opens, if_neg valid]
  exact ⟨fresh, x, holds, rfl⟩

/-- The descriptors that are open behind such a call are those before it and what it returned. -/
theorem Opens.opened (h : Opens P t ret u) :
    u.opened = if ret = -1 then t.opened else insert ret t.opened := by
  unfold Opens at h
  split_ifs at h ⊢ with failed
  · rw [h]
  · obtain ⟨-, x, -, rfl⟩ := h
    exact opened_install

end Descriptors

end JiajiaNetwork.Lib
