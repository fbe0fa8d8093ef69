/- The interest list of an epoll instance, and tables of slots that mirror it: a slot is active
   exactly when its descriptor is registered with that slot's mask and number. -/
import Mathlib.Logic.Function.Basic
import Mathlib.Tactic.Common

set_option autoImplicit false
set_option relaxedAutoImplicit false

namespace JiajiaNetwork.Lib

universe u v w

/-- For each registered descriptor its mask and the user data given with it. -/
structure Interest (κ : Type u) (μ : Type v) (δ : Type w) where
  entry : κ → Option (μ × δ)

namespace Interest

variable {κ : Type u} {μ : Type v} {δ : Type w} [DecidableEq κ]

def empty : Interest κ μ δ := ⟨fun _ => none⟩

/-- `EPOLL_CTL_ADD`, which leaves a registered descriptor as it is. -/
def add (t : Interest κ μ δ) (fd : κ) (mask : μ) (data : δ) : Interest κ μ δ :=
  if (t.entry fd).isSome then t else ⟨Function.update t.entry fd (some (mask, data))⟩

/-- `EPOLL_CTL_MOD`, which does nothing to a descriptor that is not registered. -/
def mod (t : Interest κ μ δ) (fd : κ) (mask : μ) (data : δ) : Interest κ μ δ :=
  if (t.entry fd).isSome then ⟨Function.update t.entry fd (some (mask, data))⟩ else t

/-- `EPOLL_CTL_DEL`, and what closing a descriptor does. -/
def del (t : Interest κ μ δ) (fd : κ) : Interest κ μ δ := ⟨Function.update t.entry fd none⟩

variable {t : Interest κ μ δ} {fd : κ} {mask : μ} {data : δ}

theorem add_entry (absent : t.entry fd = none) :
    (t.add fd mask data).entry = Function.update t.entry fd (some (mask, data)) := by
  simp [add, absent]

@[simp] theorem del_entry : (t.del fd).entry = Function.update t.entry fd none := rfl

@[simp] theorem del_del : (t.del fd).del fd = t.del fd := by simp [del]

end Interest

section Mirrors

variable {κ : Type u} {μ : Type v} {δ : Type w} [DecidableEq κ] [DecidableEq δ]

/-- The active slots, with descriptor and mask, are the registrations. -/
def Mirrors (slot : δ → Option (κ × μ)) (t : Interest κ μ δ) : Prop :=
  ∀ fd mask k, t.entry fd = some (mask, k) ↔ slot k = some (fd, mask)

variable {slot : δ → Option (κ × μ)} {t : Interest κ μ δ} {fd : κ} {mask : μ} {k : δ}

omit [DecidableEq κ] [DecidableEq δ] in
theorem Mirrors.unique {l : δ} {mask' : μ} (h : Mirrors slot t) (hk : slot k = some (fd, mask))
    (hl : slot l = some (fd, mask')) : k = l := by
  have first := (h fd mask k).mpr hk
  have second := (h fd mask' l).mpr hl
  have same := Option.some.inj (first.symm.trans second)
  exact (Prod.mk.inj same).2

omit [DecidableEq κ] [DecidableEq δ] in
/-- A descriptor that no active slot holds is not registered. -/
theorem Mirrors.absent (h : Mirrors slot t) (free : ∀ k mask, slot k ≠ some (fd, mask)) :
    t.entry fd = none := by
  cases entry : t.entry fd with
  | none => rfl
  | some x => exact absurd ((h fd x.1 x.2).mp entry) (free x.2 x.1)

/-- Registering a free descriptor with an idle slot. -/
theorem Mirrors.add (h : Mirrors slot t) (idle : slot k = none)
    (free : ∀ k mask, slot k ≠ some (fd, mask)) :
    Mirrors (Function.update slot k (some (fd, mask))) (t.add fd mask k) := by
  intro fd' mask' k'
  rw [Interest.add_entry (h.absent free)]
  by_cases sameFd : fd' = fd <;> by_cases sameSlot : k' = k
  · subst sameFd sameSlot
    simp
  · subst sameFd
    rw [Function.update_self, Function.update_of_ne sameSlot]
    constructor
    · intro entry
      exact absurd (Prod.mk.inj (Option.some.inj entry)).2.symm sameSlot
    · intro active
      exact absurd active (free k' mask')
  · subst sameSlot
    rw [Function.update_of_ne sameFd, Function.update_self, h, idle]
    constructor
    · intro active
      cases active
    · intro active
      exact absurd (Prod.mk.inj (Option.some.inj active)).1.symm sameFd
  · rw [Function.update_of_ne sameFd, Function.update_of_ne sameSlot]
    exact h fd' mask' k'

/-- Removing the registration of an active slot. -/
theorem Mirrors.del (h : Mirrors slot t) (active : slot k = some (fd, mask)) :
    Mirrors (Function.update slot k none) (t.del fd) := by
  intro fd' mask' k'
  rw [Interest.del_entry]
  by_cases sameFd : fd' = fd <;> by_cases sameSlot : k' = k
  · subst sameFd sameSlot
    simp
  · subst sameFd
    rw [Function.update_self, Function.update_of_ne sameSlot]
    constructor
    · intro entry
      cases entry
    · intro other
      exact absurd (h.unique other active) sameSlot
  · subst sameSlot
    rw [Function.update_of_ne sameFd, Function.update_self, h, active]
    constructor
    · intro same
      exact absurd (Prod.mk.inj (Option.some.inj same)).1.symm sameFd
    · intro none
      cases none
  · rw [Function.update_of_ne sameFd, Function.update_of_ne sameSlot]
    exact h fd' mask' k'

end Mirrors

end JiajiaNetwork.Lib
