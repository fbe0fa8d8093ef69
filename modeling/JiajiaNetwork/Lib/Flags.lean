/- Sets of flags in one machine word, tested with a bitwise and. -/
import Mathlib.Data.BitVec
import Mathlib.Tactic.Common

set_option autoImplicit false
set_option relaxedAutoImplicit false

namespace JiajiaNetwork.Lib

variable {w : Nat}

/-- The C test `m & b`. -/
def has (m b : BitVec w) : Prop := m &&& b ≠ 0

instance (m b : BitVec w) : Decidable (has m b) := inferInstanceAs (Decidable (_ ≠ _))

/-- Every flag of `m` is a flag of `limit`. -/
def Within (m limit : BitVec w) : Prop := m &&& ~~~limit = 0

instance (m limit : BitVec w) : Decidable (Within m limit) :=
  inferInstanceAs (Decidable (_ = _))

theorem has_iff_getLsbD {m b : BitVec w} :
    has m b ↔ ∃ i : Nat, m.getLsbD i = true ∧ b.getLsbD i = true := by
  rw [has, Ne, ← not_iff_not, not_not, BitVec.eq_of_getLsbD_eq_iff]
  simp only [BitVec.getLsbD_and, not_exists, not_and]
  constructor
  · intro h i hm hb
    have bound : i < w := BitVec.lt_of_getLsbD hm
    have := h i bound
    simp [hm, hb] at this
  · intro h i _
    have := h i
    cases hm : m.getLsbD i <;> simp_all

@[simp] theorem has_or {a b x : BitVec w} : has (a ||| b) x ↔ has a x ∨ has b x := by
  simp only [has_iff_getLsbD, BitVec.getLsbD_or, Bool.or_eq_true, or_and_right, exists_or]

@[simp] theorem not_has_zero {x : BitVec w} : ¬ has (0#w) x := by simp [has]

theorem Within.has {m limit x : BitVec w} (h : Within m limit) (hx : has m x) : has limit x := by
  obtain ⟨i, hm, hb⟩ := has_iff_getLsbD.mp hx
  refine has_iff_getLsbD.mpr ⟨i, ?_, hb⟩
  have zero : (m &&& ~~~limit).getLsbD i = false := by
    rw [h]
    exact BitVec.getLsbD_zero
  have bound : i < w := BitVec.lt_of_getLsbD hm
  simpa [hm, bound] using zero

/-- Flags whose part in `mask` was replaced and then put back are what they were. -/
theorem restore_masked (old new mask : BitVec w) :
    (old &&& mask) ||| (((new &&& mask) ||| (old &&& ~~~mask)) &&& ~~~mask) = old := by
  apply BitVec.eq_of_getLsbD_eq
  intro i inside
  simp only [BitVec.getLsbD_or, BitVec.getLsbD_and, BitVec.getLsbD_not, inside, decide_true,
    Bool.true_and]
  cases old.getLsbD i <;> cases mask.getLsbD i <;> simp

end JiajiaNetwork.Lib
