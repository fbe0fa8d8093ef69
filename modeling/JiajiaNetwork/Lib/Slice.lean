/- Ranges of an array of the C language: copied out as a list, or overwritten with one. -/
import JiajiaNetwork.Lib.CArray

set_option autoImplicit false
set_option relaxedAutoImplicit false

namespace JiajiaNetwork.Lib

universe u

namespace CArray

variable {n : Int} {α : Type u}

/-- The `len` cells from `start` on. -/
def slice (a : CArray n α) (start : Int) (len : Nat) : Option (List α) :=
  if 0 ≤ start ∧ start + len ≤ n then some ((List.range len).map fun j : Nat => a.cell (start + j))
  else none

/-- The array with the cells from `start` on overwritten, without the bounds check of `blit`. -/
def overwrite (a : CArray n α) (start : Int) (xs : List α) : CArray n α :=
  ⟨fun i => if start ≤ i then (xs[(i - start).toNat]?).getD (a.cell i) else a.cell i⟩

def blit (a : CArray n α) (start : Int) (xs : List α) : Option (CArray n α) :=
  if 0 ≤ start ∧ start + xs.length ≤ n then some (a.overwrite start xs) else none

variable {a b : CArray n α} {start start' : Int} {len : Nat} {xs ys : List α}

theorem ext_cell (same : ∀ i, a.cell i = b.cell i) : a = b := by
  obtain ⟨f⟩ := a
  obtain ⟨g⟩ := b
  congr
  ext i
  exact same i

theorem overwrite_cell (j : Nat) :
    (a.overwrite start xs).cell (start + j) = (xs[j]?).getD (a.cell (start + j)) := by
  have lower : start ≤ start + j := by omega
  have index : (start + j - start).toNat = j := by omega
  simp only [overwrite, if_pos lower, index]

theorem overwrite_cell_of_outside {i : Int} (outside : i < start ∨ start + xs.length ≤ i) :
    (a.overwrite start xs).cell i = a.cell i := by
  by_cases lower : start ≤ i
  · obtain ⟨j, rfl⟩ : ∃ j : Nat, i = start + j := ⟨(i - start).toNat, by omega⟩
    have beyond : xs.length ≤ j := by omega
    rw [overwrite_cell, List.getElem?_eq_none beyond, Option.getD_none]
  · simp only [overwrite, if_neg lower]

theorem overwrite_nil : a.overwrite start [] = a := by
  apply ext_cell
  intro i
  apply overwrite_cell_of_outside
  rw [List.length_nil]
  omega

theorem blit_eq_some (lo : 0 ≤ start) (hi : start + xs.length ≤ n) :
    a.blit start xs = some (a.overwrite start xs) := if_pos ⟨lo, hi⟩

theorem slice_eq_some (lo : 0 ≤ start) (hi : start + len ≤ n) :
    a.slice start len = some ((List.range len).map fun j : Nat => a.cell (start + j)) :=
  if_pos ⟨lo, hi⟩

/-- A write that succeeds says where it was. -/
theorem blit_inv (h : a.blit start xs = some b) :
    (0 ≤ start ∧ start + xs.length ≤ n) ∧ b = a.overwrite start xs := by
  unfold blit at h
  split_ifs at h with bounds
  exact ⟨bounds, (Option.some.inj h).symm⟩

theorem slice_inv (h : a.slice start len = some ys) : (0 ≤ start ∧ start + len ≤ n) ∧
    ys.length = len ∧ ∀ j < len, ys[j]? = some (a.cell (start + j)) := by
  unfold slice at h
  split_ifs at h with bounds
  obtain rfl := Option.some.inj h
  refine ⟨bounds, by simp, ?_⟩
  intro j inside
  simp [inside]

/-- Two arrays with the same cells in a range have the same slice there. -/
theorem slice_congr (same : ∀ i, start ≤ i → i < start + len → a.cell i = b.cell i) :
    a.slice start len = b.slice start len := by
  unfold slice
  split_ifs
  · congr 1
    apply List.map_congr_left
    intro j mem
    have inside := List.mem_range.mp mem
    exact same _ (by omega) (by omega)
  · rfl

/-- A write inside a range replaces a part of its slice. -/
theorem slice_overwrite_at {k : Nat} (h : a.slice start len = some ys)
    (fits : k + xs.length ≤ len) : (a.overwrite (start + k) xs).slice start len =
      some (ys.take k ++ xs ++ ys.drop (k + xs.length)) := by
  obtain ⟨⟨lo, hi⟩, length, cells⟩ := slice_inv h
  have front : (ys.take k).length = k := by
    rw [List.length_take]
    omega
  rw [slice_eq_some lo hi]
  congr 1
  apply List.ext_getElem?
  intro j
  rw [List.append_assoc]
  by_cases inside : j < len
  · rw [List.getElem?_map, List.getElem?_range inside, Option.map_some]
    by_cases before : j < k
    · rw [List.getElem?_append_left (by omega), List.getElem?_take_of_lt before, cells j inside,
        overwrite_cell_of_outside (by omega)]
    · obtain ⟨m, rfl⟩ := Nat.exists_eq_add_of_le (Nat.le_of_not_lt before)
      have shift : start + ((k + m : Nat) : Int) = start + k + m := by omega
      rw [List.getElem?_append_right (by omega), front, Nat.add_sub_cancel_left, shift,
        overwrite_cell]
      by_cases new : m < xs.length
      · rw [List.getElem?_append_left new, List.getElem?_eq_getElem new, Option.getD_some]
      · have back : xs.length ≤ m := Nat.le_of_not_lt new
        have place : k + xs.length + (m - xs.length) = k + m := by omega
        rw [List.getElem?_append_right back, List.getElem?_drop, List.getElem?_eq_none back,
          Option.getD_none, place, cells _ inside, shift]
  · have beyond : len ≤ j := Nat.le_of_not_lt inside
    rw [List.getElem?_eq_none (by simpa using beyond), List.getElem?_eq_none]
    simp only [List.length_append, List.length_drop, front]
    omega

/-- A write at the start of a range replaces the front of its slice. -/
theorem slice_overwrite (h : a.slice start len = some ys) (fits : xs.length ≤ len) :
    (a.overwrite start xs).slice start len = some (xs ++ ys.drop xs.length) := by
  have inside : 0 + xs.length ≤ len := by omega
  have at_start := slice_overwrite_at h inside
  rwa [Int.natCast_zero, Int.add_zero, List.take_zero, List.nil_append, Nat.zero_add] at at_start

/-- A write of what is there already. -/
theorem overwrite_slice (h : a.slice start len = some xs) : a.overwrite start xs = a := by
  obtain ⟨-, length, cells⟩ := slice_inv h
  apply ext_cell
  intro i
  by_cases inside : start ≤ i ∧ i < start + len
  · obtain ⟨j, rfl⟩ : ∃ j : Nat, i = start + j := ⟨(i - start).toNat, by omega⟩
    have bound : j < len := by omega
    rw [overwrite_cell, cells j bound, Option.getD_some]
  · apply overwrite_cell_of_outside
    omega

end CArray

end JiajiaNetwork.Lib
