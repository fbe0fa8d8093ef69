/- A cursor that goes round: from each position to the next one, and from the last to the first.
   As many steps as there are positions visit each of them exactly once. -/
import Mathlib.Data.List.Chain
import Mathlib.Data.List.Nodup
import Mathlib.Tactic.Common

set_option autoImplicit false
set_option relaxedAutoImplicit false

namespace JiajiaNetwork.Lib

/-- The position behind `x` among the positions `0, ..., n - 1`. -/
def nextPosition (n x : Int) : Int := if x + 1 = n then 0 else x + 1

/-- Positions below `n`, each followed by the next one. -/
structure GoesRound (n : Int) (visited : List Int) : Prop where
  range : ∀ x ∈ visited, 0 ≤ x ∧ x < n
  next : visited.IsChain fun x y => y = nextPosition n x

namespace GoesRound

variable {n x : Int} {visited block : List Int}

theorem nil : GoesRound n [] := ⟨fun _ mem => absurd mem List.not_mem_nil, .nil⟩

theorem concat (h : GoesRound n visited) (lower : 0 ≤ x) (upper : x < n)
    (next : ∀ y ∈ visited.getLast?, x = nextPosition n y) : GoesRound n (visited ++ [x]) where
  range := by
    intro y mem
    rcases List.mem_append.mp mem with old | last
    · exact h.range y old
    · rw [List.mem_singleton.mp last]
      exact ⟨lower, upper⟩
  next := by
    apply List.isChain_append.mpr
    refine ⟨h.next, .singleton x, ?_⟩
    intro y last z first
    obtain rfl : x = z := by simpa using first
    exact next y last

theorem of_infix (h : GoesRound n visited) (part : block <:+: visited) : GoesRound n block where
  range x mem := h.range x (part.subset mem)
  next := h.next.infix part

/-- The first round, position by position. -/
theorem getElem (h : GoesRound n visited) (i : Nat) (bound : i < visited.length) (round : i < n) :
    visited[i] = if visited[0] + i < n then visited[0] + i else visited[0] + i - n := by
  induction i with
  | zero =>
    have first := (h.range visited[0] (List.getElem_mem _)).2
    rw [if_pos (by omega)]
    omega
  | succ i ih =>
    have before := ih (by omega) (by omega)
    have step := h.next.getElem i bound
    have first := h.range visited[0] (List.getElem_mem _)
    rw [step, nextPosition, before]
    split_ifs <;> omega

/-- A full round visits each position exactly once. -/
theorem count (h : GoesRound n visited) (round : visited.length = n) (lower : 0 ≤ x)
    (upper : x < n) : visited.count x = 1 := by
  have some : 0 < visited.length := by omega
  have first := h.range visited[0] (List.getElem_mem _)
  have nodup : visited.Nodup := by
    apply List.pairwise_iff_getElem.mpr
    intro i j hi hj less same
    rw [h.getElem i hi (by omega), h.getElem j hj (by omega)] at same
    split_ifs at same <;> omega
  have mem : x ∈ visited := by
    apply List.mem_iff_getElem.mpr
    by_cases behind : visited[0] ≤ x
    · refine ⟨(x - visited[0]).toNat, by omega, ?_⟩
      rw [h.getElem _ (by omega) (by omega)]
      split_ifs <;> omega
    · refine ⟨(x + n - visited[0]).toNat, by omega, ?_⟩
      rw [h.getElem _ (by omega) (by omega)]
      split_ifs <;> omega
  exact List.count_eq_one_of_mem nodup mem

/-- A position is among the first `n` that are visited. -/
theorem visits (h : GoesRound n visited) (round : n ≤ visited.length) (lower : 0 ≤ x)
    (upper : x < n) : x ∈ visited.take n.toNat := by
  have part : GoesRound n (visited.take n.toNat) := h.of_infix (List.take_prefix _ _).isInfix
  have length : ((visited.take n.toNat).length : Int) = n := by
    rw [List.length_take]
    omega
  apply List.count_pos_iff.mp
  rw [part.count length lower upper]
  exact Nat.one_pos

end GoesRound

end JiajiaNetwork.Lib
