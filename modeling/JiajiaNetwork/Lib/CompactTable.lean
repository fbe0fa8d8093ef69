/- A table kept compact: slots 1 to `n` hold the members of a set, each exactly once. A new
   member is written behind the last slot; a leaving member's slot is overwritten with the
   last one. -/
import Mathlib.Data.Int.Interval
import Mathlib.Data.Set.Function
import Mathlib.Order.Basic

set_option autoImplicit false
set_option relaxedAutoImplicit false

namespace JiajiaNetwork.Lib

universe u

/-- The slots in use. -/
def rows (n : Int) : Set Int := {k | 1 ≤ k ∧ k ≤ n}

@[simp] theorem mem_rows {k n : Int} : k ∈ rows n ↔ 1 ≤ k ∧ k ≤ n := Iff.rfl

/-- Slots `1, ..., n` under `key` enumerate `S` without repetition. -/
structure Holds {α : Type u} (key : Int → α) (n : Int) (S : Set α) : Prop where
  injOn : Set.InjOn key (rows n)
  image : key '' rows n = S

/-- Overwrite slot `i` with the last slot `n`. -/
def swapLast {α : Type u} (f : Int → α) (i n : Int) : Int → α := Function.update f i (f n)

section

variable {α : Type u} {f key : Int → α} {i n : Int} {S : Set α}

/-- Every slot that is left after the removal holds what another slot held before. -/
theorem swapLast_source {k : Int} (hi : i ∈ rows n) (hk : k ∈ rows (n - 1)) :
    ∃ l ∈ rows n, l ≠ i ∧ swapLast f i n k = f l := by
  obtain ⟨hk1, hk2⟩ := hk
  obtain ⟨hi1, hi2⟩ := hi
  by_cases same : k = i
  · subst same
    exact ⟨n, ⟨by omega, le_rfl⟩, by omega, by simp [swapLast]⟩
  · exact ⟨k, ⟨hk1, by omega⟩, same, by simp [swapLast, same]⟩

/-- Every slot but the removed one keeps a place. -/
theorem swapLast_target {l : Int} (hi : i ∈ rows n) (hl : l ∈ rows n) (other : l ≠ i) :
    ∃ k ∈ rows (n - 1), swapLast f i n k = f l := by
  obtain ⟨hl1, hl2⟩ := hl
  obtain ⟨hi1, hi2⟩ := hi
  by_cases last : l = n
  · subst last
    exact ⟨i, ⟨hi1, by omega⟩, by simp [swapLast]⟩
  · exact ⟨l, ⟨hl1, by omega⟩, by simp [swapLast, other]⟩

/-- Every slot behind the removed one keeps a place that is not before it. -/
theorem swapLast_behind {l : Int} (behind : i < l) (hl : l ≤ n) :
    ∃ k, i ≤ k ∧ k ≤ n - 1 ∧ swapLast f i n k = f l := by
  by_cases last : l = n
  · subst last
    exact ⟨i, le_rfl, by omega, by rw [swapLast, Function.update_self]⟩
  · exact ⟨l, by omega, by omega, by rw [swapLast, Function.update_of_ne (by omega)]⟩

/-- From the removed slot on, the table holds what the slots behind it held. -/
theorem swapLast_ahead {k : Int} (ahead : i ≤ k) (hk : k ≤ n - 1) :
    ∃ l, i < l ∧ l ≤ n ∧ swapLast f i n k = f l := by
  by_cases same : k = i
  · subst same
    exact ⟨n, by omega, le_rfl, by rw [swapLast, Function.update_self]⟩
  · exact ⟨k, by omega, by omega, by rw [swapLast, Function.update_of_ne same]⟩

theorem Holds.empty (key : Int → α) : Holds key 0 ∅ where
  injOn := by
    rintro k ⟨hk1, hk2⟩
    omega
  image := by
    ext x
    constructor
    · rintro ⟨k, ⟨hk1, hk2⟩, -⟩
      omega
    · exact fun none => none.elim

theorem Holds.congr {key' : Int → α} (h : Holds key n S)
    (same : ∀ k ∈ rows n, key' k = key k) : Holds key' n S where
  injOn k hk l hl equal := h.injOn hk hl (by rw [← same k hk, ← same l hl, equal])
  image := (Set.image_congr same).trans h.image

theorem Holds.mem_iff (h : Holds key n S) {x : α} : x ∈ S ↔ ∃ k ∈ rows n, key k = x := by
  rw [← h.image]
  rfl

theorem Holds.mem (h : Holds key n S) {k : Int} (hk : k ∈ rows n) : key k ∈ S :=
  h.mem_iff.mpr ⟨k, hk, rfl⟩

/-- There are as many members as slots. -/
theorem Holds.card_eq {S : Finset α} (h : Holds key n (S : Set α)) : S.card = n.toNat := by
  classical
  have image : (Finset.Icc 1 n).image key = S := by
    ext x
    rw [Finset.mem_image, ← Finset.mem_coe, h.mem_iff]
    simp [Finset.mem_Icc]
  rw [← image, Finset.card_image_of_injOn, Int.card_Icc]
  · omega
  · intro k hk l hl equal
    exact h.injOn (by simpa using hk) (by simpa using hl) equal

/-- Writing a new member behind the last slot inserts it. -/
theorem Holds.push (h : Holds key n S) {x : α} (bound : 0 ≤ n) (fresh : x ∉ S) :
    Holds (Function.update key (n + 1) x) (n + 1) (insert x S) := by
  have old : ∀ k ∈ rows n, Function.update key (n + 1) x k = key k := by
    rintro k ⟨hk1, hk2⟩
    have behind : k ≠ n + 1 := by omega
    exact Function.update_of_ne behind x key
  have split : rows (n + 1) = insert (n + 1) (rows n) := by
    ext k
    simp only [mem_rows, Set.mem_insert_iff]
    omega
  have before : Holds (Function.update key (n + 1) x) n S := h.congr old
  refine ⟨?_, ?_⟩
  · rw [split, Set.injOn_insert (by simp only [mem_rows]; omega)]
    refine ⟨before.injOn, ?_⟩
    rw [before.image, Function.update_self]
    exact fresh
  · rw [split, Set.image_insert_eq, before.image, Function.update_self]

/-- Overwriting slot `i` with the last slot removes exactly its member. -/
theorem Holds.swapRemove (h : Holds key n S) (hi : i ∈ rows n) :
    Holds (swapLast key i n) (n - 1) (S \ {key i}) := by
  refine ⟨?_, ?_⟩
  · intro k hk l hl equal
    obtain ⟨hk1, hk2⟩ := hk
    obtain ⟨hl1, hl2⟩ := hl
    obtain ⟨hi1, hi2⟩ := hi
    have inj : ∀ {a b : Int}, 1 ≤ a → a ≤ n → 1 ≤ b → b ≤ n → key a = key b → a = b :=
      fun ha1 ha2 hb1 hb2 same => h.injOn ⟨ha1, ha2⟩ ⟨hb1, hb2⟩ same
    by_cases hki : k = i <;> by_cases hli : l = i
    · omega
    · subst hki
      simp only [swapLast, Function.update_self, Function.update_of_ne hli] at equal
      have := inj (by omega) le_rfl hl1 (by omega) equal
      omega
    · subst hli
      simp only [swapLast, Function.update_self, Function.update_of_ne hki] at equal
      have := inj hk1 (by omega) (by omega) le_rfl equal
      omega
    · simp only [swapLast, Function.update_of_ne hki, Function.update_of_ne hli] at equal
      exact inj hk1 (by omega) hl1 (by omega) equal
  · ext x
    constructor
    · rintro ⟨k, hk, rfl⟩
      obtain ⟨l, hl, other, moved⟩ := swapLast_source (f := key) hi hk
      rw [moved]
      exact ⟨h.mem hl, fun same => other (h.injOn hl hi same)⟩
    · rintro ⟨hx, other⟩
      obtain ⟨l, hl, rfl⟩ := h.mem_iff.mp hx
      have distinct : l ≠ i := fun same => other (by rw [same]; rfl)
      obtain ⟨k, hk, moved⟩ := swapLast_target (f := key) hi hl distinct
      exact ⟨k, hk, moved⟩

end

end JiajiaNetwork.Lib
