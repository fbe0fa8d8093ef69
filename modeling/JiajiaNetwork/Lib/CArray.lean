/- Arrays of the C language: an access outside the bounds is a fault, a counted loop stops
   at the first fault, and a text ends at its first zero byte. -/
import Mathlib.Logic.Function.Basic
import Mathlib.Tactic.Common

set_option autoImplicit false
set_option relaxedAutoImplicit false

namespace JiajiaNetwork.Lib

universe u v

/-- An array of `n` cells addressed by C integers. Cells outside `0 ≤ i < n` are never
reached by `get` and `set`. -/
structure CArray (n : Int) (α : Type u) where
  cell : Int → α

namespace CArray

variable {n : Int} {α : Type u}

def get (a : CArray n α) (i : Int) : Option α := if 0 ≤ i ∧ i < n then some (a.cell i) else none

/-- The array with cell `i` overwritten, without the bounds check of `set`. -/
def put (a : CArray n α) (i : Int) (x : α) : CArray n α := ⟨Function.update a.cell i x⟩

def set (a : CArray n α) (i : Int) (x : α) : Option (CArray n α) :=
  if 0 ≤ i ∧ i < n then some (a.put i x) else none

@[simp] theorem put_cell_same (a : CArray n α) (i : Int) (x : α) : (a.put i x).cell i = x := by
  simp [put]

@[simp] theorem put_cell_of_ne (a : CArray n α) {i j : Int} (x : α) (h : j ≠ i) :
    (a.put i x).cell j = a.cell j := by
  simp [put, h]

theorem put_cell (a : CArray n α) (i j : Int) (x : α) :
    (a.put i x).cell j = if j = i then x else a.cell j := by
  by_cases h : j = i
  · subst h
    simp
  · simp [h]

/-- A write that keeps a field of its cell keeps the field everywhere. -/
theorem put_field {β : Type v} {a : CArray n α} {i j : Int} {x : α} (f : α → β)
    (keeps : f x = f (a.cell i)) : f ((a.put i x).cell j) = f (a.cell j) := by
  by_cases h : j = i
  · subst h
    rw [put_cell_same, keeps]
  · rw [put_cell_of_ne a x h]

@[simp] theorem put_put (a : CArray n α) (i : Int) (x y : α) : (a.put i x).put i y = a.put i y := by
  simp [put]

theorem get_eq_some (a : CArray n α) {i : Int} (lo : 0 ≤ i) (hi : i < n) :
    a.get i = some (a.cell i) := if_pos ⟨lo, hi⟩

theorem set_eq_some (a : CArray n α) {i : Int} (x : α) (lo : 0 ≤ i) (hi : i < n) :
    a.set i x = some (a.put i x) := if_pos ⟨lo, hi⟩

end CArray

/-- `for (j = lo; ...; ++j)` over a body that leaves the number `n` of rounds alone. -/
def forLoop {σ : Type u} (body : Int → σ → Option σ) : Nat → Int → σ → Option σ
  | 0, _, s => some s
  | n + 1, j, s => (body j s).bind (forLoop body n (j + 1))

/-- The loop rule: a property of index and state kept by every round survives the loop. -/
theorem forLoop_rule {σ : Type u} (body : Int → σ → Option σ) {P : Int → σ → Prop} (n : Nat) :
    ∀ (lo : Int) (s : σ), P lo s →
      (∀ j s, lo ≤ j → j < lo + n → P j s → ∃ t, body j s = some t ∧ P (j + 1) t) →
      ∃ t, forLoop body n lo s = some t ∧ P (lo + n) t := by
  induction n with
  | zero =>
    intro lo s h0 _
    exact ⟨s, rfl, by simpa using h0⟩
  | succ n ih =>
    intro lo s h0 round
    obtain ⟨m, first, hm⟩ := round lo s (by omega) (by omega) h0
    obtain ⟨t, later, ht⟩ := ih (lo + 1) m hm
      fun j s lower upper hj => round j s (by omega) (by omega) hj
    refine ⟨t, by simp [forLoop, first, later], ?_⟩
    have shift : lo + 1 + (n : Int) = lo + ((n + 1 : Nat) : Int) := by omega
    rwa [shift] at ht

/-- `for (j = lo; ...; j++) if (test(j)) break;` over `n` rounds: the index it stops at. -/
def firstIndex (test : Int → Bool) : Nat → Int → Int
  | 0, j => j
  | n + 1, j => if test j then j else firstIndex test n (j + 1)

/-- The search stops at an index that passes, or behind the last one when none does. -/
theorem firstIndex_spec (test : Int → Bool) (n : Nat) : ∀ lo : Int,
    (lo ≤ firstIndex test n lo ∧ firstIndex test n lo < lo + n ∧
      test (firstIndex test n lo) = true) ∨
    (firstIndex test n lo = lo + n ∧ ∀ j, lo ≤ j → j < lo + n → test j = false) := by
  induction n with
  | zero =>
    intro lo
    right
    exact ⟨by simp [firstIndex], fun j lower upper => by omega⟩
  | succ n ih =>
    intro lo
    rw [firstIndex]
    cases found : test lo with
    | true =>
      left
      refine ⟨?_, ?_, ?_⟩
      · simp
      · simp only [if_true]
        omega
      · simpa using found
    | false =>
      rw [if_neg (by simp)]
      rcases ih (lo + 1) with ⟨lower, upper, passes⟩ | ⟨stop, none⟩
      · left
        exact ⟨by omega, by omega, passes⟩
      · right
        refine ⟨by omega, fun j lower upper => ?_⟩
        by_cases first : j = lo
        · rw [first, found]
        · exact none j (by omega) (by omega)

abbrev Byte := UInt8

/-- The text that starts a buffer: the bytes before its first zero, which `strlen` counts.
A buffer without a zero byte holds no text. -/
def cString : List Byte → Option (List Byte)
  | [] => none
  | b :: rest => if b = 0 then some [] else (cString rest).map (b :: ·)

/-- The first bytes of `buf` replaced by `bytes`, as a read into the buffer does. -/
def overlay (bytes buf : List Byte) : List Byte := bytes ++ buf.drop bytes.length

theorem overlay_take {bytes buf : List Byte} :
    (overlay bytes buf).take bytes.length = bytes := by
  simp [overlay]

theorem overlay_length {bytes buf : List Byte} :
    (overlay bytes buf).length = max bytes.length buf.length := by
  rw [overlay, List.length_append, List.length_drop]
  omega

/-- A chunk hides all that is left in the buffer if that is not longer. -/
theorem overlay_eq_left_iff {bytes buf : List Byte} :
    overlay bytes buf = bytes ↔ buf.length ≤ bytes.length := by
  rw [overlay, List.append_right_eq_self, List.drop_eq_nil_iff]

theorem zero_not_mem_overlay {bytes buf : List Byte} (clean : (0 : Byte) ∉ bytes)
    (before : (0 : Byte) ∉ buf) : (0 : Byte) ∉ overlay bytes buf := by
  intro mem
  rcases List.mem_append.mp mem with new | old
  · exact clean new
  · exact before (List.mem_of_mem_drop old)

/-- What is read over a buffer that is zero behind `used`. -/
theorem overlay_append_replicate {bytes used : List Byte} {n : Nat} (fits : bytes.length ≤ n) :
    overlay bytes (used ++ List.replicate (n - used.length) 0) =
      overlay bytes used ++ List.replicate (n - (overlay bytes used).length) 0 := by
  rw [overlay, List.drop_append, List.drop_replicate, ← List.append_assoc, ← overlay,
    overlay_length]
  congr 2
  omega

/-- A read that falls short leaves the zeros of a cleared buffer, which are right exactly where the
rest is zero. -/
theorem overlay_take_replicate_eq_iff {l : List Byte} {n m : Nat} (room : l.length ≤ m) :
    (overlay (l.take n) (List.replicate m 0)).take l.length = l ↔ ∀ b ∈ l.drop n, b = 0 := by
  have front : (l.take n).length ≤ l.length := List.length_take_le' n l
  have whole : (overlay (l.take n) (List.replicate m 0)).take l.length =
      l.take n ++ List.replicate (l.length - (l.take n).length) 0 := by
    rw [overlay, List.drop_replicate, List.take_append, List.take_of_length_le front,
      List.take_replicate]
    congr 2
    omega
  have rest : l.length - (l.take n).length = (l.drop n).length := by
    rw [List.length_take, List.length_drop]
    omega
  rw [whole, rest]
  calc l.take n ++ List.replicate (l.drop n).length 0 = l
      ↔ l.take n ++ List.replicate (l.drop n).length 0 = l.take n ++ l.drop n := by
        rw [List.take_append_drop]
    _ ↔ List.replicate (l.drop n).length 0 = l.drop n := List.append_right_inj _
    _ ↔ ∀ b ∈ l.drop n, b = 0 := by
        rw [eq_comm, List.eq_replicate_iff]
        exact and_iff_right rfl

theorem cString_append_zero {bytes : List Byte} (rest : List Byte) (clean : (0 : Byte) ∉ bytes) :
    cString (bytes ++ 0 :: rest) = some bytes := by
  induction bytes with
  | nil => simp [cString]
  | cons b bytes ih =>
    obtain ⟨head, tail⟩ := not_or.mp (List.mem_cons.not.mp clean)
    simp [cString, Ne.symm head, ih tail]

/-- A buffer holds a text if there is a zero byte in it. -/
theorem cString_isSome {buf : List Byte} : (cString buf).isSome ↔ 0 ∈ buf := by
  induction buf with
  | nil => simp [cString]
  | cons b rest ih =>
    by_cases zero : b = 0
    · simp [cString, zero]
    · simp [cString, zero, ih, Ne.symm zero]

/-- A text that starts in front of `rest` ends there or goes on in it. -/
theorem cString_append {buf rest : List Byte} : cString (buf ++ rest) =
    if 0 ∈ buf then cString buf else (cString rest).map (buf ++ ·) := by
  induction buf with
  | nil => simp
  | cons b buf ih =>
    by_cases zero : b = 0
    · simp [cString, zero]
    · rw [List.cons_append, cString, if_neg zero, ih]
      by_cases later : 0 ∈ buf
      · simp [cString, zero, later]
      · simp [Ne.symm zero, later, Function.comp_def]

theorem cString_eq_some_iff {buf : List Byte} :
    ∀ {text : List Byte}, cString buf = some text ↔ 0 ∉ text ∧ text ++ [0] <+: buf := by
  induction buf with
  | nil => simp [cString]
  | cons b rest ih =>
    intro text
    rw [cString]
    split_ifs with zero
    · subst zero
      constructor
      · rintro h
        obtain rfl := Option.some.inj h
        exact ⟨List.not_mem_nil, List.prefix_append [0] rest⟩
      · rintro ⟨clean, starts⟩
        cases text with
        | nil => rfl
        | cons c text =>
          obtain ⟨rfl, -⟩ := List.cons_prefix_cons.mp starts
          exact absurd List.mem_cons_self clean
    · rw [Option.map_eq_some_iff]
      constructor
      · rintro ⟨tail, later, rfl⟩
        obtain ⟨clean, starts⟩ := ih.mp later
        refine ⟨?_, List.cons_prefix_cons.mpr ⟨rfl, starts⟩⟩
        exact fun mem => (List.mem_cons.mp mem).elim (fun same => zero same.symm) clean
      · rintro ⟨clean, starts⟩
        cases text with
        | nil => exact absurd (List.cons_prefix_cons.mp starts).1.symm zero
        | cons c text =>
          obtain ⟨rfl, later⟩ := List.cons_prefix_cons.mp starts
          exact ⟨text, ih.mpr ⟨fun mem => clean (List.mem_cons_of_mem _ mem), later⟩, rfl⟩

/-- The text of a buffer that is zero behind `used` is `used`. -/
theorem cString_append_replicate {used : List Byte} {n : Nat} (short : used.length < n)
    (clean : (0 : Byte) ∉ used) :
    cString (used ++ List.replicate (n - used.length) 0) = some used := by
  obtain ⟨m, more⟩ : ∃ m, n - used.length = m + 1 := ⟨n - used.length - 1, by omega⟩
  rw [more, List.replicate_succ]
  exact cString_append_zero _ clean

/-- A short message without zero bytes, read into a cleared buffer, is the buffer's text. -/
theorem cString_overlay_replicate {bytes : List Byte} {n : Nat} (short : bytes.length < n)
    (clean : (0 : Byte) ∉ bytes) : cString (overlay bytes (List.replicate n 0)) = some bytes := by
  rw [overlay, List.drop_replicate]
  exact cString_append_replicate short clean

end JiajiaNetwork.Lib
