/- `snprintf` of the C library: what formats make of their arguments, and texts that grow in a
   buffer by one call after the other, each at the end of what the calls before it wrote. -/
import Mathlib.Algebra.Group.Int.Defs
import Mathlib.Algebra.Group.Nat.Defs
import JiajiaNetwork.Lib.Slice

set_option autoImplicit false
set_option relaxedAutoImplicit false

namespace JiajiaNetwork.Lib

/-- The bytes of a string literal, all of them ASCII. -/
def literal (text : String) : List Byte := text.toList.map fun c => UInt8.ofNat c.toNat

/-- An integer in decimal, as `%ld` prints it. -/
def decimal : Int → List Byte
  | .ofNat n => (Nat.toDigits 10 n).map fun c => UInt8.ofNat c.toNat
  | .negSucc n => 45 :: (Nat.toDigits 10 (n + 1)).map fun c => UInt8.ofNat c.toNat

inductive Arg
  | s (text : List Byte)
  | ld (value : Int)

/-- What a format makes of its arguments. Other conversions than `%s`, `%ld` and `%%`, and arguments
that are missing or of another kind, are faults. -/
def expand : List Byte → List Arg → Option (List Byte)
  | [], _ => some []
  | 37 :: 115 :: format, .s text :: args => (expand format args).map (text ++ ·)
  | 37 :: 108 :: 100 :: format, .ld value :: args => (expand format args).map (decimal value ++ ·)
  | 37 :: 37 :: format, args => (expand format args).map (37 :: ·)
  | b :: format, args => if b = 37 then none else (expand format args).map (b :: ·)

example : expand (literal "%s is %ld%%") [.s (literal "half"), .ld 50] =
    some (literal "half is 50%") := by decide

/-- An `int` or a pointer difference, converted to a `size_t`. -/
def sizeT (n : Int) : Nat := (n % 2 ^ 64).toNat

section Buffer

variable {n : Int}

/-- The text that starts at a place of a buffer. -/
def CArray.textAt (buf : CArray n Byte) (start : Int) : Option (List Byte) :=
  (buf.slice start (n - start).toNat).bind cString

/-- `snprintf(buf + start, size, format, args)`: its value is the length of the whole text, and as
much of it is written, with a zero byte, as `size` has room for. -/
def snprintf (buf : CArray n Byte) (start size : Int) (format : List Byte) (args : List Arg) :
    Option (Int × CArray n Byte) :=
  (expand format args).bind fun text =>
    if sizeT size = 0 then some (text.length, buf)
    else (buf.blit start (text.take (sizeT size - 1) ++ [0])).map fun buf => (text.length, buf)

variable {buf : CArray n Byte} {text new : List Byte}

theorem snprintf_nonneg {start size ret : Int} {format : List Byte} {args : List Arg}
    {next : CArray n Byte} (run : snprintf buf start size format args = some (ret, next)) :
    0 ≤ ret := by
  unfold snprintf at run
  obtain ⟨text, -, run⟩ := Option.bind_eq_some_iff.mp run
  split_ifs at run with empty
  · obtain ⟨rfl, -⟩ := Prod.mk.inj (Option.some.inj run)
    exact Int.natCast_nonneg _
  · obtain ⟨written, -, same⟩ := Option.map_eq_some_iff.mp run
    obtain ⟨rfl, -⟩ := Prod.mk.inj same
    exact Int.natCast_nonneg _

/-- No text starts in front of a buffer. -/
theorem CArray.textAt_of_neg {start : Int} (before : start < 0) : buf.textAt start = none := by
  have outside : ¬ (0 ≤ start ∧ start + (n - start).toNat ≤ n) := fun bounds => by omega
  rw [textAt, slice, if_neg outside, Option.bind_none]

/-- A cleared buffer holds the empty text. -/
theorem CArray.textAt_cleared (room : 0 < n) :
    (⟨fun _ => 0⟩ : CArray n Byte).textAt 0 = some [] := by
  rw [textAt, slice_eq_some (by omega) (by omega), Option.bind_some, List.map_const',
    List.length_range]
  have positive : 0 < (n - 0).toNat := by omega
  exact @cString_append_replicate [] _ positive List.not_mem_nil

/-- What is written at the end of a text goes on with it. -/
theorem CArray.textAt_blit (h : buf.textAt 0 = some text) (clean : (0 : Byte) ∉ new)
    (fits : text.length + new.length < n) : ∃ next : CArray n Byte,
      buf.blit text.length (new ++ [0]) = some next ∧ next.textAt 0 = some (text ++ new) := by
  obtain ⟨ys, whole, starts⟩ := Option.bind_eq_some_iff.mp h
  obtain ⟨clean', rest, rfl⟩ := cString_eq_some_iff.mp starts
  have length := (slice_inv whole).2.1
  have inside : text.length + (new ++ [0]).length ≤ (n - 0).toNat := by
    simp only [List.length_append, List.length_singleton]
    omega
  have written := slice_overwrite_at whole inside
  rw [Int.zero_add, List.append_assoc text, List.take_left] at written
  refine ⟨_, blit_eq_some (Int.natCast_nonneg _) (by simp; omega), ?_⟩
  rw [textAt, written, Option.bind_some, cString_eq_some_iff]
  refine ⟨?_, ?_⟩
  · simp [clean, clean']
  · simp

/-- The next call of `snprintf`, at the end of the text so far. -/
theorem snprintf_append {size : Int} {format : List Byte} {args : List Arg}
    (h : buf.textAt 0 = some text) (expands : expand format args = some new)
    (clean : (0 : Byte) ∉ new) (room : new.length < size) (fits : text.length + size ≤ n)
    (small : size < 2 ^ 64) : ∃ next : CArray n Byte,
      snprintf buf text.length size format args = some ((new.length : Int), next) ∧
        next.textAt 0 = some (text ++ new) := by
  obtain ⟨next, writes, goes⟩ := CArray.textAt_blit h clean (by omega)
  have bound : sizeT size = size.toNat := by
    rw [sizeT, Int.emod_eq_of_lt (by omega) small]
  have whole : new.take (sizeT size - 1) = new := List.take_of_length_le (by omega)
  have positive : sizeT size ≠ 0 := by omega
  refine ⟨next, ?_, goes⟩
  unfold snprintf
  rw [expands, Option.bind_some, if_neg positive, whole, writes, Option.map_some]

end Buffer

/-- The digits of a number that a `long` holds. -/
theorem decimal_length_le {m : Nat} (h : m < 2 ^ 63) : (decimal m).length ≤ 19 := by
  rw [show decimal m = (Nat.toDigits 10 m).map fun c => UInt8.ofNat c.toNat from rfl,
    List.length_map, Nat.length_toDigits_le_iff (by decide) (by decide)]
  omega

theorem zero_not_mem_digits {m : Nat} :
    (0 : Byte) ∉ (Nat.toDigits 10 m).map fun c => UInt8.ofNat c.toNat := by
  intro mem
  obtain ⟨c, digit, zero⟩ := List.mem_map.mp mem
  obtain ⟨lower, upper⟩ := Char.isDigit_iff_toNat.mp
    (Nat.isDigit_of_mem_toDigits (by decide) (by decide) digit)
  have value : c.toNat % 256 = 0 := congrArg UInt8.toNat zero
  have lower : 48 ≤ c.toNat := lower
  have upper : c.toNat ≤ 57 := upper
  omega

theorem zero_not_mem_decimal {value : Int} : (0 : Byte) ∉ decimal value := by
  cases value with
  | ofNat m => exact zero_not_mem_digits
  | negSucc m =>
    intro mem
    rcases List.mem_cons.mp mem with sign | digit
    · exact absurd sign (by decide)
    · exact zero_not_mem_digits digit

end JiajiaNetwork.Lib
