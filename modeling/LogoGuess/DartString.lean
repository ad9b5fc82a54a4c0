/-
**Strings, as the Dart core library sees them.**

A string is the list of its characters, none of which is a surrogate.  The operations below are
those of the core library that a program reaches for when it takes a path apart or prints a number
and reads it back; each one is total here, with `none` for the exception it throws.

Main definitions:

* `Dart.indexOf`, `Dart.substring` — the position of a first occurrence (`-1` if there is none),
  and the units between two positions;
* `Dart.CaseMap` — the upper-case mapping of the runtime, applied to one unit;
* `Dart.intToString`, `Dart.intParse`, `Dart.doubleParse` — printing a number and reading it.

Main results:

* `Dart.substring_reverse_indexOf` — **reversing, searching and cutting**: taking `substring` from
  `k` to the first separator of a reversed string drops the last `k` units of the last segment,
  and throws exactly when that segment has fewer than `k` units;
* `Dart.exists_last_segment` — a string with a separator has a last segment;
* `Dart.intParse_intToString` — reading undoes printing.
-/

import Mathlib.Data.List.Basic
import Mathlib.Data.Rat.Defs

set_option relaxedAutoImplicit false
set_option autoImplicit false

namespace Dart

/-- A string without surrogate pairs: each of its code units is a character, and the positions of
the one are those of the other. -/
abbrev Str := List Char

/-- Strings are compared unit by unit.  The instance has a name so that the definitions that look
for a string in a list share it; otherwise each of them carries a proof of its own. -/
instance : LawfulBEq Str := inferInstance

/-- The upper-case mapping of the runtime.  A unit may map to several (the German `ß` maps to two),
but never to none. -/
structure CaseMap where
  /-- The upper-case form of a string of one unit. -/
  toUpperCase : Char → Str
  /-- It is never the empty string. -/
  toUpperCase_ne_nil : ∀ c, toUpperCase c ≠ []

/-- The mapping on the ASCII letters, every other unit being its own upper-case form. -/
def CaseMap.ascii : CaseMap where
  toUpperCase c := [c.toUpper]
  toUpperCase_ne_nil _ := List.cons_ne_nil _ _

/-! ### Searching and cutting -/

/-- `s.indexOf(c)`: the position of the first `c`, or `-1`. -/
def indexOf (c : Char) (s : Str) : ℤ :=
  if c ∈ s then (s.idxOf c : ℤ) else -1

/-- `s.substring(a, b)`; the value `none` is the `RangeError`. -/
def substring (s : Str) (a b : ℤ) : Option Str :=
  if 0 ≤ a ∧ a ≤ b ∧ b ≤ s.length then some ((s.take b.toNat).drop a.toNat) else none

theorem indexOf_of_notMem {c : Char} {s : Str} (h : c ∉ s) : indexOf c s = -1 := by
  rw [indexOf, if_neg h]

theorem indexOf_append_cons {c : Char} {s : Str} (h : c ∉ s) (t : Str) :
    indexOf c (s ++ c :: t) = s.length := by
  rw [indexOf, if_pos (by simp), List.idxOf_append_of_notMem h, List.idxOf_cons_self]
  simp

theorem substring_of_lt {s : Str} {a b : ℤ} (h : b < a) : substring s a b = none := by
  rw [substring, if_neg (by omega)]

/-- A string with a separator `c` is split by its last one. -/
theorem exists_last_segment {c : Char} {s : Str} (h : c ∈ s) :
    ∃ d b, s = d ++ c :: b ∧ c ∉ b := by
  obtain ⟨b, d, hs, hb⟩ := List.eq_append_cons_of_mem (List.mem_reverse.2 h)
  refine ⟨d.reverse, b.reverse, ?_, by simpa using hb⟩
  simpa using congrArg List.reverse hs

/-- **Reversing, searching and cutting.**  In the reversed string the first separator stands right
after the reversed last segment `b`, so cutting from `k` up to it keeps `b` without its last `k`
units. -/
theorem substring_reverse_indexOf {c : Char} {d b : Str} (hb : c ∉ b) (k : ℕ) :
    substring (d ++ c :: b).reverse k (indexOf c (d ++ c :: b).reverse) =
      if k ≤ b.length then some (b.take (b.length - k)).reverse else none := by
  have hrev : (d ++ c :: b).reverse = b.reverse ++ c :: d.reverse := by simp
  have hpos : indexOf c (d ++ c :: b).reverse = b.length := by
    rw [hrev, indexOf_append_cons (by simpa using hb), List.length_reverse]
  rw [hpos]
  by_cases hk : k ≤ b.length
  · have hlen : (b.length : ℤ) ≤ (d ++ c :: b).reverse.length := by
      simp only [List.length_reverse, List.length_append, List.length_cons]
      omega
    rw [if_pos hk, substring, if_pos ⟨by omega, by omega, hlen⟩, hrev]
    have htake : (b.reverse ++ c :: d.reverse).take b.length = b.reverse := by
      rw [List.take_append_of_le_length (by simp), List.take_of_length_le (by simp)]
    rw [Int.toNat_natCast, Int.toNat_natCast, htake, List.drop_reverse]
  · rw [if_neg hk, substring_of_lt (by omega)]

/-- Without a separator nothing can be cut. -/
theorem substring_indexOf_of_notMem {c : Char} {s : Str} (h : c ∉ s) (k : ℕ) :
    substring s k (indexOf c s) = none := by
  rw [indexOf_of_notMem h]
  exact substring_of_lt (by omega)

/-! ### Printing and reading numbers -/

/-- `i.toString()`. -/
def intToString : ℤ → Str
  | Int.ofNat n => Nat.toDigits 10 n
  | Int.negSucc n => '-' :: Nat.toDigits 10 (n + 1)

/-- Reading a non-empty list of decimal digits. -/
def natParse (s : Str) : Option ℕ :=
  if s ≠ [] ∧ s.all Char.isDigit then some (Nat.ofDigitChars 10 s 0) else none

/-- `int.parse(s)` on decimal numerals with an optional sign, which is what `toString` prints.  The
numerals with white space around them and the hexadecimal ones after `0x`, which `int.parse` reads
as well, are rejected here. -/
def intParse : Str → Option ℤ
  | '-' :: s => (natParse s).map fun n => -(n : ℤ)
  | '+' :: s => (natParse s).map fun n => (n : ℤ)
  | s => (natParse s).map fun n => (n : ℤ)

/-- `double.parse(s)` on the same numerals, with exact values.  Numerals with a point or an
exponent, `NaN` and `Infinity` are rejected here. -/
def doubleParse (s : Str) : Option ℚ := (intParse s).map fun i => (i : ℚ)

theorem natParse_toDigits (n : ℕ) : natParse (Nat.toDigits 10 n) = some n := by
  have hdig : (Nat.toDigits 10 n).all Char.isDigit = true :=
    List.all_eq_true.2 fun c hc => Nat.isDigit_of_mem_toDigits (by omega) (by omega) hc
  rw [natParse, if_pos ⟨Nat.toDigits_ne_nil, hdig⟩, Nat.ofDigitChars_ten_toDigits]

/-- A string of digits does not start with a sign. -/
theorem intParse_of_digits {s : Str} (h : ∀ c ∈ s, c.isDigit = true) :
    intParse s = (natParse s).map fun n => (n : ℤ) := by
  match s with
  | [] => rfl
  | c :: s =>
      have hc := h c (List.mem_cons_self ..)
      rw [intParse]
      · rintro t ⟨⟩
        exact absurd hc (by decide)
      · rintro t ⟨⟩
        exact absurd hc (by decide)

/-- **Reading undoes printing.** -/
theorem intParse_intToString (i : ℤ) : intParse (intToString i) = some i := by
  cases i with
  | ofNat n =>
      have hdig : ∀ c ∈ Nat.toDigits 10 n, c.isDigit = true :=
        fun c hc => Nat.isDigit_of_mem_toDigits (by omega) (by omega) hc
      rw [intToString, intParse_of_digits hdig, natParse_toDigits]
      rfl
  | negSucc n =>
      rw [intToString, intParse, natParse_toDigits]
      rfl

theorem doubleParse_intToString (i : ℤ) : doubleParse (intToString i) = some (i : ℚ) := by
  rw [doubleParse, intParse_intToString]
  rfl

end Dart
