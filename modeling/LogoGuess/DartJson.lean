/-
**Lists of strings as JSON texts.**

What `json.encode` writes for a list of strings and what `json.decode` reads from such a text.  The
writer escapes quotation marks, backslashes and control characters and puts no white space between
the tokens.  The reader is an automaton that goes through the text once; it also accepts white space
between the tokens and the escapes that the writer does not use.  JSON texts that are not lists of
strings are not read.

Main definitions:

* `Dart.Json.encode` — the writer;
* `Dart.Json.Reader`, `Dart.Json.decode` — the reader.

Main results:

* `Dart.Json.read_encodeChar`, `Dart.Json.read_encodeString` — the reader on a written character
  and on a written string;
* `Dart.Json.decode_encode` — **reading undoes writing**;
* `Dart.Json.decode_nil` — the empty text is not JSON.
-/

import LogoGuess.DartString
import Mathlib.Data.List.Basic

set_option relaxedAutoImplicit false
set_option autoImplicit false

namespace Dart

namespace Json

/-! ### The writer -/

/-- The letter that follows the backslash for a character with a short escape. -/
def shortEscape : Char → Option Char
  | '\x22' => some '\x22'
  | '\x5c' => some '\x5c'
  | '\x08' => some 'b'
  | '\x0c' => some 'f'
  | '\x0a' => some 'n'
  | '\x0d' => some 'r'
  | '\x09' => some 't'
  | _ => none

/-- A hexadecimal digit. -/
def hexDigit (d : ℕ) : Char := if d < 10 then Char.ofNat (48 + d) else Char.ofNat (87 + d)

/-- A character inside a string. -/
def encodeChar (c : Char) : Str :=
  match shortEscape c with
  | some d => ['\x5c', d]
  | none =>
      if c.toNat < 32 then
        ['\x5c', 'u', '0', '0', hexDigit (c.toNat / 16), hexDigit (c.toNat % 16)]
      else [c]

/-- A string with its quotation marks. -/
def encodeString (s : Str) : Str := '\x22' :: (s.flatMap encodeChar ++ ['\x22'])

/-- **`json.encode(l)`** on a list of strings. -/
def encode : List Str → Str
  | [] => ['[', ']']
  | s :: l => '[' :: (encodeString s ++ l.flatMap (fun t => ',' :: encodeString t) ++ [']'])

/-! ### The reader -/

/-- The character that a short escape stands for. -/
def unescape : Char → Option Char
  | '\x22' => some '\x22'
  | '\x5c' => some '\x5c'
  | '/' => some '/'
  | 'b' => some '\x08'
  | 'f' => some '\x0c'
  | 'n' => some '\x0a'
  | 'r' => some '\x0d'
  | 't' => some '\x09'
  | _ => none

/-- The value of a hexadecimal digit. -/
def hexValue (c : Char) : Option ℕ :=
  if '0' ≤ c ∧ c ≤ '9' then some (c.toNat - 48)
  else if 'a' ≤ c ∧ c ≤ 'f' then some (c.toNat - 87)
  else if 'A' ≤ c ∧ c ≤ 'F' then some (c.toNat - 55)
  else none

def isSpace (c : Char) : Bool := c = ' ' ∨ c = '\x09' ∨ c = '\x0a' ∨ c = '\x0d'

/-- The state of the reader; `l` is the list of the strings read so far and `acc` the part of the
current one. -/
inductive Reader where
  /-- Nothing has been read. -/
  | start
  /-- After the opening bracket. -/
  | opened
  /-- Inside a string. -/
  | string (l : List Str) (acc : Str)
  /-- After a backslash. -/
  | escape (l : List Str) (acc : Str)
  /-- Inside a numeric escape of which `k` digits with the value `n` have been read. -/
  | unicode (l : List Str) (acc : Str) (k n : ℕ)
  /-- After a string. -/
  | item (l : List Str)
  /-- After a comma. -/
  | comma (l : List Str)
  /-- After the closing bracket. -/
  | closed (l : List Str)
  /-- The text is not a list of strings. -/
  | failed

/-- One more digit of a numeric escape. -/
def Reader.digit (l : List Str) (acc : Str) (k n d : ℕ) : Reader :=
  if k < 3 then .unicode l acc (k + 1) (n * 16 + d)
  else if (n * 16 + d).isValidChar then .string l (acc ++ [Char.ofNat (n * 16 + d)])
  else .failed

/-- **One character is read.** -/
def Reader.next (r : Reader) (c : Char) : Reader :=
  match r with
  | .start => if isSpace c then .start else if c = '[' then .opened else .failed
  | .opened =>
      if isSpace c then .opened
      else if c = '\x22' then .string [] []
      else if c = ']' then .closed []
      else .failed
  | .string l acc =>
      if c = '\x22' then .item (l ++ [acc])
      else if c = '\x5c' then .escape l acc
      else if c.toNat < 32 then .failed
      else .string l (acc ++ [c])
  | .escape l acc =>
      if c = 'u' then .unicode l acc 0 0
      else
        match unescape c with
        | some d => .string l (acc ++ [d])
        | none => .failed
  | .unicode l acc k n =>
      match hexValue c with
      | some d => .digit l acc k n d
      | none => .failed
  | .item l =>
      if isSpace c then .item l
      else if c = ',' then .comma l
      else if c = ']' then .closed l
      else .failed
  | .comma l => if isSpace c then .comma l else if c = '\x22' then .string l [] else .failed
  | .closed l => if isSpace c then .closed l else .failed
  | .failed => .failed

/-- Reading a text from a given state of the reader. -/
def read (r : Reader) (s : Str) : Reader := s.foldl Reader.next r

/-- **`json.decode(s)`** on texts of lists of strings; `none` stands for the `FormatException`. -/
def decode (s : Str) : Option (List Str) :=
  match read .start s with
  | .closed l => some l
  | _ => none

/-! ### Reading undoes writing -/

theorem read_cons (r : Reader) (c : Char) (s : Str) : read r (c :: s) = read (r.next c) s := rfl

theorem read_append (r : Reader) (s t : Str) : read r (s ++ t) = read (read r s) t :=
  List.foldl_append

/-- The short escapes are read back. -/
theorem unescape_of_shortEscape {c d : Char} (h : shortEscape c = some d) :
    unescape d = some c ∧ d ≠ 'u' := by
  unfold shortEscape at h
  split at h
  all_goals first
    | (obtain rfl := Option.some_inj.1 h; exact ⟨rfl, by decide⟩)
    | exact absurd h (by simp)

/-- The hexadecimal digits are read back. -/
theorem hexValue_hexDigit : ∀ d < 16, hexValue (hexDigit d) = some d := by decide

/-- Characters that are written as they are. -/
theorem ne_of_shortEscape_eq_none {c : Char} (h : shortEscape c = none) :
    c ≠ '\x22' ∧ c ≠ '\x5c' := by
  constructor
  · rintro rfl
    exact absurd h (by decide)
  · rintro rfl
    exact absurd h (by decide)

/-- **The reader on a written character.** -/
theorem read_encodeChar (l : List Str) (acc : Str) (c : Char) :
    read (.string l acc) (encodeChar c) = .string l (acc ++ [c]) := by
  rw [encodeChar]
  cases hc : shortEscape c with
  | some d =>
      obtain ⟨hd, hu⟩ := unescape_of_shortEscape hc
      change (Reader.escape l acc).next d = _
      rw [Reader.next]
      simp only [hu, if_false, hd]
  | none =>
      obtain ⟨hquote, hslash⟩ := ne_of_shortEscape_eq_none hc
      by_cases hctrl : c.toNat < 32
      · have hhigh : hexValue (hexDigit (c.toNat / 16)) = some (c.toNat / 16) :=
          hexValue_hexDigit _ (by omega)
        have hlow : hexValue (hexDigit (c.toNat % 16)) = some (c.toNat % 16) :=
          hexValue_hexDigit _ (by omega)
        have hval : (0 * 16 + c.toNat / 16) * 16 + c.toNat % 16 = c.toNat := by omega
        simp only [hctrl, if_true]
        change read (Reader.unicode l acc 2 0)
          [hexDigit (c.toNat / 16), hexDigit (c.toNat % 16)] = _
        rw [read_cons, Reader.next, hhigh]
        change (Reader.unicode l acc 3 (0 * 16 + c.toNat / 16)).next _ = _
        rw [Reader.next, hlow]
        change Reader.digit l acc 3 (0 * 16 + c.toNat / 16) (c.toNat % 16) = _
        have hvalid : c.toNat.isValidChar := c.valid
        rw [Reader.digit, hval, if_neg (by decide), if_pos hvalid, Char.ofNat_toNat]
      · simp only [hctrl, if_false]
        change (Reader.string l acc).next c = _
        rw [Reader.next, if_neg hquote, if_neg hslash, if_neg hctrl]

theorem read_flatMap_encodeChar (l : List Str) (acc s : Str) :
    read (.string l acc) (s.flatMap encodeChar) = .string l (acc ++ s) := by
  induction s generalizing acc with
  | nil => simp [read]
  | cons c s ih =>
      rw [List.flatMap_cons, read_append, read_encodeChar, ih, List.append_assoc]
      rfl

/-- **The reader on a written string**, after its opening quotation mark. -/
theorem read_encodeString (l : List Str) (s : Str) :
    read (.string l []) (s.flatMap encodeChar ++ ['\x22']) = .item (l ++ [s]) := by
  rw [read_append, read_flatMap_encodeChar]
  rfl

theorem read_items (l l' : List Str) :
    read (.item l) (l'.flatMap fun t => ',' :: encodeString t) = .item (l ++ l') := by
  induction l' generalizing l with
  | nil => simp [read]
  | cons t l' ih =>
      have hone : read (.item l) (',' :: encodeString t) = .item (l ++ [t]) :=
        read_encodeString l t
      rw [List.flatMap_cons, read_append, hone, ih, List.append_assoc]
      rfl

/-- **Reading undoes writing.** -/
theorem decode_encode (l : List Str) : decode (encode l) = some l := by
  cases l with
  | nil => rfl
  | cons s l =>
      have hfirst : read .opened (encodeString s) = .item [s] := read_encodeString [] s
      have hread : read .start (encode (s :: l)) = .closed (s :: l) := by
        rw [encode, read_cons]
        change read .opened _ = _
        rw [read_append, read_append, hfirst, read_items]
        rfl
      rw [decode, hread]

/-- The empty text is not JSON. -/
@[simp] theorem decode_nil : decode [] = none := rfl

end Json

end Dart
