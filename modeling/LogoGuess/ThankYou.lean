/-
**The result screen.**

This module transcribes what `lib/ThankYou.dart` computes from the `Score` it is handed: the
headline, the percentage of the circular indicator and the text inside it.  The headline takes the
number of logos that were dealt to be one less than `tot`.  The percentage is meant to do the same,
but without parentheses the `1` is subtracted from the quotient.

Main definitions:

* `LogoGuess.ThankYou.headline`, `LogoGuess.ThankYou.percent`, `LogoGuess.ThankYou.center` — the
  computed parts of the screen;
* `LogoGuess.ThankYou.Faithful` — the percentage is the share of the dealt logos that were solved.

Main results:

* `LogoGuess.ThankYou.percent_intToString` — the percentage of a printed score;
* `LogoGuess.ThankYou.headline_of_play` — the headline compares the solved logos with the dealt
  ones;
* `LogoGuess.ThankYou.percent_never_faithful` — **no game ends with the right percentage**.
-/

import LogoGuess.QuizScore
import Mathlib.Algebra.Order.Field.Basic
import Mathlib.Tactic.Linarith

set_option relaxedAutoImplicit false
set_option autoImplicit false

namespace LogoGuess

namespace ThankYou

open Dart EventLoop Quiz

/-! ### The screen -/

/-- The headline; `none` stands for the `FormatException` of `int.parse`. -/
def headline (arguments : Score) : Option String :=
  (intParse arguments.obt).bind fun obt =>
    (intParse arguments.tot).map fun (tot : ℤ) =>
      if ((tot : ℚ) - 1) / 2 < obt then "You Played Well !" else "Take Another Chance"

/-- The percentage in exact arithmetic; `none` stands for the `FormatException` of `double.parse`
and for a quotient that is not a number. -/
def percent (arguments : Score) : Option ℚ :=
  (doubleParse arguments.obt).bind fun obt =>
    (doubleParse arguments.tot).bind fun tot => if tot = 0 then none else some (obt / tot - 1)

/-- The text inside the indicator. -/
def center (arguments : Score) : Str := arguments.obt ++ '/' :: arguments.tot

/-- **The percentage is right** for a game over `n` logos of which `solved` were solved: it lies
between `0` and `1`, as the indicator requires, and is the share of the dealt logos, of which there
are `n - 1`, that were solved. -/
def Faithful (n solved : ℕ) (arguments : Score) : Prop :=
  ∃ p, percent arguments = some p ∧ (0 ≤ p ∧ p ≤ 1) ∧ p = (solved : ℚ) / ((n : ℚ) - 1)

/-! ### The percentage of a game -/

/-- The percentage of a printed score. -/
theorem percent_intToString (obt tot : ℕ) (h : 0 < tot) :
    percent ⟨intToString obt, intToString tot⟩ = some ((obt : ℚ) / tot - 1) := by
  have htot : ¬ ((tot : ℤ) : ℚ) = 0 := by
    rw [Int.cast_natCast, Nat.cast_eq_zero]
    omega
  rw [percent, doubleParse_intToString, doubleParse_intToString, Option.bind_some,
    Option.bind_some, if_neg htot, Int.cast_natCast, Int.cast_natCast]

/-- Fewer solved logos than paths make the percentage negative. -/
theorem percent_neg {obt tot : ℕ} (h : obt < tot) : (obt : ℚ) / tot - 1 < 0 := by
  have htot : (0 : ℚ) < tot := Nat.cast_pos.2 (by omega)
  have hlt : (obt : ℚ) / tot < 1 := (div_lt_one htot).2 (Nat.cast_lt.2 h)
  linarith

/-- The headline of a printed score praises a player who solved more than half of the dealt
logos. -/
theorem headline_intToString (obt tot : ℕ) (h : 0 < tot) :
    headline ⟨intToString obt, intToString tot⟩ =
      some (if tot - 1 < 2 * obt then "You Played Well !" else "Take Another Chance") := by
  have hiff : (((tot : ℤ) : ℚ) - 1) / 2 < ((obt : ℤ) : ℚ) ↔ tot - 1 < 2 * obt := by
    rw [div_lt_iff₀ two_pos, Int.cast_natCast, Int.cast_natCast, ← Nat.cast_pred h]
    norm_cast
    rw [Nat.mul_comm]
  rw [headline, intParse_intToString, intParse_intToString, Option.bind_some, Option.map_some]
  simp only [hiff]

section

variable {U : CaseMap} {names : List Str} {s : Quiz} {tr : List (Move Quiz Event)}

/-- The headline and the text inside the indicator are right in every game: unlike the percentage,
the headline sets the solved logos against the `n - 1` dealt ones. -/
theorem headline_of_play (hn : 0 < names.length) (hw : ∀ p ∈ names, WellFormed p)
    (h : Play U names tr s) {arguments : Score} (harg : arguments ∈ s.pushed) :
    headline arguments = some (if names.length - 1 < 2 * (solvedIn tr).length
        then "You Played Well !" else "Take Another Chance") ∧
      center arguments =
        intToString (solvedIn tr).length ++ '/' :: intToString names.length := by
  obtain ⟨-, rfl⟩ := pushed_of_play hn hw h harg
  exact ⟨headline_intToString _ _ hn, rfl⟩

/-- One of two logos is solved, which is all that were dealt. -/
theorem headline_of_play_logoPath :
    ∃ tr s, Play .ascii [logoPath, logoPath] tr s ∧ ⟨['1'], ['2']⟩ ∈ s.pushed ∧
      headline ⟨['1'], ['2']⟩ = some (if 1 < 2 * (solvedIn tr).length
        then "You Played Well !" else "Take Another Chance") := by
  obtain ⟨tr, s, hrun, -, hpushed⟩ := exists_play_solved
  have hmem : (⟨['1'], ['2']⟩ : Score) ∈ s.pushed := by simp [hpushed]
  exact ⟨tr, s, hrun, hmem,
    (headline_of_play (by decide) (by simpa using wellFormed_logoPath) hrun hmem).1⟩

/-- **No game ends with the right percentage**: whatever is played over at least two logos, the
percentage on the result screen is negative, and not the share of the solved logos either. -/
theorem percent_never_faithful (hn : 2 ≤ names.length) (hw : ∀ p ∈ names, WellFormed p)
    (h : Play U names tr s) {arguments : Score} (harg : arguments ∈ s.pushed) :
    (∃ p < 0, percent arguments = some p ∧
        p ≠ ((solvedIn tr).length : ℚ) / ((names.length : ℚ) - 1)) ∧
      ¬ Faithful names.length (solvedIn tr).length arguments := by
  have hpos : 0 < names.length := by omega
  obtain ⟨hle, rfl⟩ := pushed_of_play hpos hw h harg
  have hp := percent_intToString (solvedIn tr).length names.length hpos
  have hneg : ((solvedIn tr).length : ℚ) / names.length - 1 < 0 := percent_neg (by omega)
  have hshare : (0 : ℚ) ≤ ((solvedIn tr).length : ℚ) / ((names.length : ℚ) - 1) := by
    have hone : (1 : ℚ) ≤ names.length := Nat.one_le_cast.2 hpos
    exact div_nonneg (Nat.cast_nonneg _) (by linarith)
  refine ⟨⟨_, hneg, hp, (hneg.trans_le hshare).ne⟩, ?_⟩
  rintro ⟨p, hp', ⟨h0, -⟩, -⟩
  obtain rfl := Option.some_inj.1 (hp.symm.trans hp')
  linarith

end

/-- Two logos, of which the first one is dealt and solved: the score is `1` out of `2`, and the
percentage `-1/2`. -/
theorem not_faithful_logoPath :
    ¬ ∀ tr s, Play .ascii [logoPath, logoPath] tr s →
      ∀ arguments ∈ s.pushed, Faithful 2 (solvedIn tr).length arguments := by
  intro hall
  obtain ⟨tr, s, hrun, -, hpushed⟩ := exists_play_solved
  have hp : percent ⟨['1'], ['2']⟩ = some (-1 / 2) := by decide +kernel
  obtain ⟨p, hp', ⟨h0, -⟩, -⟩ := hall tr s hrun ⟨['1'], ['2']⟩ (by simp [hpushed])
  obtain rfl := Option.some_inj.1 (hp.symm.trans hp')
  norm_num at h0

theorem percent_never_faithful_logoPath :
    ∃ tr s, Play .ascii [logoPath, logoPath] tr s ∧ ⟨['1'], ['2']⟩ ∈ s.pushed ∧
      ¬ Faithful 2 (solvedIn tr).length ⟨['1'], ['2']⟩ := by
  obtain ⟨tr, s, hrun, -, hpushed⟩ := exists_play_solved
  have hmem : (⟨['1'], ['2']⟩ : Score) ∈ s.pushed := by simp [hpushed]
  exact ⟨tr, s, hrun, hmem,
    (percent_never_faithful (by decide) (by simpa using wellFormed_logoPath) hrun hmem).2⟩

end ThankYou

end LogoGuess
