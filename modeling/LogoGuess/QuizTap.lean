/-
**The three rows of cards.**

The handler of a card is written three times in the source, once for each row.  In the first row
the test whether the text is complete stands after the test whether the letter occurs, in the other
two it stands inside of it.  This module compares the three copies on the states that a session can
reach: with any number of presses on Start, over any list of paths and in any order of events.

Main definitions:

* `LogoGuess.Quiz.Completes` — when a tap completes the text;
* `LogoGuess.Session.Handled` — what an event of a session does to the quiz screen;
* `LogoGuess.Quiz.Sound` — what holds of the screen whatever has been pressed or tapped;
* `LogoGuess.Quiz.Agree` — two taps on the same letter that differ in the row only.

Main results:

* `LogoGuess.Session.sound_of_run` — **every session keeps the screen sound**;
* `LogoGuess.Quiz.rows_agree_iff` — **the rows agree on a letter exactly when the answer is not
  empty or the letter is not shown both in the first row and in another one**.
-/

import LogoGuess.QuizLogo
import LogoGuess.QuizStart

set_option relaxedAutoImplicit false
set_option autoImplicit false

namespace LogoGuess

open Dart EventLoop Guessing

namespace Quiz

/-! ### A tap in closed form -/

/-- **The tap completes the text**: the card shows the last hidden letter, or it is in the first
row, its letter does not occur and no letter is hidden. -/
def Completes (s : Quiz) (ρ : Row) (c : Str) : Prop :=
  if c ∈ s.correct then s.correct = reveal c s.correct s.text else ρ = .r1 ∧ s.correct = s.text

/-- The screen when the completion test of the handler is reached. -/
def touched (s : Quiz) (c : Str) (ρ : Row) : Quiz :=
  if c ∈ s.correct then s.played c ρ else { s with j := [] }

section

variable {s : Quiz} {ρ : Row} {c : Str}

/-- A tap that completes the text gives a point and calls `task`. -/
theorem act_of_completes (U : CaseMap) (rnd : Rand) (hm : s.mounted = true) (ht : s.timer.isSome)
    (h : Completes s ρ c) : act U rnd ρ c s = task U rnd (s.touched c ρ).credited := by
  rw [act, touched]
  rw [Completes] at h
  by_cases hmem : c ∈ s.correct
  · rw [if_pos hmem] at h
    rw [if_pos hmem, if_pos hmem]
    exact complete_of_eq (s := s.played c ρ) U rnd hm ht h
  · rw [if_neg hmem] at h
    rw [if_neg hmem, if_neg hmem, if_pos h.1]
    exact complete_of_eq (s := { s with j := [] }) U rnd hm ht h.2

/-- Any other tap ends there. -/
theorem act_of_open (U : CaseMap) (rnd : Rand) (h : ¬ Completes s ρ c) :
    act U rnd ρ c s = .done (s.touched c ρ) := by
  rw [act, touched]
  rw [Completes] at h
  by_cases hmem : c ∈ s.correct
  · rw [if_pos hmem] at h
    rw [if_pos hmem, if_pos hmem]
    exact complete_of_ne (s := s.played c ρ) U rnd h
  · rw [if_neg hmem] at h
    rw [if_neg hmem, if_neg hmem]
    by_cases hρ : ρ = .r1
    · rw [if_pos hρ]
      exact complete_of_ne (s := { s with j := [] }) U rnd fun heq => h ⟨hρ, heq⟩
    · rw [if_neg hρ]

/-- The handler has written the scratch list, the text and the rows only. -/
theorem touched_eq (s : Quiz) (c : Str) (ρ : Row) :
    ∃ j text r1 r2 r3, s.touched c ρ =
      { s with j := j, text := text, r1 := r1, r2 := r2, r3 := r3 } := by
  rw [touched]
  by_cases hmem : c ∈ s.correct
  · rw [if_pos hmem]
    exact ⟨_, _, _, _, _, rfl⟩
  · rw [if_neg hmem]
    exact ⟨_, _, _, _, _, rfl⟩

theorem touched_calls (s : Quiz) (c : Str) (ρ : Row) : (s.touched c ρ).calls = s.calls := by
  obtain ⟨j, text, r1, r2, r3, h⟩ := touched_eq s c ρ
  rw [h]

theorem touched_loopCount (s : Quiz) (c : Str) (ρ : Row) :
    (s.touched c ρ).loopCount = s.loopCount := by
  obtain ⟨j, text, r1, r2, r3, h⟩ := touched_eq s c ρ
  rw [h]

theorem touched_mounted (s : Quiz) (c : Str) (ρ : Row) :
    (s.touched c ρ).mounted = s.mounted := by
  obtain ⟨j, text, r1, r2, r3, h⟩ := touched_eq s c ρ
  rw [h]

end

/-! ### What holds of every screen -/

/-- **What holds of the screen whatever has been pressed, tapped or left.** -/
structure Sound (s : Quiz) : Prop where
  len : s.text.length = s.correct.length
  unsolved : Unsolved s
  /-- There is a timer in `_timer`, or nothing has been started. -/
  begun : s.timer.isSome ∨
    (s.start = .start ∧ s.timers = [] ∧ s.r1 = [] ∧ s.r2 = [] ∧ s.r3 = [])

section

variable {U : CaseMap} {names : List Str} {s s' : Quiz} {rnd : Rand}

theorem Sound.timer_of_started (h : Sound s) (hs : s.start = .next) : s.timer.isSome := by
  rcases h.begun with ht | ⟨hstart, -⟩
  · exact ht
  · exact absurd (hs.symm.trans hstart) (by simp)

theorem Sound.timer_of_live (h : Sound s) (hl : s.timers ≠ []) : s.timer.isSome := by
  rcases h.begun with ht | ⟨-, hnil, -⟩
  · exact ht
  · exact absurd hnil hl

/-- A card is there to be tapped only when there is a timer. -/
theorem Sound.timer_of_card (h : Sound s) {ρ : Row} {i : ℕ} {c : Str}
    (hc : (s.row ρ)[i]? = some c) : s.timer.isSome := by
  rcases h.begun with ht | ⟨-, -, h1, h2, h3⟩
  · exact ht
  · cases ρ <;> simp [row, h1, h2, h3] at hc

theorem Sound.text_nil (h : Sound s) (hnil : s.correct = []) : s.text = [] := by
  rw [← List.length_eq_zero_iff, h.len, hnil, List.length_nil]

theorem TaskResult.len {o : Outcome Cut Quiz} (hr : TaskResult U rnd s o) :
    o.state.text.length = o.state.correct.length := by
  cases hr with
  | drawing => rfl
  | unread => rfl
  | misfit => simp [spelled]
  | dealt => simp [Quiz.dealt, spelled]
  | ending => rfl

/-- A call of `task` leaves a sound screen, also when there are no paths. -/
theorem sound_task (U : CaseMap) (rnd : Rand) (ht : s.timer.isSome) :
    Sound (task U rnd s).state := by
  have htimer : (task U rnd s).state.timer.isSome := by
    rw [(task_framed U rnd s).timer]
    exact ht
  by_cases hn : 0 < s.images.length
  · have hr := taskResult U rnd hn
    exact ⟨hr.len, hr.unsolved, Or.inl htimer⟩
  · rw [task_of_empty U rnd hn] at htimer ⊢
    exact ⟨rfl, fun _ => rfl, Or.inl htimer⟩

/-! ### The handlers keep the screen sound -/

/-- The handler of the button, on a mounted screen. -/
theorem onPressed_of_mounted (U : CaseMap) (rnd : Rand) (hm : s.mounted = true)
    (ht : s.start = .next → s.timer.isSome) :
    onPressed U rnd s = task U rnd (if s.start = .next then s.cancelled else s).advance := by
  rw [onPressed, setState_of_mounted hm]
  by_cases hs : s.start = .next
  · simp only [hs, if_true, cancel_of_isSome (ht hs), Outcome.done_bind]
  · simp only [hs, if_false, Outcome.done_bind]

theorem Sound.onPressed (h : Sound s) (U : CaseMap) (rnd : Rand) :
    Sound (onPressed U rnd s).state := by
  by_cases hm : s.mounted = true
  · rw [onPressed_of_mounted U rnd hm h.timer_of_started]
    refine sound_task U rnd ?_
    have hm' : (if s.start = .next then s.cancelled else s).mounted = true := by
      split
      · exact hm
      · exact hm
    rw [advance_of_mounted hm']
    rfl
  · rw [Quiz.onPressed, setState, if_neg hm]
    exact h

theorem Sound.act (h : Sound s) (U : CaseMap) (rnd : Rand) (hm : s.mounted = true)
    (ht : s.timer.isSome) (ρ : Row) (c : Str) : Sound (act U rnd ρ c s).state := by
  by_cases hcomp : Completes s ρ c
  · rw [act_of_completes U rnd hm ht hcomp]
    exact sound_task U rnd rfl
  · rw [act_of_open U rnd hcomp]
    by_cases hmem : c ∈ s.correct
    · rw [Completes, if_pos hmem] at hcomp
      rw [touched, if_pos hmem]
      exact ⟨length_reveal h.len, fun heq => absurd heq hcomp, Or.inl ht⟩
    · rw [touched, if_neg hmem]
      exact ⟨h.len, h.unsolved, h.begun⟩

theorem Sound.onTap (h : Sound s) (U : CaseMap) (rnd : Rand) (hm : s.mounted = true)
    (ht : s.timer.isSome) (ρ : Row) (i : ℕ) : Sound (onTap U rnd ρ i s).state := by
  cases hc : (s.row ρ)[i]? with
  | none =>
      rw [onTap_of_none U rnd hm hc]
      exact ⟨h.len, h.unsolved, h.begun⟩
  | some c =>
      rw [onTap_eq_act U rnd hm h.len hc]
      exact h.act U rnd hm ht ρ c

/-- The second `setState` of the timer callback, on a mounted screen. -/
theorem setState_leave (hm : s.mounted = true) (ht : s.timer.isSome) :
    (setState leave s).state = s ∨ (setState leave s).state = s.left := by
  rw [setState_of_mounted hm]
  rcases Bool.eq_false_or_eq_true s.ended with he | he
  · rw [leave_of_ended he ht]
    exact Or.inr rfl
  · rw [leave_of_not_ended he]
    exact Or.inl rfl

/-- With time on the clock the timer callback counts down, and then it may leave the screen. -/
theorem tick_of_pos (U : CaseMap) (rnd : Rand) (hm : s.mounted = true) (ht : s.timer.isSome)
    (hpos : 0 < s.timeinmin) :
    (tick U rnd s).state = s.counted ∨ (tick U rnd s).state = s.counted.left := by
  rw [tick, if_pos hm, setState_of_mounted hm, countdown, if_pos hpos]
  exact setState_leave (s := s.counted) hm ht

/-- **The timer callback on a mounted screen**: it counts down or calls `task`, and then it may
leave the screen. -/
theorem tick_cases (U : CaseMap) (rnd : Rand) (hm : s.mounted = true) (ht : s.timer.isSome) :
    ∃ s₁, ((tick U rnd s).state = s₁ ∨ (tick U rnd s).state = s₁.left) ∧
      (s₁ = s.counted ∨ s₁ = (task U rnd { s with loaded := false }).state ∨
        s₁ = { (task U rnd { s with loaded := false }).state with timeinmin := 30 }) := by
  by_cases hpos : 0 < s.timeinmin
  · exact ⟨s.counted, tick_of_pos U rnd hm ht hpos, Or.inl rfl⟩
  · rw [tick, if_pos hm, setState_of_mounted hm, countdown, if_neg hpos]
    have hframed := task_framed U rnd { s with loaded := false }
    cases ho : task U rnd { s with loaded := false } with
    | stop e s₂ => exact ⟨s₂, Or.inl rfl, Or.inr (Or.inl rfl)⟩
    | done s₂ =>
        rw [ho] at hframed
        have ht₂ : s₂.timer.isSome := by
          rw [show s₂.timer = s.timer from hframed.timer]
          exact ht
        exact ⟨{ s₂ with timeinmin := 30 },
          setState_leave (s := { s₂ with timeinmin := 30 }) (hframed.mounted.trans hm) ht₂,
          Or.inr (Or.inr rfl)⟩

/-- On an unmounted screen the second `setState` of the callback is called all the same. -/
theorem tick_of_unmounted (U : CaseMap) (rnd : Rand) (hm : s.mounted = false) :
    tick U rnd s = .stop .disposed s := by
  have hm' : ¬ s.mounted = true := by simp [hm]
  rw [tick, if_neg hm', Outcome.done_bind, setState, if_neg hm']

theorem Sound.tick (h : Sound s) (U : CaseMap) (rnd : Rand) (ht : s.timer.isSome) :
    Sound (tick U rnd s).state := by
  rcases Bool.eq_false_or_eq_true s.mounted with hm | hm
  · obtain ⟨s₁, htick, hs₁⟩ := tick_cases U rnd hm ht
    have hsound : Sound s₁ ∧ s₁.timer.isSome := by
      have htask : Sound (task U rnd { s with loaded := false }).state := sound_task U rnd ht
      have htimer : (task U rnd { s with loaded := false }).state.timer.isSome := by
        rw [(task_framed U rnd { s with loaded := false }).timer]
        exact ht
      rcases hs₁ with rfl | rfl | rfl
      · exact ⟨⟨h.len, h.unsolved, h.begun⟩, ht⟩
      · exact ⟨htask, htimer⟩
      · exact ⟨⟨htask.len, htask.unsolved, htask.begun⟩, htimer⟩
    rcases htick with htick | htick
    · rw [htick]
      exact hsound.1
    · rw [htick]
      exact ⟨hsound.1.len, hsound.1.unsolved, Or.inl hsound.2⟩
  · rw [tick_of_unmounted U rnd hm]
    exact h

end

end Quiz

/-! ### Sessions -/

namespace Session

/-- **What an event of a session does to the quiz screen.** -/
inductive Handled (U : CaseMap) (names : List Str) (q : Quiz) : Quiz → Prop where
  /-- A handler goes on to its next `await` or ends in `getIm`, or the stored text is lost. -/
  | same : Handled U names q q
  /-- `getIm` begins. -/
  | begin : Handled U names q q.getImBegin
  /-- `getIm` ends. -/
  | load : Handled U names q (q.getImEnd names)
  /-- The handler of the button runs from its `setState` on. -/
  | press (rnd : Rand) : Handled U names q (Quiz.onPressed U rnd q).state
  /-- A card is tapped. -/
  | tap (ρ : Quiz.Row) (i : ℕ) (rnd : Rand) (hm : q.mounted = true) (hs : q.start = .next) :
      Handled U names q (Quiz.onTap U rnd ρ i q).state
  /-- A timer ticks. -/
  | tick (rnd : Rand) (hl : q.timers ≠ []) : Handled U names q (Quiz.tick U rnd q).state
  /-- The screen is replaced. -/
  | unmount : Handled U names q { q with mounted := false }

section

variable {U : CaseMap} {names : List Str} {s s' : Session} {tr : List (Move Session Event)}

/-- **Every event is one of the listed ones.** -/
theorem handled_of_step {e : Event} (hs : step U names s e = some s') :
    Handled U names s.quiz s'.quiz := by
  cases e with
  | press rnd =>
      obtain ⟨-, hs⟩ := Option.ite_none_right_eq_some.1 hs
      by_cases hstart : s.quiz.start = .start
      · rw [if_pos hstart] at hs
        obtain rfl := Option.some_inj.1 hs
        exact .begin
      · rw [if_neg hstart] at hs
        obtain rfl := Option.some_inj.1 hs
        exact .press rnd
  | resume i rnd =>
      obtain ⟨-, hs⟩ := Option.ite_none_right_eq_some.1 hs
      cases hp : s.pending[i]? with
      | none => simp [hp] at hs
      | some ph =>
          cases ph with
          | getInstance =>
              obtain rfl : _ = s' := by simpa [hp] using hs
              exact .same
          | getString =>
              obtain rfl : _ = s' := by simpa [hp] using hs
              exact .load
          | getBlank =>
              obtain rfl : _ = s' := by simpa [hp] using hs
              exact .same
          | getIm =>
              obtain rfl : _ = s' := by simpa [hp] using hs
              exact .press rnd
  | tap ρ i rnd =>
      obtain ⟨hm, hmap⟩ := Option.ite_none_right_eq_some.1 hs
      obtain ⟨q', hq, rfl⟩ := Option.map_eq_some_iff.1 hmap
      obtain ⟨⟨-, hstart⟩, rfl⟩ := of_guard hq
      exact .tap ρ i rnd hm hstart
  | tick rnd =>
      obtain ⟨q', hq, rfl⟩ := Option.map_eq_some_iff.1 hs
      obtain ⟨⟨-, hlive⟩, rfl⟩ := of_guard hq
      exact .tick rnd hlive
  | unmount =>
      obtain ⟨-, rfl⟩ := of_guard hs
      exact .unmount
  | blank =>
      obtain ⟨-, rfl⟩ := of_guard hs
      exact .same

theorem Handled.sound {q q' : Quiz} (h : Handled U names q q') (hq : q.Sound) : q'.Sound := by
  cases h with
  | same => exact hq
  | begin => exact ⟨hq.len, hq.unsolved, hq.begun⟩
  | load => exact ⟨hq.len, hq.unsolved, hq.begun⟩
  | press rnd => exact hq.onPressed U rnd
  | tap ρ i rnd hm hs => exact hq.onTap U rnd hm (hq.timer_of_started hs) ρ i
  | tick rnd hl => exact hq.tick U rnd (hq.timer_of_live hl)
  | unmount => exact ⟨hq.len, hq.unsolved, hq.begun⟩

theorem sound_fresh : Quiz.Sound {} := ⟨rfl, fun _ => rfl, Or.inr ⟨rfl, rfl, rfl, rfl, rfl⟩⟩

/-- **Every session keeps the screen sound.** -/
theorem sound_of_run (h : Run (step U names) {} tr s) : s.quiz.Sound := by
  refine Run.invariant (I := fun _ s => s.quiz.Sound) sound_fresh ?_ h
  intro tr s e s' _ ih hs
  exact (handled_of_step hs).sound ih

end

end Session

/-! ### The three copies of the handler -/

namespace Quiz

/-- **Two taps on the letter `c`, one in the row `ρ` and one in the row `ρ'`, do the same**: they
leave the same text, score and timer, both call `task` or both do not, and if they do not then they
differ at most in the row that loses one copy of `c`. -/
structure Agree (s : Quiz) (c : Str) (ρ ρ' : Row) (o o' : Outcome Cut Quiz) : Prop where
  text : o.state.text = o'.state.text
  score : o.state.obtScore = o'.state.obtScore
  timer : o.state.timer = o'.state.timer ∧ o.state.timers = o'.state.timers ∧
    o.state.timeinmin = o'.state.timeinmin
  called : o.state.calls = s.calls ↔ o'.state.calls = s.calls
  rest : o.state.calls = s.calls → o = o' ∨
    ∃ t : Quiz, t.row = s.row ∧ o = .done (t.setRow ((s.row ρ).erase c) ρ) ∧
      o' = .done (t.setRow ((s.row ρ').erase c) ρ')

/-- **The rows agree on the letter `c`**: it does not matter in which row and at which position a
card with this letter is tapped. -/
def RowsAgree (U : CaseMap) (s : Quiz) (c : Str) : Prop :=
  ∀ rnd ρ i ρ' i', (s.row ρ)[i]? = some c → (s.row ρ')[i']? = some c →
    Agree s c ρ ρ' (onTap U rnd ρ i s) (onTap U rnd ρ' i' s)

/-- A logo with an empty answer. -/
def dashPath : Str := ['d', '/', '-', '.', 'p', 'n', 'g']

theorem dealable_dashPath : Dealable dashPath :=
  ⟨['d'], ['-', '.', 'p', 'n', 'g'], rfl, by decide, by decide, by decide⟩

section

variable {U : CaseMap} {names : List Str} {s s' : Quiz} {rnd : Rand} {c : Str} {ρ ρ' : Row}

theorem Agree.of_eq {o o' : Outcome Cut Quiz} (h : o = o') : Agree s c ρ ρ' o o' := by
  subst h
  exact ⟨rfl, rfl, ⟨rfl, rfl, rfl⟩, Iff.rfl, fun _ => Or.inl rfl⟩

/-- `task` depends on the fields that it does not clear only. -/
theorem task_congr (U : CaseMap) (rnd : Rand) (h : s.clear = s'.clear) :
    task U rnd s = task U rnd s' := by
  rw [task, task, h]

/-- A call of `task` shows in the log. -/
theorem calls_task_ne (U : CaseMap) (rnd : Rand) (s : Quiz) :
    (task U rnd s).state.calls ≠ s.calls := by
  rw [(task_framed U rnd s).calls]
  simp

/-- What is left when the letter `c` has been shown, row by row. -/
theorem played_eq_setRow (s : Quiz) (c : Str) (ρ : Row) :
    s.played c ρ =
      { s with
        j := positions c 0 s.correct []
        text := reveal c s.correct s.text }.setRow ((s.row ρ).erase c) ρ := by
  cases ρ <;> rfl

/-- A letter that does not occur completes the text only in the first row and only if the answer is
empty. -/
theorem Sound.completes_iff (h : Sound s) (hmem : c ∉ s.correct) :
    Completes s ρ c ↔ ρ = .r1 ∧ s.correct = [] := by
  rw [Completes, if_neg hmem]
  refine and_congr_right fun _ => ⟨h.unsolved, ?_⟩
  intro hnil
  rw [hnil, h.text_nil hnil]

/-- **A letter that occurs is handled alike in all rows.** -/
theorem agree_of_mem (U : CaseMap) (hm : s.mounted = true) (ht : s.timer.isSome)
    (hmem : c ∈ s.correct) (rnd : Rand) (ρ ρ' : Row) :
    Agree s c ρ ρ' (act U rnd ρ c s) (act U rnd ρ' c s) := by
  have hiff : Completes s ρ' c ↔ Completes s ρ c := by
    rw [Completes, Completes, if_pos hmem, if_pos hmem]
  have htouched : ∀ ρ, s.touched c ρ = s.played c ρ := fun ρ => if_pos hmem
  by_cases hcomp : Completes s ρ c
  · -- the cards are cleared away by `task`, so nothing is left of the difference
    rw [act_of_completes U rnd hm ht hcomp, act_of_completes U rnd hm ht (hiff.2 hcomp),
      htouched, htouched]
    exact .of_eq (task_congr U rnd rfl)
  · rw [act_of_open U rnd hcomp, act_of_open U rnd (mt hiff.1 hcomp), htouched, htouched]
    refine ⟨rfl, rfl, ⟨rfl, rfl, rfl⟩, Iff.rfl, fun _ => Or.inr ?_⟩
    rw [played_eq_setRow, played_eq_setRow]
    refine ⟨_, ?_, rfl, rfl⟩
    funext ρ
    cases ρ <;> rfl

/-- **A letter that does not occur is handled alike** in two rows, unless it completes the text in
one of them. -/
theorem agree_of_notMem (U : CaseMap) (hm : s.mounted = true) (ht : s.timer.isSome)
    (hmem : c ∉ s.correct) (rnd : Rand) (hiff : Completes s ρ c ↔ Completes s ρ' c) :
    Agree s c ρ ρ' (act U rnd ρ c s) (act U rnd ρ' c s) := by
  have htouched : ∀ ρ, s.touched c ρ = { s with j := [] } := fun ρ => if_neg hmem
  by_cases hcomp : Completes s ρ c
  · rw [act_of_completes U rnd hm ht hcomp, act_of_completes U rnd hm ht (hiff.1 hcomp),
      htouched, htouched]
    exact .of_eq rfl
  · rw [act_of_open U rnd hcomp, act_of_open U rnd (mt hiff.2 hcomp), htouched, htouched]
    exact .of_eq rfl

/-- Two taps of which one completes the text do not agree. -/
theorem not_agree (U : CaseMap) (hm : s.mounted = true) (ht : s.timer.isSome) (rnd : Rand)
    (hcomp : Completes s ρ c) (hopen : ¬ Completes s ρ' c) :
    ¬ Agree s c ρ ρ' (act U rnd ρ c s) (act U rnd ρ' c s) := by
  intro hagree
  have hcalled := hagree.called
  rw [act_of_completes U rnd hm ht hcomp, act_of_open U rnd hopen] at hcalled
  have hlog : (task U rnd (s.touched c ρ).credited).state.calls = s.calls :=
    hcalled.2 (touched_calls s c ρ')
  exact calls_task_ne U rnd _ (hlog.trans (touched_calls s c ρ).symm)

/-- The rows of a sound screen agree on `c` exactly when the answer is not empty, or `c` is not both
in the first row and in another one. -/
theorem Sound.rowsAgree_iff (h : Sound s) (hm : s.mounted = true) (c : Str) :
    RowsAgree U s c ↔ s.correct ≠ [] ∨ c ∉ s.r1 ∨ (c ∉ s.r2 ∧ c ∉ s.r3) := by
  constructor
  · intro hagree
    by_contra hcond
    push Not at hcond
    obtain ⟨hnil, hr1, hor⟩ := hcond
    have hmem : c ∉ s.correct := by
      rw [hnil]
      exact List.not_mem_nil
    obtain ⟨i, hi⟩ : ∃ i, (s.row .r1)[i]? = some c := List.mem_iff_getElem?.1 hr1
    obtain ⟨ρ, hρ, i', hi'⟩ : ∃ ρ : Row, ρ ≠ .r1 ∧ ∃ i', (s.row ρ)[i']? = some c := by
      by_cases hr2 : c ∈ s.r2
      · exact ⟨.r2, by simp, List.mem_iff_getElem?.1 hr2⟩
      · exact ⟨.r3, by simp, List.mem_iff_getElem?.1 (hor hr2)⟩
    have hboth := hagree (onlyDraws 0) .r1 i ρ i' hi hi'
    rw [onTap_eq_act U _ hm h.len hi, onTap_eq_act U _ hm h.len hi'] at hboth
    exact not_agree U hm (h.timer_of_card hi) _ ((h.completes_iff hmem).2 ⟨rfl, hnil⟩)
      (fun hcomp => hρ ((h.completes_iff hmem).1 hcomp).1) hboth
  · intro hcond rnd ρ i ρ' i' hi hi'
    have ht := h.timer_of_card hi
    rw [onTap_eq_act U rnd hm h.len hi, onTap_eq_act U rnd hm h.len hi']
    by_cases hmem : c ∈ s.correct
    · exact agree_of_mem U hm ht hmem rnd ρ ρ'
    · refine agree_of_notMem U hm ht hmem rnd ?_
      rw [h.completes_iff hmem, h.completes_iff hmem]
      refine and_congr_left fun hnil => ?_
      have hr : c ∈ s.row ρ := List.mem_iff_getElem?.2 ⟨i, hi⟩
      have hr' : c ∈ s.row ρ' := List.mem_iff_getElem?.2 ⟨i', hi'⟩
      rcases hcond with hcond | hcond | ⟨hcond, hcond'⟩
      · exact absurd hnil hcond
      · have hfirst : ∀ ρ : Row, c ∈ s.row ρ → ρ ≠ .r1 := by
          rintro ρ hr rfl
          exact hcond hr
        simp [hfirst ρ hr, hfirst ρ' hr']
      · have hfirst : ∀ ρ : Row, c ∈ s.row ρ → ρ = .r1 := by
          intro ρ hr
          cases ρ with
          | r1 => rfl
          | r2 => exact absurd hr hcond
          | r3 => exact absurd hr hcond'
        simp [hfirst ρ hr, hfirst ρ' hr']

/-- **The three copies of the handler.**  In every state that a session can reach, over any list of
paths, a card with the letter `c` does the same in every row in which there is one, exactly when the
answer on display is not empty or `c` is not both in the first row and in another one. -/
theorem rows_agree_iff {tr : List (Move Session Session.Event)} {s : Session}
    (h : Run (Session.step U names) {} tr s) (hm : s.quiz.mounted = true) (c : Str) :
    RowsAgree U s.quiz c ↔
      s.quiz.correct ≠ [] ∨ c ∉ s.quiz.r1 ∨ (c ∉ s.quiz.r2 ∧ c ∉ s.quiz.r3) :=
  (Session.sound_of_run h).rowsAgree_iff hm c

end

/-- Two logos with the answer `A`: the press on Start is carried out, and a letter that does not
occur is shown in the first and in the second row. -/
theorem rows_agree_iff_logoPath :
    ∃ tr s, Run (Session.step .ascii [logoPath, logoPath]) {} tr s ∧
      ['X'] ∈ s.quiz.r1 ∧ ['X'] ∈ s.quiz.r2 ∧ RowsAgree .ascii s.quiz ['X'] := by
  have hexec : (exec (Session.step .ascii [logoPath, logoPath]) {}
      (.press (onlyDraws 0) :: List.replicate 3 (.resume 0 (onlyDraws 0)))).map
        (fun s => (s.quiz.mounted, s.quiz.correct, s.quiz.r1, s.quiz.r2)) =
      some (true, [['A']], [['A'], ['X'], ['X'], ['X'], ['X']], List.replicate 5 ['X']) := by
    decide
  obtain ⟨tr, s, hrun, hfields, -⟩ := exists_run_of_exec hexec
  simp only [Prod.mk.injEq] at hfields
  obtain ⟨hm, hcorrect, hr1, hr2⟩ := hfields
  refine ⟨tr, s, hrun, by simp [hr1], by simp [hr2], ?_⟩
  exact (rows_agree_iff hrun hm ['X']).2 (Or.inl (by simp [hcorrect]))

/-- Two logos whose base name starts with a `-`: the answer is empty, and a card of the first row
gives a point and calls `task` where the same letter in the second row does nothing. -/
theorem not_rowsAgree_dashPath :
    (∀ p ∈ [dashPath, dashPath], Dealable p) ∧
      ∃ tr s, Run (Session.step .ascii [dashPath, dashPath]) {} tr s ∧ s.quiz.mounted = true ∧
        s.quiz.firstpic = dashPath ∧ s.quiz.ended = false ∧ ¬ RowsAgree .ascii s.quiz ['X'] := by
  refine ⟨by simpa using dealable_dashPath, ?_⟩
  have hexec : (exec (Session.step .ascii [dashPath, dashPath]) {}
      (.press (onlyDraws 0) :: List.replicate 3 (.resume 0 (onlyDraws 0)))).map
        (fun s => ((s.quiz.mounted, s.quiz.firstpic, s.quiz.ended),
          s.quiz.r1[0]?, s.quiz.r2[0]?,
          (onTapR1 .ascii (onlyDraws 1) 0 s.quiz).state.obtScore,
          (onTapR2 .ascii (onlyDraws 1) 0 s.quiz).state.obtScore)) =
      some ((true, dashPath, false), some ['X'], some ['X'], 1, 0) := by
    decide
  obtain ⟨tr, s, hrun, hfields, -⟩ := exists_run_of_exec hexec
  simp only [Prod.mk.injEq] at hfields
  obtain ⟨⟨hm, hpic, hend⟩, hr1, hr2, hfirst, hsecond⟩ := hfields
  refine ⟨tr, s, hrun, hm, hpic, hend, ?_⟩
  intro hagree
  have hscore := (hagree (onlyDraws 1) .r1 0 .r2 0 hr1 hr2).score
  change (onTapR1 .ascii (onlyDraws 1) 0 s.quiz).state.obtScore =
    (onTapR2 .ascii (onlyDraws 1) 0 s.quiz).state.obtScore at hscore
  rw [hfirst, hsecond] at hscore
  exact absurd hscore (by decide)

end Quiz

end LogoGuess
