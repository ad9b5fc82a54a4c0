/-
**Every session keeps the game in order.**

The modules on the invariants of the game assume that Start is pressed once and treated as one
event.  Here nothing is assumed: the button and the cards are those of any earlier frame, several
handlers of the button may be suspended and go on in any order, the timer ticks in between, the
screen may be left, and the paths are arbitrary.  Points are given without a solved logo then, and
logos are taken away without their time being used up.  What is kept all the same is the
structure of a game: logos are drawn without replacement, one timer runs, and one result is shown.

Main definitions:

* `LogoGuess.Quiz.Reacts` — what an event does to the screen, up to the call of `task`;
* `LogoGuess.Quiz.AtCall`, `LogoGuess.Quiz.Steady` — what holds whenever `task` is called, and what
  holds between two events;
* `LogoGuess.Quiz.Indicated` — the indicator belongs to the number inside it;
* `LogoGuess.Session.carriedBy`, `LogoGuess.Frame.carriedIn` — the handlers of the button that are
  carried out on a mounted screen.

Main results:

* `LogoGuess.Frame.steady_of_run` — **every session keeps the game in order**;
* `LogoGuess.Frame.indicator_of_run` — the indicator always has a percentage that it can show;
* `LogoGuess.Frame.one_result` — one timer, one result, and no Next or Done button;
* `LogoGuess.Frame.score_eq` — **the ledger**: the score counts the solved logos and the handlers
  that were carried out;
* `LogoGuess.Frame.result_counts_solved_iff` — the result is the number of solved logos exactly when
  one handler was carried out.
-/

import LogoGuess.QuizFrame
import LogoGuess.QuizUnmount
import Mathlib.Algebra.Order.Field.Basic
import Mathlib.Tactic.Linarith
import Mathlib.Tactic.Ring

set_option relaxedAutoImplicit false
set_option autoImplicit false

namespace LogoGuess

open Dart EventLoop Guessing

namespace Quiz

/-! ### The reactions of the screen -/

/-- **What an event of a session does to the screen**, with the state in which `task` is called. -/
inductive Reacts (U : CaseMap) (names : List Str) (s : Quiz) : Quiz → Prop where
  /-- A handler goes on to its next `await`, or finds the screen unmounted. -/
  | same : Reacts U names s s
  /-- `getIm` begins. -/
  | begin (hs : s.start = .start) : Reacts U names s s.getImBegin
  /-- `getIm` ends. -/
  | load : Reacts U names s (s.getImEnd names)
  /-- The screen is replaced. -/
  | unmount : Reacts U names s { s with mounted := false }
  /-- A tap beyond the end of the row. -/
  | miss : Reacts U names s { s with j := [] }
  /-- A tap that does not complete the text. -/
  | touch {ρ : Row} {c : Str} (hc : c ∈ s.row ρ) : Reacts U names s (s.touched c ρ)
  /-- The handler of the button is carried out. -/
  | press {rnd : Rand} : Reacts U names s (task U rnd s.credited).state
  /-- A tap that completes the text. -/
  | solve {ρ : Row} {c : Str} {rnd : Rand} (hc : c ∈ s.row ρ) :
      Reacts U names s (task U rnd (s.touched c ρ).credited).state
  /-- A tick that counts down. -/
  | count (hpos : 0 < s.timeinmin) (he : s.ended = false) : Reacts U names s s.counted
  /-- A tick that counts down and leaves the screen. -/
  | finish (hpos : 0 < s.timeinmin) (hl : s.timers ≠ []) (he : s.ended = true) :
      Reacts U names s s.counted.left
  /-- A tick that finds the time used up, and a call of `task` that is cut short. -/
  | expireCut {rnd : Rand} {e : Cut} {s' : Quiz} (hl : s.timers ≠ [])
      (h : task U rnd { s with loaded := false } = .stop e s') : Reacts U names s s'
  /-- A tick that finds the time used up and deals the next logo. -/
  | expire {rnd : Rand} {s' : Quiz} (hl : s.timers ≠ [])
      (h : task U rnd { s with loaded := false } = .done s') (he : s'.ended = false) :
      Reacts U names s { s' with timeinmin := 30 }
  /-- A tick that finds the time used up, ends the game and leaves the screen. -/
  | expireEnd {rnd : Rand} {s' : Quiz} (hl : s.timers ≠ [])
      (h : task U rnd { s with loaded := false } = .done s') (he : s'.ended = true) :
      Reacts U names s { s' with timeinmin := 30 }.left

theorem touched_inLoop (s : Quiz) (c : Str) (ρ : Row) :
    (s.touched c ρ).inLoop = s.inLoop := by
  obtain ⟨j, text, r1, r2, r3, h⟩ := touched_eq s c ρ
  rw [h]

theorem touched_images (s : Quiz) (c : Str) (ρ : Row) :
    (s.touched c ρ).images = s.images := by
  obtain ⟨j, text, r1, r2, r3, h⟩ := touched_eq s c ρ
  rw [h]

theorem next_of_ne {s : Quiz} (h : ¬ s.start = .start) : s.start = .next := by
  cases hs : s.start with
  | start => exact absurd hs h
  | next => rfl

/-- **What holds whenever `task` is called in a session.** -/
structure AtCall (names : List Str) (s : Quiz) : Prop where
  started : s.start = .next
  images : s.images = [] ∨ s.images = names
  total : s.images ≠ [] → s.totalScore = names.length
  nodup : s.repeated.Nodup
  lt : ∀ k ∈ s.repeated, k < names.length
  live : ∃ t, s.timer = some t ∧ s.timers = [t]
  inLoop : s.inLoop = false
  loop : s.loopCount + (if s.ended then 1 else 0) ≤ s.repeated.length ∧
    s.loopCount ≤ names.length - 1
  full : s.ended = true → s.images = names ∧ s.repeated.length = names.length
  gone : s.pushed ≠ [] → s.ended = true ∧
    ∃ obt, s.pushed = [⟨obt, intToString names.length⟩]

/-- **What holds between two events of a session.** -/
structure Steady (names : List Str) (s : Quiz) : Prop where
  images : s.images = [] ∨ s.images = names
  total : s.images ≠ [] → s.totalScore = names.length
  nodup : s.repeated.Nodup
  lt : ∀ k ∈ s.repeated, k < names.length
  /-- Until a handler of the button is carried out nothing is drawn and no timer runs. -/
  fresh : s.start = .start → s.timers = [] ∧ s.count = 0 ∧ s.ended = false ∧ s.pushed = []
  /-- After that the buttons are hidden. -/
  hidden : s.start = .next → s.visible = false
  /-- Until the screen is left, one timer is live and it is the one in `_timer`. -/
  live : s.start = .next → s.pushed = [] → ∃ t, s.timer = some t ∧ s.timers = [t]
  loop : s.loopCount + (if s.ended then 1 else 0) ≤ s.repeated.length ∧
    s.loopCount ≤ names.length - 1
  /-- At the end everything has been drawn and there is nothing left to tap. -/
  finished : s.ended = true → s.images = names ∧ s.repeated.length = names.length ∧
    s.r1 = [] ∧ s.r2 = [] ∧ s.r3 = []
  /-- The screen is left once, at the end, with the score.  A handler of the button that is carried
  out after that does not leave the redraw loop. -/
  gone : s.pushed ≠ [] → s.ended = true ∧
    ∃ obt, s.pushed = [⟨obt, intToString names.length⟩] ∧
      (s.timers = [] ∧ obt = intToString s.obtScore ∨
        s.inLoop = true ∧ ∃ t, s.timer = some t ∧ s.timers = [t])

section

variable {U : CaseMap} {names : List Str} {s s' : Quiz} {rnd : Rand}

/-! ### From a call of `task` to its end -/

theorem AtCall.ne_nil_of_ended (h : AtCall names s) (he : s.ended = true) : s.images ≠ [] := by
  obtain ⟨himg, hlen⟩ := h.full he
  have hloop := h.loop.1
  rw [if_pos he] at hloop
  rw [himg, ← List.length_pos_iff]
  omega

theorem AtCall.images_eq (h : AtCall names s) (hn : 0 < s.images.length) : s.images = names :=
  h.images.resolve_left (List.length_pos_iff.1 hn)

/-- As long as there is an index to draw, the game is not over. -/
theorem AtCall.open_of_fresh (h : AtCall names s) {k : ℕ} (hk : Fresh rnd s k) :
    s.ended = false ∧ s.pushed = [] ∧ (s.repeated ++ [k]).Nodup ∧
      ∀ x ∈ s.repeated ++ [k], x < names.length := by
  have himg := h.images_eq (Nat.zero_lt_of_lt hk.lt)
  have hnodup : (s.repeated ++ [k]).Nodup := List.concat_eq_append ▸ h.nodup.concat hk.new
  have hlt : ∀ x ∈ s.repeated ++ [k], x < names.length := by
    intro x hx
    rcases List.mem_append.1 hx with hx | hx
    · exact h.lt x hx
    · rw [List.mem_singleton.1 hx, ← himg]
      exact hk.lt
  have hend : s.ended = false := by
    by_contra he
    have hfull := (h.full (by simpa using he)).2
    have hle := length_le_of_lt hnodup hlt
    rw [List.length_append, List.length_singleton] at hle
    omega
  refine ⟨hend, ?_, hnodup, hlt⟩
  by_contra hp
  exact absurd ((h.gone hp).1.symm.trans hend) (by simp)

/-- What holds after a call of `task` that draws an index and does not end the game. -/
theorem AtCall.steady_of_drawn (h : AtCall names s) {k : ℕ} (hk : Fresh rnd s k)
    (hframed : Framed s s') (hrep : s'.repeated = s.repeated ++ [k]) (hend : s'.ended = s.ended)
    (hloop : s'.loopCount ≤ s.loopCount + 1 ∧ s'.loopCount ≤ names.length - 1) :
    Steady names s' := by
  obtain ⟨hopen, hp, hnodup, hlt⟩ := h.open_of_fresh hk
  have hstart := hframed.start.trans h.started
  have hover : s'.ended = false := hend.trans hopen
  have hlen := h.loop.1
  rw [if_neg (by simp [hopen])] at hlen
  exact
    { images := hframed.images ▸ h.images
      total := by rw [hframed.images, hframed.totalScore]; exact h.total
      nodup := hrep ▸ hnodup
      lt := hrep ▸ hlt
      fresh := fun hs => absurd (hs.symm.trans hstart) (by simp)
      hidden := fun _ => hframed.visible
      live := fun _ _ => by rw [hframed.timer, hframed.timers]; exact h.live
      loop := by
        rw [if_neg (by simp [hover]), hrep, List.length_append, List.length_singleton]
        omega
      finished := fun he => absurd (hover.symm.trans he) (by simp)
      gone := fun hne => absurd (hframed.pushed.trans hp) hne }

/-- **A call of `task` leaves a steady screen**, also when it is cut short. -/
theorem AtCall.steady (h : AtCall names s) (U : CaseMap) (rnd : Rand) :
    Steady names (task U rnd s).state := by
  by_cases hn : 0 < s.images.length
  · have himg := h.images_eq hn
    have hr := taskResult U rnd hn
    have hframed := hr.framed
    generalize task U rnd s = o at hr hframed
    cases hr with
    | drawing =>
        exact
          { images := h.images, total := h.total, nodup := h.nodup, lt := h.lt
            fresh := fun hs => absurd (hs.symm.trans h.started) (by simp)
            hidden := fun _ => rfl
            live := fun _ _ => h.live
            loop := h.loop
            finished := fun he => ⟨(h.full he).1, (h.full he).2, rfl, rfl, rfl⟩
            gone := fun hne =>
              ⟨(h.gone hne).1, (h.gone hne).2.imp fun _ hp => ⟨hp, Or.inr ⟨rfl, h.live⟩⟩⟩ }
    | unread hk hlt =>
        exact h.steady_of_drawn hk hframed rfl rfl ⟨Nat.le_succ _, h.loop.2⟩
    | misfit hk hlt =>
        exact h.steady_of_drawn hk hframed rfl rfl ⟨Nat.le_succ _, h.loop.2⟩
    | dealt hk hlt =>
        refine h.steady_of_drawn hk hframed rfl rfl ⟨le_refl _, ?_⟩
        rw [himg] at hlt
        exact hlt
    | @ending k hk hlt =>
        obtain ⟨hopen, hp, hnodup, hltk⟩ := h.open_of_fresh hk
        -- every dealt logo has been drawn, so the last draw is the only one that is left
        have hle := length_le_of_lt hnodup hltk
        have hloop := h.loop.1
        rw [if_neg (by simp [hopen])] at hloop
        rw [himg] at hlt
        rw [List.length_append, List.length_singleton] at hle
        have hlen : (s.repeated ++ [k]).length = names.length := by
          rw [List.length_append, List.length_singleton]
          omega
        exact
          { images := h.images, total := h.total, nodup := hnodup, lt := hltk
            fresh := fun hs => absurd (hs.symm.trans h.started) (by simp)
            hidden := fun _ => rfl
            live := fun _ _ => h.live
            loop := by
              change s.loopCount + 1 ≤ (s.repeated ++ [k]).length ∧ s.loopCount ≤ names.length - 1
              have hbound := h.loop.2
              omega
            finished := fun _ => ⟨himg, hlen, rfl, rfl, rfl⟩
            gone := fun hne => absurd hp hne }
  · rw [task_of_empty U rnd hn]
    have hopen : s.ended = false := by
      by_contra he
      exact hn (List.length_pos_iff.2 (h.ne_nil_of_ended (by simpa using he)))
    exact
      { images := h.images, total := h.total, nodup := h.nodup, lt := h.lt
        fresh := fun hs => absurd (hs.symm.trans h.started) (by simp)
        hidden := fun _ => rfl
        live := fun _ _ => h.live
        loop := h.loop
        finished := fun he => absurd (hopen.symm.trans he) (by simp)
        gone := fun hne => absurd (hopen.symm.trans (h.gone hne).1) (by simp) }

/-! ### The ways to a call of `task` -/

/-- A timer that runs is the one in `_timer`. -/
theorem Steady.single (h : Steady names s) :
    s.timers = [] ∨ ∃ t, s.timer = some t ∧ s.timers = [t] := by
  cases hs : s.start with
  | start => exact Or.inl (h.fresh hs).1
  | next =>
      by_cases hp : s.pushed = []
      · exact Or.inr (h.live hs hp)
      · obtain ⟨-, obt, -, ⟨hnil, -⟩ | ⟨-, hone⟩⟩ := h.gone hp
        · exact Or.inl hnil
        · exact Or.inr hone

/-- Cancelling `_timer` stops every timer. -/
theorem Steady.cancelled_timers (h : Steady names s) : s.cancelled.timers = [] := by
  rcases h.single with hnil | ⟨t, ht, hone⟩
  · simp [cancelled, hnil]
  · simp [cancelled, ht, hone]

/-- While a timer runs outside the redraw loop the screen has not been left. -/
theorem Steady.pushed_nil (h : Steady names s) (hl : s.timers ≠ []) (hi : s.inLoop = false) :
    s.pushed = [] := by
  by_contra hp
  obtain ⟨-, obt, -, ⟨hnil, -⟩ | ⟨hloop, -⟩⟩ := h.gone hp
  · exact hl hnil
  · exact absurd (hi.symm.trans hloop) (by simp)

/-- A card is there to be tapped only while the game is not over. -/
theorem Steady.open_of_card (h : Steady names s) {ρ : Row} {c : Str} (hc : c ∈ s.row ρ) :
    s.ended = false := by
  by_contra he
  obtain ⟨-, -, h1, h2, h3⟩ := h.finished (by simpa using he)
  cases ρ <;> simp [row, h1, h2, h3] at hc

/-- A point is given. -/
theorem Steady.credited (h : Steady names s) (hi : s.inLoop = false) : AtCall names s.credited where
  started := rfl
  images := h.images
  total := h.total
  nodup := h.nodup
  lt := h.lt
  live := ⟨s.created, rfl, by
    change s.cancelled.timers ++ [s.created] = [s.created]
    rw [h.cancelled_timers, List.nil_append]⟩
  inLoop := hi
  loop := h.loop
  full he := ⟨(h.finished he).1, (h.finished he).2.1⟩
  gone hne := ⟨(h.gone hne).1, (h.gone hne).2.imp fun _ hp => hp.1⟩

/-- The time of a logo is used up. -/
theorem Steady.expired (h : Steady names s) (hl : s.timers ≠ []) (hi : s.inLoop = false) :
    AtCall names { s with loaded := false } where
  started := by
    cases hs : s.start with
    | start => exact absurd (h.fresh hs).1 hl
    | next => rfl
  images := h.images
  total := h.total
  nodup := h.nodup
  lt := h.lt
  live := h.single.resolve_left hl
  inLoop := hi
  loop := h.loop
  full he := ⟨(h.finished he).1, (h.finished he).2.1⟩
  gone hne := ⟨(h.gone hne).1, (h.gone hne).2.imp fun _ hp => hp.1⟩

/-! ### The other reactions -/

theorem Steady.touched (h : Steady names s) {ρ : Row} {c : Str} (hc : c ∈ s.row ρ) :
    Steady names (s.touched c ρ) := by
  have hopen := h.open_of_card hc
  obtain ⟨j, text, r1, r2, r3, heq⟩ := touched_eq s c ρ
  rw [heq]
  exact { h with finished := fun he => absurd (hopen.symm.trans he) (by simp) }

theorem Steady.reset (h : Steady names s) : Steady names { s with timeinmin := 30 } := { h with }

/-- The screen is left. -/
theorem Steady.left (h : Steady names s) (he : s.ended = true) (hp : s.pushed = []) :
    Steady names s.left := by
  have hnone := h.cancelled_timers
  have hpushed : s.left.pushed = [⟨intToString s.obtScore, intToString s.totalScore⟩] := by
    change s.pushed ++ [_] = _
    rw [hp, List.nil_append]
  obtain ⟨himg, hlen, -⟩ := h.finished he
  have hne : s.images ≠ [] := by
    have hloop := h.loop.1
    rw [if_pos he] at hloop
    rw [himg, ← List.length_pos_iff]
    omega
  exact
    { h with
      fresh := fun hs => absurd ((h.fresh hs).2.2.1.symm.trans he) (by simp)
      live := fun _ hp' => absurd (hpushed.symm.trans hp') (by simp)
      gone := fun _ => ⟨he, intToString s.obtScore, by rw [hpushed, h.total hne],
        Or.inl ⟨hnone, rfl⟩⟩ }

/-- **Every reaction keeps the screen steady.** -/
theorem Reacts.steady (h : Steady names s) (hi : s.inLoop = false) (hr : Reacts U names s s') :
    Steady names s' := by
  cases hr with
  | same => exact h
  | begin hs =>
      obtain ⟨-, -, hend, -⟩ := h.fresh hs
      exact
        { h with
          images := Or.inl rfl
          total := fun hne => absurd rfl hne
          finished := fun he => absurd (hend.symm.trans he) (by simp) }
  | load =>
      exact
        { h with
          images := Or.inr rfl
          total := fun _ => rfl
          finished := fun he => ⟨rfl, (h.finished he).2⟩ }
  | unmount => exact { h with }
  | miss => exact { h with }
  | touch hc => exact h.touched hc
  | press => exact (h.credited hi).steady U _
  | @solve ρ c rnd hc =>
      exact ((h.touched hc).credited ((touched_inLoop s c ρ).trans hi)).steady U rnd
  | count => exact { h with }
  | finish _ hl he =>
      have hcounted : Steady names s.counted := { h with }
      exact hcounted.left he (h.pushed_nil hl hi)
  | @expireCut rnd _ _ hl ht =>
      have hs := (h.expired hl hi).steady U rnd
      rw [ht] at hs
      exact hs
  | @expire rnd _ hl ht he =>
      have hs := (h.expired hl hi).steady U rnd
      rw [ht] at hs
      exact Steady.reset hs
  | @expireEnd rnd s₁ hl ht he =>
      have hs := (h.expired hl hi).steady U rnd
      have hp := (task_framed U rnd { s with loaded := false }).pushed
      rw [ht] at hs hp
      exact (Steady.reset hs).left he (hp.trans (h.pushed_nil hl hi))

/-! ### The handlers and their reactions -/

/-- The handler of the button on a mounted screen gives a point and calls `task`. -/
theorem Steady.onPressed_eq (h : Steady names s) (hsound : Sound s) (U : CaseMap) (rnd : Rand)
    (hm : s.mounted = true) : onPressed U rnd s = task U rnd s.credited := by
  rw [onPressed_of_mounted U rnd hm hsound.timer_of_started]
  refine task_congr U rnd ?_
  by_cases hs : s.start = .start
  · -- before the first handler there is no timer to cancel
    have htimers : s.cancelled.timers = s.timers := by
      rw [h.cancelled_timers, (h.fresh hs).1]
    rw [if_neg (by simp [hs]), advance_of_mounted hm, Quiz.credited, htimers]
    rfl
  · rw [if_pos (next_of_ne hs), advance_of_mounted (s := s.cancelled) hm]
    rfl

theorem Steady.reacts_onPressed (h : Steady names s) (hsound : Sound s) (U : CaseMap)
    (rnd : Rand) : Reacts U names s (onPressed U rnd s).state := by
  by_cases hm : s.mounted = true
  · rw [h.onPressed_eq hsound U rnd hm]
    exact .press
  · rw [onPressed_of_unmounted U rnd (by simpa using hm)]
    exact .same

theorem Sound.reacts_onTap (hsound : Sound s) (names : List Str) (U : CaseMap) (rnd : Rand)
    (hm : s.mounted = true) (ρ : Row) (i : ℕ) :
    Reacts U names s (Quiz.onTap U rnd ρ i s).state := by
  cases hc : (s.row ρ)[i]? with
  | none =>
      rw [onTap_of_none U rnd hm hc]
      exact .miss
  | some c =>
      have hcard : c ∈ s.row ρ := List.mem_iff_getElem?.2 ⟨i, hc⟩
      rw [onTap_eq_act U rnd hm hsound.len hc]
      by_cases hcomp : Completes s ρ c
      · rw [act_of_completes U rnd hm (hsound.timer_of_card hc) hcomp]
        exact .solve hcard
      · rw [act_of_open U rnd hcomp]
        exact .touch hcard

theorem Sound.reacts_tick (hsound : Sound s) (names : List Str) (U : CaseMap) (rnd : Rand)
    (hl : s.timers ≠ []) : Reacts U names s (Quiz.tick U rnd s).state := by
  by_cases hm : s.mounted = true
  · have ht := hsound.timer_of_live hl
    rw [Quiz.tick, if_pos hm, setState_of_mounted hm, countdown]
    by_cases hpos : 0 < s.timeinmin
    · rw [if_pos hpos]
      change Reacts U names s (setState leave s.counted).state
      rw [setState_of_mounted (s := s.counted) hm]
      cases he : s.ended with
      | false =>
          rw [leave_of_not_ended (s := s.counted) he]
          exact .count hpos he
      | true =>
          rw [leave_of_ended (s := s.counted) he ht]
          exact .finish hpos hl he
    · rw [if_neg hpos]
      have hframed := task_framed U rnd { s with loaded := false }
      cases ho : task U rnd { s with loaded := false } with
      | stop e s₁ => exact .expireCut hl ho
      | done s₁ =>
          rw [ho] at hframed
          have hm₁ : s₁.mounted = true := hframed.mounted.trans hm
          have ht₁ : s₁.timer.isSome := by
            rw [show s₁.timer = s.timer from hframed.timer]
            exact ht
          change Reacts U names s (setState leave { s₁ with timeinmin := 30 }).state
          rw [setState_of_mounted (s := { s₁ with timeinmin := 30 }) hm₁]
          rcases Bool.eq_false_or_eq_true s₁.ended with he | he
          · rw [leave_of_ended (s := { s₁ with timeinmin := 30 }) he ht₁]
            exact .expireEnd hl ho he
          · rw [leave_of_not_ended (s := { s₁ with timeinmin := 30 }) he]
            exact .expire hl ho he
  · rw [tick_of_unmounted U rnd (by simpa using hm)]
    exact .same

end

end Quiz

/-! ### The indicator -/

namespace Quiz

/-- **The indicator belongs to the number inside it**: it is full, as `task` leaves it, or it shows
the seconds that are left of thirty. -/
def Indicated (s : Quiz) : Prop :=
  s.timeinmin ≤ 30 ∧
    (s.percent = 1 ∨ s.timeinmin < 30 ∧ s.percent = (s.timeinmin : ℚ) * (33333 / 1000000))

section

variable {U : CaseMap} {names : List Str} {s s' : Quiz}

/-- The indicator can show it. -/
theorem Indicated.bounds (h : Indicated s) : 0 ≤ s.percent ∧ s.percent ≤ 1 := by
  obtain ⟨-, hone | ⟨hlt, heq⟩⟩ := h
  · rw [hone]
    exact ⟨zero_le_one, le_refl 1⟩
  · have hcast : (s.timeinmin : ℚ) ≤ 30 := by exact_mod_cast hlt.le
    have hnonneg : (0 : ℚ) ≤ s.timeinmin := Nat.cast_nonneg _
    rw [heq]
    constructor <;> linarith

theorem TaskResult.percent_eq {rnd : Rand} {o : Outcome Cut Quiz} (hr : TaskResult U rnd s o) :
    o.state.percent = 1 := by
  cases hr <;> rfl

/-- `task` fills the indicator. -/
theorem percent_task (U : CaseMap) (rnd : Rand) (s : Quiz) : (task U rnd s).state.percent = 1 := by
  by_cases hn : 0 < s.images.length
  · exact (taskResult U rnd hn).percent_eq
  · rw [task_of_empty U rnd hn]
    rfl

theorem indicated_task (U : CaseMap) (rnd : Rand) (h : s.timeinmin ≤ 30) :
    Indicated (task U rnd s).state :=
  ⟨(task_framed U rnd s).timeinmin ▸ h, Or.inl (percent_task U rnd s)⟩

/-- Counting down is seen on the indicator. -/
theorem indicated_counted (h : s.timeinmin ≤ 30) (hpos : 0 < s.timeinmin) :
    Indicated s.counted := by
  refine ⟨(Nat.sub_le _ _).trans h, Or.inr ⟨?_, ?_⟩⟩
  · change s.timeinmin - 1 < 30
    omega
  · change ((s.timeinmin : ℚ) - 1) * (33333 / 10000) / 100 =
      ((s.timeinmin - 1 : ℕ) : ℚ) * (33333 / 1000000)
    rw [Nat.cast_pred hpos]
    ring

/-- **Every reaction keeps the indicator in step.** -/
theorem Reacts.indicated (h : Indicated s) (hr : Reacts U names s s') : Indicated s' := by
  cases hr with
  | same => exact h
  | begin => exact h
  | load => exact h
  | unmount => exact h
  | miss => exact h
  | @touch ρ c _ =>
      obtain ⟨j, text, r1, r2, r3, heq⟩ := touched_eq s c ρ
      rw [heq]
      exact h
  | press => exact indicated_task U _ (le_refl 30)
  | solve => exact indicated_task U _ (le_refl 30)
  | count hpos => exact indicated_counted h.1 hpos
  | finish hpos => exact indicated_counted h.1 hpos
  | @expireCut rnd _ _ _ ht =>
      have hs := indicated_task (s := { s with loaded := false }) U rnd h.1
      rw [ht] at hs
      exact hs
  | @expire rnd _ _ ht =>
      have hp := percent_task U rnd { s with loaded := false }
      rw [ht] at hp
      exact ⟨le_refl 30, Or.inl hp⟩
  | @expireEnd rnd _ _ ht =>
      have hp := percent_task U rnd { s with loaded := false }
      rw [ht] at hp
      exact ⟨le_refl 30, Or.inl hp⟩

end

end Quiz

/-! ### Points -/

namespace Quiz

/-- **Every card belongs to an answer.** -/
def Answered (s : Quiz) : Prop := ∀ ρ, ∀ c ∈ s.row ρ, s.correct ≠ []

section

variable {U : CaseMap} {names : List Str} {s s' : Quiz} {rnd : Rand} {ρ : Row} {c : Str} {i : ℕ}

/-- A logo that is dealt has an answer. -/
theorem answered_task (hw : ∀ p ∈ names, WellFormed p) (himg : s.images = [] ∨ s.images = names)
    (U : CaseMap) (rnd : Rand) : Answered (task U rnd s).state := by
  have hnone : ∀ {t : Quiz}, t.r1 = [] → t.r2 = [] → t.r3 = [] → Answered t := by
    intro t h1 h2 h3 ρ c hc
    cases ρ <;> simp [row, h1, h2, h3] at hc
  by_cases hn : 0 < s.images.length
  · have hnames := himg.resolve_left (List.length_pos_iff.1 hn)
    have hr := taskResult U rnd hn
    generalize task U rnd s = o at hr
    cases hr with
    | drawing => exact hnone rfl rfl rfl
    | unread => exact hnone rfl rfl rfl
    | misfit => exact hnone rfl rfl rfl
    | ending => exact hnone rfl rfl rfl
    | dealt hk hlt hp ht =>
        rw [hnames] at hp
        exact fun _ _ _ => letters_ne_nil_of_wellFormed (hw _ (List.mem_of_getElem? hp)) ht
  · rw [task_of_empty U rnd hn]
    exact hnone rfl rfl rfl

theorem Answered.touched (h : Answered s) (c : Str) (ρ : Row) : Answered (s.touched c ρ) := by
  intro ρ' a ha
  have hsub : (s.touched c ρ).row ρ' ⊆ s.row ρ' := by
    rw [Quiz.touched]
    by_cases hmem : c ∈ s.correct
    · rw [if_pos hmem]
      cases ρ <;> cases ρ' <;> simp [row, played, List.erase_subset]
    · rw [if_neg hmem]
      cases ρ' <;> exact fun _ hx => hx
  have hcorrect : (s.touched c ρ).correct = s.correct := by
    obtain ⟨j, text, r1, r2, r3, heq⟩ := touched_eq s c ρ
    rw [heq]
  rw [hcorrect]
  exact h ρ' a (hsub ha)

/-- **Every reaction keeps the cards with their answer**, over well-formed paths. -/
theorem Reacts.answered (hw : ∀ p ∈ names, WellFormed p) (hsteady : Steady names s)
    (h : Answered s) (hr : Reacts U names s s') : Answered s' := by
  have hexpired : ∀ rnd, Answered (task U rnd { s with loaded := false }).state :=
    fun rnd => answered_task (s := { s with loaded := false }) hw hsteady.images U rnd
  cases hr with
  | same => exact h
  | begin => exact h
  | load => exact h
  | unmount => exact h
  | miss => exact h
  | touch hc => exact h.touched _ _
  | press => exact answered_task (s := s.credited) hw hsteady.images U _
  | @solve ρ c _ hc =>
      exact answered_task (s := (s.touched c ρ).credited) hw (hsteady.touched hc).images U _
  | count => exact h
  | finish => exact h
  | @expireCut rnd _ _ _ ht =>
      have ha := hexpired rnd
      rw [ht] at ha
      exact ha
  | @expire rnd _ _ ht =>
      have ha := hexpired rnd
      rw [ht] at ha
      exact ha
  | @expireEnd rnd _ _ ht =>
      have ha := hexpired rnd
      rw [ht] at ha
      exact ha

/-- The handler of the button gives a point on a mounted screen. -/
theorem Steady.score_onPressed (h : Steady names s) (hsound : Sound s) (U : CaseMap)
    (rnd : Rand) :
    (onPressed U rnd s).state.obtScore = s.obtScore + if s.mounted = true then 1 else 0 := by
  by_cases hm : s.mounted = true
  · rw [h.onPressed_eq hsound U rnd hm, (task_framed U rnd s.credited).obtScore, if_pos hm]
    rfl
  · rw [onPressed_of_unmounted U rnd (by simpa using hm), if_neg hm]
    exact (add_zero _).symm

/-- The timer gives none. -/
theorem Sound.score_tick (hsound : Sound s) (U : CaseMap) (rnd : Rand) (hl : s.timers ≠ []) :
    (Quiz.tick U rnd s).state.obtScore = s.obtScore := by
  by_cases hm : s.mounted = true
  · have hscore : (task U rnd { s with loaded := false }).state.obtScore = s.obtScore :=
      (task_framed U rnd { s with loaded := false }).obtScore
    obtain ⟨s₁, htick, hs₁⟩ := tick_cases U rnd hm (hsound.timer_of_live hl)
    have hscore₁ : s₁.obtScore = s.obtScore := by
      rcases hs₁ with rfl | rfl | rfl
      · rfl
      · exact hscore
      · exact hscore
    rcases htick with htick | htick
    · rw [htick, hscore₁]
    · rw [htick]
      exact hscore₁
  · rw [tick_of_unmounted U rnd (by simpa using hm)]
    rfl

/-- **A tap gives a point exactly when it solves the logo.** -/
theorem Sound.score_onTap (hsound : Sound s) (h : Answered s) (U : CaseMap) (rnd : Rand)
    (hm : s.mounted = true) (ρ : Row) (i : ℕ) :
    (Quiz.onTap U rnd ρ i s).state.obtScore =
      s.obtScore + (solvedBy ⟨s, .tap ρ i rnd, (Quiz.onTap U rnd ρ i s).state⟩).toList.length := by
  cases hc : (s.row ρ)[i]? with
  | none =>
      rw [onTap_of_none U rnd hm hc]
      simp [solvedBy, hc]
  | some c =>
      have hne : s.correct ≠ [] := h ρ c (List.mem_iff_getElem?.2 ⟨i, hc⟩)
      have hscore : (s.touched c ρ).obtScore = s.obtScore := by
        obtain ⟨j, text, r1, r2, r3, heq⟩ := touched_eq s c ρ
        rw [heq]
      rw [solvedBy_tap hsound.len hc, onTap_eq_act U rnd hm hsound.len hc]
      by_cases hcomp : Completes s ρ c
      · have hmem : c ∈ s.correct := by
          by_contra hmem
          exact hne ((hsound.completes_iff hmem).1 hcomp).2
        have hall : s.correct = reveal c s.correct s.text := by
          rwa [Completes, if_pos hmem] at hcomp
        have hopen : s.text ≠ s.correct := fun heq => hne (hsound.unsolved heq.symm)
        rw [if_pos ⟨hmem, hopen, hall.symm⟩,
          act_of_completes U rnd hm (hsound.timer_of_card hc) hcomp,
          (task_framed U rnd (s.touched c ρ).credited).obtScore, ← hscore]
        rfl
      · have hopen : ¬ (c ∈ s.correct ∧ s.text ≠ s.correct ∧
            reveal c s.correct s.text = s.correct) := by
          rintro ⟨hmem, -, hall⟩
          refine hcomp ?_
          rw [Completes, if_pos hmem]
          exact hall.symm
        rw [if_neg hopen, act_of_open U rnd hcomp]
        simpa using hscore

end

end Quiz

/-! ### Sessions -/

namespace Session

section

variable {U : CaseMap} {names : List Str} {s s' : Session}

/-- An event happens only outside the redraw loop. -/
theorem inLoop_of_step {e : Event} (hs : step U names s e = some s') :
    s.quiz.inLoop = false := by
  cases e with
  | press rnd => exact (Option.ite_none_right_eq_some.1 hs).1.1
  | resume i rnd => exact (Option.ite_none_right_eq_some.1 hs).1
  | tap ρ i rnd =>
      obtain ⟨-, hmap⟩ := Option.ite_none_right_eq_some.1 hs
      obtain ⟨q, hq, -⟩ := Option.map_eq_some_iff.1 hmap
      exact Quiz.inLoop_of_step hq
  | tick rnd =>
      obtain ⟨q, hq, -⟩ := Option.map_eq_some_iff.1 hs
      exact Quiz.inLoop_of_step hq
  | unmount => exact (of_guard hs).1.1
  | blank => exact (of_guard hs).1

/-- A press runs the handler up to its first `await` or to its end. -/
theorem onPress_of_step {rnd : Rand} (hs : step U names s (.press rnd) = some s') :
    s.quiz.mounted = true ∧ s' = s.onPress U rnd := by
  obtain ⟨⟨-, hm, -⟩, hs⟩ := Option.ite_none_right_eq_some.1 hs
  refine ⟨hm, ?_⟩
  rw [onPress]
  by_cases hstart : s.quiz.start = .start
  · rw [if_pos hstart] at hs ⊢
    exact (Option.some_inj.1 hs).symm
  · rw [if_neg hstart] at hs ⊢
    exact (Option.some_inj.1 hs).symm

/-- The button of an earlier frame: it begins `getIm`, or is carried out at once. -/
theorem reacts_onPress (h : s.quiz.Steady names) (hsound : s.quiz.Sound) (rnd : Rand) :
    Quiz.Reacts U names s.quiz (s.onPress U rnd).quiz := by
  rw [onPress]
  by_cases hs : s.quiz.start = .start
  · rw [if_pos hs]
    exact .begin hs
  · rw [if_neg hs]
    exact h.reacts_onPressed hsound U rnd

/-- **Every event of a session is one of the listed reactions.** -/
theorem reacts_of_step (h : s.quiz.Steady names) (hsound : s.quiz.Sound) {e : Event}
    (hs : step U names s e = some s') : Quiz.Reacts U names s.quiz s'.quiz := by
  cases e with
  | press rnd =>
      obtain ⟨-, rfl⟩ := onPress_of_step hs
      exact reacts_onPress h hsound rnd
  | resume i rnd =>
      obtain ⟨-, hs⟩ := Option.ite_none_right_eq_some.1 hs
      cases hp : s.pending[i]? with
      | none => simp [hp] at hs
      | some ph =>
          cases ph with
          | getInstance =>
              obtain rfl : _ = s' := by simpa [hp] using hs
              exact .same
          | getString =>
              obtain rfl : _ = s' := by simpa [hp] using hs
              exact .load
          | getBlank =>
              obtain rfl : _ = s' := by simpa [hp] using hs
              exact .same
          | getIm =>
              obtain rfl : _ = s' := by simpa [hp] using hs
              exact h.reacts_onPressed hsound U rnd
  | tap ρ i rnd =>
      obtain ⟨hm, hmap⟩ := Option.ite_none_right_eq_some.1 hs
      obtain ⟨q, hq, rfl⟩ := Option.map_eq_some_iff.1 hmap
      obtain ⟨-, rfl⟩ := of_guard hq
      exact hsound.reacts_onTap names U rnd hm ρ i
  | tick rnd =>
      obtain ⟨q, hq, rfl⟩ := Option.map_eq_some_iff.1 hs
      obtain ⟨⟨-, hl⟩, rfl⟩ := of_guard hq
      exact hsound.reacts_tick names U rnd hl
  | unmount =>
      obtain ⟨-, rfl⟩ := of_guard hs
      exact .unmount
  | blank =>
      obtain ⟨-, rfl⟩ := of_guard hs
      exact .same

/-- **The handler of the button is carried out**: it runs from its `setState` on, and the screen
is still mounted. -/
def carriedBy (m : Move Session Event) : Bool :=
  m.pre.quiz.mounted &&
    match m.event with
    | .press _ => decide (m.pre.quiz.start = .next)
    | .resume i _ => decide (m.pre.pending[i]? = some .getIm)
    | _ => false

/-- The points that a move gives. -/
def points (m : Move Session Event) : ℕ :=
  (if carriedBy m = true then 1 else 0) + (solvedBy m).toList.length

theorem points_of_press (h : s.quiz.Steady names) (hsound : s.quiz.Sound)
    (hm : s.quiz.mounted = true) (rnd : Rand) :
    (s.onPress U rnd).quiz.obtScore =
      s.quiz.obtScore + points ⟨s, .press rnd, s.onPress U rnd⟩ := by
  rw [onPress]
  by_cases hs : s.quiz.start = .start
  · simp [points, carriedBy, solvedBy, hs, Quiz.getImBegin]
  · have hnext := Quiz.next_of_ne hs
    rw [if_neg hs]
    simp [points, carriedBy, solvedBy, hnext, hm, h.score_onPressed hsound U rnd]

/-- **What an event of a session does to the score.** -/
theorem points_of_step (h : s.quiz.Steady names) (hsound : s.quiz.Sound)
    (ha : s.quiz.Answered) {e : Event} (hs : step U names s e = some s') :
    s'.quiz.obtScore = s.quiz.obtScore + points ⟨s, e, s'⟩ := by
  cases e with
  | press rnd =>
      obtain ⟨hm, rfl⟩ := onPress_of_step hs
      exact points_of_press h hsound hm rnd
  | resume i rnd =>
      obtain ⟨-, hs⟩ := Option.ite_none_right_eq_some.1 hs
      cases hp : s.pending[i]? with
      | none => simp [hp] at hs
      | some ph =>
          cases ph with
          | getInstance =>
              obtain rfl : _ = s' := by simpa [hp] using hs
              simp [points, carriedBy, solvedBy, hp]
          | getString =>
              obtain rfl : _ = s' := by simpa [hp] using hs
              simp [points, carriedBy, solvedBy, hp, Quiz.getImEnd]
          | getBlank =>
              obtain rfl : _ = s' := by simpa [hp] using hs
              simp [points, carriedBy, solvedBy, hp]
          | getIm =>
              obtain rfl : _ = s' := by simpa [hp] using hs
              by_cases hm : s.quiz.mounted = true <;>
                simp [points, carriedBy, solvedBy, hp, hm, h.score_onPressed hsound U rnd]
  | tap ρ i rnd =>
      obtain ⟨hm, hmap⟩ := Option.ite_none_right_eq_some.1 hs
      obtain ⟨q, hq, rfl⟩ := Option.map_eq_some_iff.1 hmap
      obtain ⟨-, rfl⟩ := of_guard hq
      simpa [points, carriedBy, solvedBy] using hsound.score_onTap ha U rnd hm ρ i
  | tick rnd =>
      obtain ⟨q, hq, rfl⟩ := Option.map_eq_some_iff.1 hs
      obtain ⟨⟨-, hl⟩, rfl⟩ := of_guard hq
      simp [points, carriedBy, solvedBy, hsound.score_tick U rnd hl]
  | unmount =>
      obtain ⟨-, rfl⟩ := of_guard hs
      simp [points, carriedBy, solvedBy]
  | blank =>
      obtain ⟨-, rfl⟩ := of_guard hs
      simp [points, carriedBy, solvedBy]

theorem steady_fresh (names : List Str) : Quiz.Steady names {} where
  images := Or.inl rfl
  total hne := absurd rfl hne
  nodup := List.nodup_nil
  lt _ hk := absurd hk List.not_mem_nil
  fresh _ := ⟨rfl, rfl, rfl, rfl⟩
  hidden hs := absurd hs (by simp)
  live hs := absurd hs (by simp)
  loop := ⟨Nat.le_refl 0, Nat.zero_le _⟩
  finished he := absurd he (by simp)
  gone hne := absurd rfl hne

end

end Session

namespace Frame

/-- The event of the session that a move consists of; building the screen is none. -/
def sessionMove (m : Move Frame Event) : Option (Move Session Session.Event) :=
  match m.event with
  | .build => none
  | .event e => some ⟨m.pre.session, e, m.post.session⟩

section

variable {U : CaseMap} {names : List Str} {f f' : Frame} {tr : List (Move Frame Event)}

/-- An event between two frames is a building of the screen, a press on a button that may have been
built earlier, or an event of the session. -/
theorem step_cases {e : Event} (hs : step U names f e = some f') :
    f.session.quiz.inLoop = false ∧
      ((e = .build ∧ f'.session = f.session) ∨
        (∃ rnd, e = .event (.press rnd) ∧ f.session.quiz.mounted = true ∧
          f'.session = f.session.onPress U rnd) ∨
        ∃ e', e = .event e' ∧ Session.step U names f.session e' = some f'.session) := by
  have hlift : ∀ {e' : Session.Event}, e = .event e' →
      (Session.step U names f.session e').map (fun s => { f with session := s }) = some f' →
        f.session.quiz.inLoop = false ∧
          ∃ e', e = .event e' ∧ Session.step U names f.session e' = some f'.session := by
    intro e' he hs
    obtain ⟨s, hstep, rfl⟩ := Option.map_eq_some_iff.1 hs
    exact ⟨Session.inLoop_of_step hstep, e', he, hstep⟩
  cases e with
  | build =>
      obtain ⟨⟨hi, -⟩, rfl⟩ := of_guard hs
      exact ⟨hi, Or.inl ⟨rfl, rfl⟩⟩
  | event e =>
      cases e with
      | press rnd =>
          obtain ⟨⟨hi, hm, -⟩, rfl⟩ := of_guard hs
          exact ⟨hi, Or.inr (Or.inl ⟨rnd, rfl, hm, rfl⟩)⟩
      | resume i rnd => exact (hlift rfl hs).imp_right fun h => Or.inr (Or.inr h)
      | tap ρ i rnd =>
          have hs := (Option.ite_none_right_eq_some.1 hs).2
          exact (hlift rfl hs).imp_right fun h => Or.inr (Or.inr h)
      | tick rnd => exact (hlift rfl hs).imp_right fun h => Or.inr (Or.inr h)
      | unmount => exact (hlift rfl hs).imp_right fun h => Or.inr (Or.inr h)
      | blank => exact (hlift rfl hs).imp_right fun h => Or.inr (Or.inr h)

/-- **Every event between two frames is one of the listed reactions**. -/
theorem reacts_of_step (h : f.session.quiz.Steady names) (hsound : f.session.quiz.Sound)
    {e : Event} (hs : step U names f e = some f') :
    Quiz.Reacts U names f.session.quiz f'.session.quiz := by
  obtain ⟨-, ⟨-, heq⟩ | ⟨rnd, -, -, heq⟩ | ⟨e', -, hstep⟩⟩ := step_cases hs
  · rw [heq]
    exact .same
  · rw [heq]
    exact Session.reacts_onPress h hsound rnd
  · exact Session.reacts_of_step h hsound hstep

/-- **Every session keeps the game in order.** -/
theorem steady_of_run (h : Run (step U names) {} tr f) : f.session.quiz.Steady names := by
  refine Run.invariant (I := fun _ f => f.session.quiz.Steady names)
    (Session.steady_fresh names) ?_ h
  intro tr f e f' hrun ih hs
  exact (reacts_of_step ih (sound_of_run hrun) hs).steady ih (step_cases hs).1

/-! ### The indicator on the screen -/

/-- The screen is built from the state of the session, or not at all. -/
theorem built_of_step {e : Event} (hs : step U names f e = some f') :
    f'.built = f.built ∨ f'.built = f.session.quiz := by
  have hlift : ∀ {e' : Session.Event},
      (Session.step U names f.session e').map (fun s => { f with session := s }) = some f' →
        f'.built = f.built := by
    intro e' hs
    obtain ⟨s, -, rfl⟩ := Option.map_eq_some_iff.1 hs
    rfl
  cases e with
  | build =>
      obtain ⟨-, rfl⟩ := of_guard hs
      exact Or.inr rfl
  | event e =>
      cases e with
      | press rnd =>
          obtain ⟨-, rfl⟩ := of_guard hs
          exact Or.inl rfl
      | resume i rnd => exact Or.inl (hlift hs)
      | tap ρ i rnd => exact Or.inl (hlift (Option.ite_none_right_eq_some.1 hs).2)
      | tick rnd => exact Or.inl (hlift hs)
      | unmount => exact Or.inl (hlift hs)
      | blank => exact Or.inl (hlift hs)

/-- **The indicator always has a percentage that it can show.**  Whatever is pressed, tapped and
resumed in whatever order, over any list of paths, in exact arithmetic: on every screen that is
built the percentage lies between `0` and `1`, as the indicator requires; it is `1`, or the number
inside the indicator, which is at most thirty, times a thirtieth to five digits. -/
theorem indicator_of_run (h : Run (step U names) {} tr f) :
    0 ≤ f.built.percent ∧ f.built.percent ≤ 1 ∧ f.built.timeinmin ≤ 30 ∧
      (f.built.percent = 1 ∨ f.built.percent = (f.built.timeinmin : ℚ) * (33333 / 1000000)) := by
  have hinv : f.session.quiz.Indicated ∧ f.built.Indicated := by
    refine Run.invariant (I := fun _ f => f.session.quiz.Indicated ∧ f.built.Indicated)
      ⟨⟨le_refl 30, Or.inl rfl⟩, le_refl 30, Or.inl rfl⟩ ?_ h
    intro tr f e f' hrun ih hs
    refine ⟨(reacts_of_step (steady_of_run hrun) (sound_of_run hrun) hs).indicated ih.1, ?_⟩
    rcases built_of_step hs with heq | heq
    · rw [heq]
      exact ih.2
    · rw [heq]
      exact ih.1
  obtain ⟨h0, h1⟩ := hinv.2.bounds
  exact ⟨h0, h1, hinv.2.1, hinv.2.2.imp_right And.right⟩

/-! ### One timer and one result -/

/-- **One timer, one result.**  Whatever is pressed, tapped and resumed in whatever order, over any
list of paths: at most one timer is live, and it is the one in `_timer`; once a handler of the
button has been carried out one is live until the screen is left; the screen is left at most once,
after all paths have been drawn, and with the number of paths; no index is drawn twice; and neither
the Next nor the Done button is ever on the screen. -/
theorem one_result (h : Run (step U names) {} tr f) :
    f.session.quiz.timers.length ≤ 1 ∧
      (∀ t ∈ f.session.quiz.timers, f.session.quiz.timer = some t) ∧
      (f.session.quiz.start = .next → f.session.quiz.pushed = [] →
        f.session.quiz.timers.length = 1) ∧
      f.session.quiz.pushed.length ≤ 1 ∧
      (∀ sc ∈ f.session.quiz.pushed, sc.tot = intToString names.length ∧
        f.session.quiz.repeated.Perm (List.range names.length)) ∧
      f.session.quiz.repeated.Nodup ∧
      (f.session.quiz.start = .next → f.session.quiz.nextEnabled = false) ∧
      f.session.quiz.doneEnabled = false := by
  have hs := steady_of_run h
  refine ⟨?_, ?_, ?_, ?_, ?_, hs.nodup, ?_, ?_⟩
  · rcases hs.single with hnil | ⟨t, -, hone⟩
    · simp [hnil]
    · simp [hone]
  · intro u hu
    rcases hs.single with hnil | ⟨t, ht, hone⟩
    · simp [hnil] at hu
    · rw [hone] at hu
      rw [ht, List.mem_singleton.1 hu]
  · intro hstart hp
    obtain ⟨t, -, hone⟩ := hs.live hstart hp
    rw [hone, List.length_singleton]
  · by_cases hp : f.session.quiz.pushed = []
    · simp [hp]
    · obtain ⟨-, obt, hpush, -⟩ := hs.gone hp
      rw [hpush, List.length_singleton]
  · intro sc hsc
    obtain ⟨hend, obt, hpush, -⟩ := hs.gone (List.ne_nil_of_mem hsc)
    rw [hpush] at hsc
    exact ⟨by rw [List.mem_singleton.1 hsc], perm_range hs.nodup hs.lt (hs.finished hend).2.1⟩
  · intro hstart
    rw [Quiz.nextEnabled, hs.hidden hstart, Bool.and_false]
  · rw [Quiz.doneEnabled]
    cases hstart : f.session.quiz.start with
    | next => rw [hs.hidden hstart, Bool.and_false]
    | start =>
        have hcount := (hs.fresh hstart).2.1
        simp only [Bool.and_eq_false_iff, decide_eq_false_iff_not, not_and, not_not]
        exact Or.inl fun heq => heq ▸ hcount

/-! ### The ledger -/

/-- The events of the session in a run. -/
def sessionMoves (tr : List (Move Frame Event)) : List (Move Session Session.Event) :=
  tr.filterMap sessionMove

/-- **The handlers of the button that are carried out in a run.** -/
def carriedIn (tr : List (Move Frame Event)) : ℕ := (sessionMoves tr).countP Session.carriedBy

/-- **The logos solved by taps in a run**, in order. -/
def solvedIn (tr : List (Move Frame Event)) : List ℕ := Session.solvedIn (sessionMoves tr)

/-- The points that a move gives. -/
def points (m : Move Frame Event) : ℕ := ((sessionMove m).map Session.points).getD 0

theorem ledger_concat (tr : List (Move Frame Event)) (m : Move Frame Event) :
    carriedIn (tr ++ [m]) + (solvedIn (tr ++ [m])).length =
      carriedIn tr + (solvedIn tr).length + points m := by
  rw [carriedIn, carriedIn, solvedIn, solvedIn, Session.solvedIn, Session.solvedIn, sessionMoves,
    filterMap_concat]
  cases hm : sessionMove m with
  | none => simp [points, hm, sessionMoves]
  | some m' =>
      simp only [points, hm, sessionMoves, Option.toList_some, List.countP_append,
        List.countP_singleton, filterMap_concat, List.length_append, Option.map_some,
        Option.getD_some, Session.points]
      omega

/-- What an event between two frames does to the score. -/
theorem points_of_step (h : f.session.quiz.Steady names) (hsound : f.session.quiz.Sound)
    (ha : f.session.quiz.Answered) {e : Event} (hs : step U names f e = some f') :
    f'.session.quiz.obtScore = f.session.quiz.obtScore + points ⟨f, e, f'⟩ := by
  obtain ⟨-, ⟨rfl, heq⟩ | ⟨rnd, rfl, hm, heq⟩ | ⟨e', rfl, hstep⟩⟩ := step_cases hs
  · rw [heq]
    exact (add_zero _).symm
  · have hpoints := Session.points_of_press h hsound hm rnd (U := U)
    rw [← heq] at hpoints
    exact hpoints
  · exact Session.points_of_step h hsound ha hstep

theorem answered_of_run (hw : ∀ p ∈ names, WellFormed p) (h : Run (step U names) {} tr f) :
    f.session.quiz.Answered := by
  refine Run.invariant (I := fun _ f => f.session.quiz.Answered) ?_ ?_ h
  · intro ρ c hc
    cases ρ <;> simp [Quiz.row] at hc
  · intro tr f e f' hrun ih hs
    have hsteady := steady_of_run hrun
    exact (reacts_of_step hsteady (sound_of_run hrun) hs).answered hw hsteady ih

/-- Every event of a session keeps the ledger. -/
theorem ledger_of_run (hw : ∀ p ∈ names, WellFormed p) (h : Run (step U names) {} tr f) :
    f.session.quiz.obtScore + 1 = carriedIn tr + (solvedIn tr).length := by
  refine Run.invariant (I := fun tr f =>
    f.session.quiz.obtScore + 1 = carriedIn tr + (solvedIn tr).length) rfl ?_ h
  intro tr f e f' hrun ih hs
  have hpoints := points_of_step (steady_of_run hrun) (sound_of_run hrun)
    (answered_of_run hw hrun) hs
  have hconcat := ledger_concat tr ⟨f, e, f'⟩
  omega

/-- **The ledger.**  Over well-formed paths every event gives a point for the handler of the button
that it carries out and one for the logo that it solves.  So the score counts the solved logos and
the handlers that were carried out, beginning at `-1`: one handler is free, and every other one
gives a point like a solved logo. -/
theorem score_eq (hw : ∀ p ∈ names, WellFormed p) (h : Run (step U names) {} tr f) :
    (∀ m ∈ tr, m.post.session.quiz.obtScore = m.pre.session.quiz.obtScore + points m) ∧
      f.session.quiz.obtScore + 1 = carriedIn tr + (solvedIn tr).length := by
  refine ⟨?_, ledger_of_run hw h⟩
  intro m hm
  obtain ⟨tr₁, tr₂, htr⟩ := List.append_of_mem hm
  obtain ⟨hrun, hs⟩ := h.of_append htr
  exact points_of_step (steady_of_run hrun) (sound_of_run hrun) (answered_of_run hw hrun) hs

/-- **When the result is right.**  While the screen still reacts, a pushed result is that of the
ledger, and so it is the number of solved logos exactly when one handler of the button has been
carried out. -/
theorem result_counts_solved_iff (hw : ∀ p ∈ names, WellFormed p)
    (h : Run (step U names) {} tr f) (hi : f.session.quiz.inLoop = false) {sc : Score}
    (hsc : sc ∈ f.session.quiz.pushed) :
    sc = ⟨intToString ((carriedIn tr : ℤ) + (solvedIn tr).length - 1), intToString names.length⟩ ∧
      (sc.obt = intToString (solvedIn tr).length ↔ carriedIn tr = 1) := by
  have hscore := ledger_of_run hw h
  obtain ⟨-, obt, hpush, hor⟩ := (steady_of_run h).gone (List.ne_nil_of_mem hsc)
  have hobt : obt = intToString f.session.quiz.obtScore := by
    rcases hor with ⟨-, hobt⟩ | ⟨hloop, -⟩
    · exact hobt
    · exact absurd (hi.symm.trans hloop) (by simp)
  have hledger : f.session.quiz.obtScore = (carriedIn tr : ℤ) + (solvedIn tr).length - 1 := by
    omega
  rw [hpush, List.mem_singleton, hobt, hledger] at hsc
  refine ⟨hsc, ?_⟩
  rw [hsc]
  constructor
  · intro heq
    -- reading the two numerals back
    have hread := congrArg intParse heq
    simp only [intParse_intToString, Option.some_inj] at hread
    omega
  · intro hone
    rw [hone]
    exact congrArg intToString (by omega)

end

/-- Three logos, and Start is pressed twice on the first frame.  The second handler takes away the
logo that the first one has dealt and gives a point for it; the next logo is solved. -/
theorem exists_run_pressed_twice :
    ∃ tr f, Run (step .ascii [logoPath, logoPath, logoPath]) {} tr f ∧
      f.session.quiz.inLoop = false ∧ f.session.quiz.pushed = [⟨['2'], ['3']⟩] := by
  have hexec : (exec (step .ascii [logoPath, logoPath, logoPath]) {}
      ([.event (.press (Quiz.onlyDraws 0)), .event (.press (Quiz.onlyDraws 0))] ++
        List.replicate 3 (.event (.resume 0 (Quiz.onlyDraws 0))) ++
        List.replicate 3 (.event (.resume 0 (Quiz.onlyDraws 1))) ++
        [.build, .event (.tap .r1 0 (Quiz.onlyDraws 2)), .event (.tick (Quiz.onlyDraws 0))])).map
        (fun f => (f.session.quiz.inLoop, f.session.quiz.pushed)) =
      some (false, [⟨['2'], ['3']⟩]) := by
    decide
  obtain ⟨tr, f, hrun, hfields, -⟩ := exists_run_of_exec hexec
  exact ⟨tr, f, hrun, (Prod.mk.inj hfields).1, (Prod.mk.inj hfields).2⟩

/-- A second after the press on Start. -/
theorem indicator_of_run_logoPath :
    ∃ tr f, Run (step .ascii [logoPath, logoPath]) {} tr f ∧ f.built.timeinmin = 29 ∧
      f.built.percent ≤ 1 := by
  have hexec : (exec (step .ascii [logoPath, logoPath]) {}
      (.event (.press (Quiz.onlyDraws 0)) ::
        List.replicate 3 (.event (.resume 0 (Quiz.onlyDraws 0))) ++
        [.event (.tick (Quiz.onlyDraws 0)), .build])).map (fun f => f.built.timeinmin) =
      some 29 := by
    decide
  obtain ⟨tr, f, hrun, htime, -⟩ := exists_run_of_exec hexec
  exact ⟨tr, f, hrun, htime, (indicator_of_run hrun).2.1⟩

theorem one_result_logoPath :
    ∃ tr f, Run (step .ascii [logoPath, logoPath, logoPath]) {} tr f ∧
      f.session.quiz.pushed = [⟨['2'], ['3']⟩] ∧ f.session.quiz.pushed.length ≤ 1 := by
  obtain ⟨tr, f, hrun, -, hpushed⟩ := exists_run_pressed_twice
  exact ⟨tr, f, hrun, hpushed, (one_result hrun).2.2.2.1⟩

theorem score_eq_logoPath :
    ∃ tr f, Run (step .ascii [logoPath, logoPath, logoPath]) {} tr f ∧
      f.session.quiz.pushed = [⟨['2'], ['3']⟩] ∧
      f.session.quiz.obtScore + 1 = carriedIn tr + (solvedIn tr).length := by
  obtain ⟨tr, f, hrun, -, hpushed⟩ := exists_run_pressed_twice
  exact ⟨tr, f, hrun, hpushed, (score_eq (by simpa using wellFormed_logoPath) hrun).2⟩

/-- Two presses and one solved logo: the result is `2`. -/
theorem result_counts_solved_iff_logoPath :
    ∃ tr f, Run (step .ascii [logoPath, logoPath, logoPath]) {} tr f ∧
      f.session.quiz.pushed = [⟨['2'], ['3']⟩] ∧
      (['2'] = intToString (solvedIn tr).length ↔ carriedIn tr = 1) := by
  obtain ⟨tr, f, hrun, hi, hpushed⟩ := exists_run_pressed_twice
  have hsc : ⟨['2'], ['3']⟩ ∈ f.session.quiz.pushed := by simp [hpushed]
  exact ⟨tr, f, hrun, hpushed,
    (result_counts_solved_iff (by simpa using wellFormed_logoPath) hrun hi hsc).2⟩

end Frame

end LogoGuess
