/-
**What an event does to the quiz.**

The handlers of `LogoGuess.Quiz` are put in closed form: a tap is without effect, shows a letter,
or solves the logo; a tick counts down, leaves the screen, or calls `task`.  The inductive relation
`LogoGuess.Quiz.Effect` lists these possibilities with the states they lead to, and
`LogoGuess.Quiz.step_effect` says that there are no others.  All invariants of the game are proved
by going through this list.

Main definitions:

* `LogoGuess.Quiz.begun`, `LogoGuess.Quiz.played`, `LogoGuess.Quiz.credited`,
  `LogoGuess.Quiz.counted`, `LogoGuess.Quiz.left` — the states after Start has been pressed, after
  a letter has been shown, after a point has been given, after a second has been counted down and
  after the screen has been left;
* `LogoGuess.Quiz.act` — what the handler of a card does with its letter;
* `LogoGuess.Quiz.Effect` — the possible effects of an event.

Main results:

* `LogoGuess.Quiz.write_positions` — **the two loops of a card handler** show the letter at all
  its positions;
* `LogoGuess.Quiz.onTap_eq_act` — a tap acts as the letter at its position;
* `LogoGuess.Quiz.step_effect` — **every event of a run has one of the listed effects**.
-/

import LogoGuess.QuizTask
import LogoGuess.Guessing

set_option relaxedAutoImplicit false
set_option autoImplicit false

namespace LogoGuess

namespace Quiz

open Dart EventLoop Guessing

/-! ### The loops of a card handler -/

theorem positions_append (c : Str) (x : ℕ) (w : List Str) (j : List ℕ) :
    positions c x w j = j ++ positions c x w [] := by
  induction w generalizing x j with
  | nil => simp [positions]
  | cons a w ih =>
      by_cases h : a = c
      · rw [positions, positions, if_pos h, if_pos h, ih (x + 1) (j ++ [x]), ih (x + 1) ([] ++ [x]),
          List.nil_append, List.append_assoc]
      · rw [positions, positions, if_neg h, if_neg h, ih (x + 1) j]

/-- The two loops, from the position `x` of the answer on: `u` is the part of the text that has
been passed and `t` the part that is still ahead. -/
theorem write_positions_from (c : Str) (w : List Str) (x : ℕ) (u t : List Str) (s : Quiz)
    (hu : u.length = x) (ht : t.length = w.length) (hs : s.text = u ++ t) :
    write c (positions c x w []) s = .done { s with text := u ++ reveal c w t } := by
  induction w generalizing x u t s with
  | nil =>
      obtain rfl : t = [] := List.length_eq_zero_iff.1 ht
      rw [positions, write, reveal, List.zipWith_nil_left, ← hs]
  | cons a w ih =>
      cases t with
      | nil => simp at ht
      | cons b t =>
          have ht' : t.length = w.length := by simpa using ht
          by_cases h : a = c
          · have hpos : positions c x (a :: w) [] = x :: positions c (x + 1) w [] := by
              rw [positions, if_pos h, positions_append]
              rfl
            have hlt : x < s.text.length := by
              rw [hs, List.length_append, List.length_cons]
              omega
            have hset : s.text.set x c = (u ++ [c]) ++ t := by
              rw [hs, ← hu, List.set_append_right _ _ (le_refl _)]
              simp
            rw [hpos, write, if_pos hlt, ih (x + 1) (u ++ [c]) t _ (by simp [hu]) ht' hset]
            simp [reveal, h]
          · have hpos : positions c x (a :: w) [] = positions c (x + 1) w [] := by
              rw [positions, if_neg h]
            rw [hpos, ih (x + 1) (u ++ [b]) t _ (by simp [hu]) ht' (by simp [hs])]
            simp [reveal, h]

/-- **The two loops of a card handler** show the letter at all its positions. -/
theorem write_positions (c : Str) (s : Quiz) (h : s.text.length = s.correct.length) :
    write c (positions c 0 s.correct []) s =
      .done { s with text := reveal c s.correct s.text } :=
  write_positions_from c s.correct 0 [] s.text s rfl h rfl

/-! ### The states that the handlers lead to -/

/-- The letter `c` has been shown and its card taken from the row. -/
def played (s : Quiz) (c : Str) (ρ : Row) : Quiz :=
  { s with
    j := positions c 0 s.correct []
    text := reveal c s.correct s.text
    r1 := if ρ = .r1 then s.r1.erase c else s.r1
    r2 := if ρ = .r2 then s.r2.erase c else s.r2
    r3 := if ρ = .r3 then s.r3.erase c else s.r3 }

/-- The timer in `_timer` has been cancelled. -/
def cancelled (s : Quiz) : Quiz := { s with timers := s.timers.filter fun t => s.timer ≠ some t }

/-- Start has been pressed and the paths loaded; `task` is called next. -/
def begun (s : Quiz) (names : List Str) : Quiz :=
  { s with
    images := names
    totalScore := names.length
    start := .next
    loaded := false
    timerVisible := true
    obtScore := s.obtScore + 1
    timeinmin := 30
    timer := some s.created
    timers := s.timers ++ [s.created]
    created := s.created + 1 }

/-- A point has been given and a new timer runs; `task` is called next. -/
def credited (s : Quiz) : Quiz :=
  { s with
    visible := true
    start := .next
    loaded := false
    timerVisible := true
    obtScore := s.obtScore + 1
    timeinmin := 30
    timer := some s.created
    timers := s.cancelled.timers ++ [s.created]
    created := s.created + 1 }

/-- A second has been counted down. -/
def counted (s : Quiz) : Quiz :=
  { s with
    percent := ((s.timeinmin : ℚ) - 1) * (33333 / 10000) / 100
    timeinmin := s.timeinmin - 1 }

/-- The screen has been left with the score. -/
def left (s : Quiz) : Quiz :=
  { s.cancelled with
    pushed := s.pushed ++ [⟨intToString s.obtScore, intToString s.totalScore⟩] }

theorem setState_of_mounted {body : Quiz → Outcome Cut Quiz} {s : Quiz} (h : s.mounted = true) :
    setState body s = body s := by
  rw [setState, if_pos h]

theorem advance_of_mounted {s : Quiz} (h : s.mounted = true) :
    s.advance =
      { s with
        start := .next
        loaded := false
        timerVisible := true
        obtScore := s.obtScore + 1
        timeinmin := 30
        timer := some s.created
        timers := s.timers ++ [s.created]
        created := s.created + 1 } := by
  rw [advance, getstart]
  exact if_pos h

theorem cancel_of_isSome {s : Quiz} (h : s.timer.isSome) : s.cancel = .done s.cancelled := by
  obtain ⟨t, ht⟩ := Option.isSome_iff_exists.1 h
  have hfilter : s.timers.filter (fun u => decide (s.timer ≠ some u)) =
      s.timers.filter (fun u => decide (u ≠ t)) := by
    refine List.filter_congr ?_
    intro u _
    simp [ht, eq_comm]
  rw [cancelled, hfilter, cancel]
  simp only [ht]

theorem play_eq {s : Quiz} (c : Str) (ρ : Row) (h : s.text.length = s.correct.length) :
    play c ρ { s with j := [] } = .done (s.played c ρ) := by
  have hw := write_positions c { s with j := positions c 0 s.correct [] } h
  rw [play]
  simp only [hw, Outcome.done_bind]
  cases ρ <;> rfl

theorem complete_of_ne {s : Quiz} (U : CaseMap) (rnd : Rand) (h : s.correct ≠ s.text) :
    complete U rnd s = .done s := by
  rw [complete, if_neg h]

theorem complete_of_eq {s : Quiz} (U : CaseMap) (rnd : Rand) (hm : s.mounted = true)
    (ht : s.timer.isSome) (h : s.correct = s.text) :
    complete U rnd s = task U rnd s.credited := by
  have hc : cancel { s with visible := true } = .done { s with visible := true }.cancelled :=
    cancel_of_isSome ht
  have hm' : { s with visible := true }.cancelled.mounted = true := hm
  rw [complete, if_pos h, solve, hc, Outcome.done_bind, advance_of_mounted hm']
  rfl

/-- **What the handler of a row does with a card that shows the letter `c`**, on a mounted screen.
Only the handler of the first row tests whether the text is complete when `c` does not occur. -/
def act (U : CaseMap) (rnd : Rand) (ρ : Row) (c : Str) (s : Quiz) : Outcome Cut Quiz :=
  if c ∈ s.correct then complete U rnd (s.played c ρ)
  else if ρ = .r1 then complete U rnd { s with j := [] }
  else .done { s with j := [] }

/-- **A tap acts as the letter at its position.** -/
theorem onTap_eq_act {s : Quiz} (U : CaseMap) (rnd : Rand) (hm : s.mounted = true)
    (hlen : s.text.length = s.correct.length) {ρ : Row} {i : ℕ} {c : Str}
    (hc : (s.row ρ)[i]? = some c) : onTap U rnd ρ i s = act U rnd ρ c s := by
  have hr : ({ s with j := [] } : Quiz).row ρ = s.row ρ := by cases ρ <;> rfl
  -- the second and the third row are handled by the same code
  have hrow : ρ ≠ .r1 → onTapRow ρ U rnd i s = act U rnd ρ c s := by
    intro hρ
    rw [onTapRow, setState_of_mounted hm, act, if_neg hρ]
    simp only [hr, hc, play_eq c ρ hlen, Outcome.done_bind]
  cases ρ with
  | r2 => exact hrow (by simp)
  | r3 => exact hrow (by simp)
  | r1 =>
      have hc' : s.r1[i]? = some c := hc
      change onTapR1 U rnd i s = _
      rw [onTapR1, setState_of_mounted hm, act, if_pos rfl]
      simp only [hc', play_eq c .r1 hlen]
      by_cases hmem : c ∈ s.correct
      · rw [if_pos hmem, if_pos hmem, Outcome.done_bind]
      · rw [if_neg hmem, if_neg hmem, Outcome.done_bind]

/-- A tap beyond the end of the row throws. -/
theorem onTap_of_none {s : Quiz} (U : CaseMap) (rnd : Rand) (hm : s.mounted = true) {ρ : Row}
    {i : ℕ} (hc : (s.row ρ)[i]? = none) :
    onTap U rnd ρ i s = .stop .rangeError { s with j := [] } := by
  cases ρ with
  | r1 =>
      have hc' : s.r1[i]? = none := hc
      change onTapR1 U rnd i s = _
      rw [onTapR1, setState_of_mounted hm]
      simp only [hc']
  | r2 =>
      have hc' : s.r2[i]? = none := hc
      change onTapRow .r2 U rnd i s = _
      rw [onTapRow, setState_of_mounted hm]
      simp only [row, hc']
  | r3 =>
      have hc' : s.r3[i]? = none := hc
      change onTapRow .r3 U rnd i s = _
      rw [onTapRow, setState_of_mounted hm]
      simp only [row, hc']

theorem leave_of_ended {s : Quiz} (he : s.ended = true) (h : s.timer.isSome) :
    leave s = .done s.left := by
  rw [leave, if_pos he, cancel_of_isSome h]
  rfl

theorem leave_of_not_ended {s : Quiz} (he : s.ended = false) : leave s = .done s := by
  rw [leave, if_neg (by simp [he])]

/-! ### What a call of `task` leaves alone -/

/-- The fields that `task` does not write. -/
structure Framed (s s' : Quiz) : Prop where
  start : s'.start = s.start
  images : s'.images = s.images
  totalScore : s'.totalScore = s.totalScore
  obtScore : s'.obtScore = s.obtScore
  timeinmin : s'.timeinmin = s.timeinmin
  timer : s'.timer = s.timer
  timers : s'.timers = s.timers
  pushed : s'.pushed = s.pushed
  mounted : s'.mounted = s.mounted
  visible : s'.visible = false
  calls : s'.calls = s.calls ++ [⟨s.repeated, s.ended⟩]

theorem TaskResult.framed {U : CaseMap} {rnd : Rand} {s : Quiz} {o : Outcome Cut Quiz}
    (h : TaskResult U rnd s o) : Framed s o.state := by
  cases h <;> exact ⟨rfl, rfl, rfl, rfl, rfl, rfl, rfl, rfl, rfl, rfl, rfl⟩

/-- **What `task` leaves alone**, also when there are no paths. -/
theorem task_framed (U : CaseMap) (rnd : Rand) (s : Quiz) : Framed s (task U rnd s).state := by
  by_cases hn : 0 < s.images.length
  · exact (taskResult U rnd hn).framed
  · rw [task_of_empty U rnd hn]
    exact ⟨rfl, rfl, rfl, rfl, rfl, rfl, rfl, rfl, rfl, rfl, rfl⟩

/-! ### The effects of an event -/

/-- **What an event can do to the quiz.** -/
inductive Effect (U : CaseMap) (names : List Str) (s : Quiz) : Event → Quiz → Prop where
  /-- Start is pressed. -/
  | start {rnd : Rand} {o : Outcome Cut Quiz} (hstart : s.start = .start)
      (h : TaskResult U rnd (s.begun names) o) : Effect U names s (.start rnd) o.state
  /-- A tap beyond the end of the row, or on a letter that does not occur. -/
  | idle {ρ : Row} {i : ℕ} {rnd : Rand}
      (h : (s.row ρ)[i]? = none ∨
        ∃ c, (s.row ρ)[i]? = some c ∧ c ∉ s.correct ∧ (ρ = .r1 → s.correct ≠ s.text)) :
      Effect U names s (.tap ρ i rnd) { s with j := [] }
  /-- A tap that shows a letter and leaves the logo unsolved. -/
  | hit {ρ : Row} {i : ℕ} {rnd : Rand} {c : Str} (hc : (s.row ρ)[i]? = some c)
      (hmem : c ∈ s.correct) (hopen : s.correct ≠ reveal c s.correct s.text) :
      Effect U names s (.tap ρ i rnd) (s.played c ρ)
  /-- A tap that solves the logo. -/
  | solved {ρ : Row} {i : ℕ} {rnd : Rand} {c : Str} {o : Outcome Cut Quiz}
      (hc : (s.row ρ)[i]? = some c) (hmem : c ∈ s.correct)
      (hall : s.correct = reveal c s.correct s.text)
      (h : TaskResult U rnd (s.played c ρ).credited o) : Effect U names s (.tap ρ i rnd) o.state
  /-- A tap in the first row on a letter that does not occur, when the text is complete. -/
  | gift {i : ℕ} {rnd : Rand} {c : Str} {o : Outcome Cut Quiz} (hc : s.r1[i]? = some c)
      (hmem : c ∉ s.correct) (hall : s.correct = s.text)
      (h : TaskResult U rnd { s with j := [] }.credited o) :
      Effect U names s (.tap .r1 i rnd) o.state
  /-- A tick that counts down. -/
  | count {rnd : Rand} (hlive : s.timers ≠ []) (ht : 0 < s.timeinmin) (he : s.ended = false) :
      Effect U names s (.tick rnd) s.counted
  /-- A tick that counts down and leaves the screen. -/
  | finish {rnd : Rand} (hlive : s.timers ≠ []) (ht : 0 < s.timeinmin) (he : s.ended = true) :
      Effect U names s (.tick rnd) s.counted.left
  /-- A tick that finds the time used up, and a call of `task` that is cut short. -/
  | expireCut {rnd : Rand} {e : Cut} {s' : Quiz} (hlive : s.timers ≠ []) (ht : s.timeinmin = 0)
      (h : TaskResult U rnd { s with loaded := false } (.stop e s')) :
      Effect U names s (.tick rnd) s'
  /-- A tick that finds the time used up and deals the next logo. -/
  | expire {rnd : Rand} {s' : Quiz} (hlive : s.timers ≠ []) (ht : s.timeinmin = 0)
      (h : TaskResult U rnd { s with loaded := false } (.done s')) (he : s'.ended = false) :
      Effect U names s (.tick rnd) { s' with timeinmin := 30 }
  /-- A tick that finds the time used up, ends the game and leaves the screen. -/
  | expireEnd {rnd : Rand} {s' : Quiz} (hlive : s.timers ≠ []) (ht : s.timeinmin = 0)
      (h : TaskResult U rnd { s with loaded := false } (.done s')) (he : s'.ended = true) :
      Effect U names s (.tick rnd) { s' with timeinmin := 30 }.left

/-- The effects of a tap on a started quiz. -/
theorem tap_effect {U : CaseMap} {names : List Str} {s : Quiz} (hn : 0 < s.images.length)
    (hm : s.mounted = true) (ht : s.timer.isSome) (hlen : s.text.length = s.correct.length)
    (ρ : Row) (i : ℕ) (rnd : Rand) :
    Effect U names s (.tap ρ i rnd) (onTap U rnd ρ i s).state := by
  cases hc : (s.row ρ)[i]? with
  | none =>
      rw [onTap_of_none U rnd hm hc]
      exact .idle (Or.inl hc)
  | some c =>
      rw [onTap_eq_act U rnd hm hlen hc, act]
      by_cases hmem : c ∈ s.correct
      · rw [if_pos hmem]
        by_cases hall : s.correct = reveal c s.correct s.text
        · rw [complete_of_eq (s := s.played c ρ) U rnd hm ht hall]
          exact .solved hc hmem hall (taskResult U rnd hn)
        · rw [complete_of_ne (s := s.played c ρ) U rnd hall]
          exact .hit hc hmem hall
      · rw [if_neg hmem]
        by_cases hρ : ρ = .r1
        · subst hρ
          rw [if_pos rfl]
          by_cases hall : s.correct = s.text
          · rw [complete_of_eq (s := { s with j := [] }) U rnd hm ht hall]
            exact .gift hc hmem hall (taskResult U rnd hn)
          · rw [complete_of_ne (s := { s with j := [] }) U rnd hall]
            exact .idle (Or.inr ⟨c, hc, hmem, fun _ => hall⟩)
        · rw [if_neg hρ]
          exact .idle (Or.inr ⟨c, hc, hmem, fun h => absurd h hρ⟩)

/-- The effects of a tick on a started quiz. -/
theorem tick_effect {U : CaseMap} {names : List Str} {s : Quiz} (hn : 0 < s.images.length)
    (hm : s.mounted = true) (ht : s.timer.isSome) (hlive : s.timers ≠ []) (rnd : Rand) :
    Effect U names s (.tick rnd) (tick U rnd s).state := by
  rw [tick, if_pos hm, setState_of_mounted hm, countdown]
  by_cases hpos : 0 < s.timeinmin
  · rw [if_pos hpos]
    change Effect U names s _ (setState leave s.counted).state
    rw [setState_of_mounted (s := s.counted) hm]
    cases he : s.ended with
    | false =>
        rw [leave_of_not_ended (s := s.counted) he]
        exact .count hlive hpos he
    | true =>
        rw [leave_of_ended (s := s.counted) he ht]
        exact .finish hlive hpos he
  · rw [if_neg hpos]
    have hzero : s.timeinmin = 0 := by omega
    have hres : TaskResult U rnd { s with loaded := false }
        (task U rnd { s with loaded := false }) := taskResult U rnd hn
    cases ho : task U rnd { s with loaded := false } with
    | stop e s' =>
        rw [ho] at hres
        exact .expireCut hlive hzero hres
    | done s' =>
        rw [ho] at hres
        have hfr : Framed { s with loaded := false } s' := hres.framed
        change Effect U names s _ (setState leave { s' with timeinmin := 30 }).state
        rw [setState_of_mounted (s := { s' with timeinmin := 30 }) (hfr.mounted.trans hm)]
        rcases Bool.eq_false_or_eq_true s'.ended with he | he
        · have ht' : s'.timer.isSome := by rw [hfr.timer]; exact ht
          rw [leave_of_ended (s := { s' with timeinmin := 30 }) he ht']
          exact .expireEnd hlive hzero hres he
        · rw [leave_of_not_ended (s := { s' with timeinmin := 30 }) he]
          exact .expire hlive hzero hres he

/-- The effect of pressing Start. -/
theorem start_effect {U : CaseMap} {names : List Str} {s : Quiz} (hn : 0 < names.length)
    (hm : s.mounted = true) (hs : s.start = .start) (rnd : Rand) :
    Effect U names s (.start rnd) (pressStart U names rnd s).state := by
  have hm' : (s.getImBegin.getImEnd names).mounted = true := hm
  have hne : ¬ (s.getImBegin.getImEnd names).start = .next := by
    change ¬ s.start = .next
    simp [hs]
  rw [pressStart, onPressed, setState_of_mounted hm']
  simp only [hne, if_false, Outcome.done_bind]
  rw [advance_of_mounted hm']
  exact .start hs (taskResult U rnd (s := s.begun names) hn)

/-- An event happens only outside the redraw loop. -/
theorem inLoop_of_step {U : CaseMap} {names : List Str} {s s' : Quiz} {e : Event}
    (h : step U names s e = some s') : s.inLoop = false := by
  cases e <;> exact (of_guard h).1.1

/-- **Every event has one of the listed effects**, as long as the widget is mounted and, once the
quiz is started, the list of paths, the timer and the text are in order. -/
theorem step_effect {U : CaseMap} {names : List Str} {s s' : Quiz} {e : Event}
    (hn : 0 < names.length) (hm : s.mounted = true)
    (hnext : s.start = .next →
      s.images = names ∧ s.timer.isSome ∧ s.text.length = s.correct.length)
    (hlive : s.timers ≠ [] → s.start = .next) (h : step U names s e = some s') :
    Effect U names s e s' := by
  cases e with
  | start rnd =>
      obtain ⟨⟨-, hs⟩, rfl⟩ := of_guard h
      exact start_effect hn hm hs rnd
  | tap ρ i rnd =>
      obtain ⟨⟨-, hs⟩, rfl⟩ := of_guard h
      obtain ⟨himg, ht, hlen⟩ := hnext hs
      exact tap_effect (himg ▸ hn) hm ht hlen ρ i rnd
  | tick rnd =>
      obtain ⟨⟨-, hs⟩, rfl⟩ := of_guard h
      obtain ⟨himg, ht, -⟩ := hnext (hlive hs)
      exact tick_effect (himg ▸ hn) hm ht hs rnd

end Quiz

end LogoGuess
