/-
**The invariant of the quiz, whatever the paths look like.**

Between two events a started quiz satisfies `LogoGuess.Quiz.Core`: the indices drawn so far are
pairwise distinct, `count` and `loop_count` keep up with them as far as they can, exactly one timer
is live until the screen is left, and nothing is left to tap once the game is over.  Nothing is
assumed about the paths, so a call of `task` may throw at any time; what a throw breaks is the
relation between `loop_count` and the number of draws, which `LogoGuess.Quiz.Core` leaves open and
`Start`-to-end runs without throws repair in `LogoGuess.QuizDraw`.

Main definitions:

* `LogoGuess.Quiz.Called` — what holds whenever `task` is called;
* `LogoGuess.Quiz.Core` — what holds between two events;
* `LogoGuess.Quiz.Clock` — once the game is over, the next tick counts down.

Main results:

* `LogoGuess.Quiz.Called.core` — `task` leads from the one to the other;
* `LogoGuess.Quiz.Core.called_credited`, `LogoGuess.Quiz.Core.called_expired`,
  `LogoGuess.Quiz.called_started` — the three ways to a call of `task`;
* `LogoGuess.Quiz.core_of_play` — **the invariant holds in every state of every run**;
* `LogoGuess.Quiz.single_timer` — what it says about the timers.
-/

import LogoGuess.QuizStep

set_option relaxedAutoImplicit false
set_option autoImplicit false

namespace LogoGuess

namespace Quiz

open Dart EventLoop Guessing

/-- **What holds whenever `task` is called.** -/
structure Called (names : List Str) (s : Quiz) : Prop where
  started : s.start = .next
  images : s.images = names
  total : s.totalScore = names.length
  mounted : s.mounted = true
  nodup : s.repeated.Nodup
  lt : ∀ k ∈ s.repeated, k < names.length
  live : ∃ t, s.timer = some t ∧ s.timers = [t]
  pushed : s.pushed = []
  ended : s.ended = false
  inLoop : s.inLoop = false
  calls : s.calls.length = s.repeated.length
  callsOpen : ∀ c ∈ s.calls, c.ended = false
  count : s.count = s.repeated.length
  loop : s.loopCount ≤ s.count ∧ s.loopCount ≤ names.length - 1

/-- **What holds between two events of a started quiz.** -/
structure Core (names : List Str) (s : Quiz) : Prop where
  started : s.start = .next
  images : s.images = names
  total : s.totalScore = names.length
  mounted : s.mounted = true
  hidden : s.visible = false
  nodup : s.repeated.Nodup
  lt : ∀ k ∈ s.repeated, k < names.length
  len : s.text.length = s.correct.length
  timer : s.timer.isSome
  /-- Until the screen is left, one timer is live and it is the one in `_timer`. -/
  live : s.pushed = [] → ∃ t, s.timer = some t ∧ s.timers = [t]
  /-- The screen is left at most once, at the end, and then no timer is live. -/
  gone : s.pushed ≠ [] → s.ended = true ∧ s.timers = [] ∧
    s.pushed = [⟨intToString s.obtScore, intToString s.totalScore⟩]
  /-- When the game is over there is nothing left to tap. -/
  finished : s.ended = true → s.r1 = [] ∧ s.r2 = [] ∧ s.r3 = [] ∧ s.inLoop = false
  calls : s.calls.length = s.repeated.length + if s.inLoop then 1 else 0
  callsOpen : ∀ c ∈ s.calls, c.ended = false
  count : s.count + (if s.ended then 1 else 0) = s.repeated.length
  loop : s.loopCount ≤ s.count ∧ s.loopCount ≤ names.length - 1

/-- Once the game is over and until the screen is left, the next tick counts down: it does not call
`task` again. -/
def Clock (s : Quiz) : Prop := s.ended = true → s.pushed = [] → 0 < s.timeinmin

section

variable {U : CaseMap} {names : List Str} {s s' : Quiz}

/-! ### From a call of `task` to its end -/

/-- Drawing an index that has not been drawn before. -/
theorem Called.draw (h : Called names s) {rnd : Rand} {k : ℕ} (hk : Fresh rnd s k) :
    (s.repeated ++ [k]).Nodup ∧ ∀ x ∈ s.repeated ++ [k], x < names.length := by
  refine ⟨List.concat_eq_append ▸ h.nodup.concat hk.new, ?_⟩
  intro x hx
  rcases List.mem_append.1 hx with hx | hx
  · exact h.lt x hx
  · rw [List.mem_singleton.1 hx, ← h.images]
    exact hk.lt

/-- The log of the calls after one more call. -/
theorem Called.log (h : Called names s) :
    ∀ c ∈ s.calls ++ [⟨s.repeated, s.ended⟩], c.ended = false := by
  intro c hc
  rcases List.mem_append.1 hc with hc | hc
  · exact h.callsOpen c hc
  · rw [List.mem_singleton.1 hc]
    exact h.ended

/-- **A call of `task` re-establishes the invariant**, also when it is cut short. -/
theorem Called.core (h : Called names s) {rnd : Rand} {o : Outcome Cut Quiz}
    (hr : TaskResult U rnd s o) : Core names o.state := by
  have htimer : s.timer.isSome := by
    obtain ⟨t, ht, -⟩ := h.live
    rw [ht]
    rfl
  have hpushed : ∀ {P : Prop}, s.pushed ≠ [] → P := fun hp => absurd h.pushed hp
  have hended : ∀ {P : Prop}, s.ended = true → P := fun he => absurd he (by simp [h.ended])
  have hcount := h.count
  have hcalls := h.calls
  have hloop := h.loop
  have hended' := h.ended
  have hinloop := h.inLoop
  cases hr with
  | drawing hall =>
      exact
        { started := h.started, images := h.images, total := h.total, mounted := h.mounted
          hidden := rfl, nodup := h.nodup, lt := h.lt, len := rfl, timer := htimer
          live := fun _ => h.live, gone := hpushed, finished := hended
          calls := by simp [clear, hcalls]
          callsOpen := h.log
          count := by simp [clear, hended', hcount]
          loop := hloop }
  | unread hk hlt hp ht =>
      exact
        { started := h.started, images := h.images, total := h.total, mounted := h.mounted
          hidden := rfl, nodup := (h.draw hk).1, lt := (h.draw hk).2, len := rfl
          timer := htimer, live := fun _ => h.live, gone := hpushed, finished := hended
          calls := by simp [picked, drawn, clear, hcalls, hinloop]
          callsOpen := h.log
          count := by simp [picked, drawn, clear, hended', hcount]
          loop := by
            change s.loopCount ≤ s.count + 1 ∧ s.loopCount ≤ names.length - 1
            omega }
  | misfit hk hlt hp ht hlen =>
      exact
        { started := h.started, images := h.images, total := h.total, mounted := h.mounted
          hidden := rfl, nodup := (h.draw hk).1, lt := (h.draw hk).2
          len := by simp [spelled]
          timer := htimer, live := fun _ => h.live, gone := hpushed, finished := hended
          calls := by simp [spelled, picked, drawn, clear, hcalls, hinloop]
          callsOpen := h.log
          count := by simp [spelled, picked, drawn, clear, hended', hcount]
          loop := by
            change s.loopCount ≤ s.count + 1 ∧ s.loopCount ≤ names.length - 1
            omega }
  | dealt hk hlt hp ht hlen =>
      exact
        { started := h.started, images := h.images, total := h.total, mounted := h.mounted
          hidden := rfl, nodup := (h.draw hk).1, lt := (h.draw hk).2
          len := by simp [dealt, spelled]
          timer := htimer, live := fun _ => h.live, gone := hpushed, finished := hended
          calls := by simp [dealt, spelled, picked, drawn, clear, hcalls, hinloop]
          callsOpen := h.log
          count := by simp [dealt, spelled, picked, drawn, clear, hended', hcount]
          loop := by
            have hlt' : s.loopCount < names.length - 1 := h.images ▸ hlt
            change s.loopCount + 1 ≤ s.count + 1 ∧ s.loopCount + 1 ≤ names.length - 1
            omega }
  | ending hk hlt =>
      exact
        { started := h.started, images := h.images, total := h.total, mounted := h.mounted
          hidden := rfl, nodup := (h.draw hk).1, lt := (h.draw hk).2, len := rfl
          timer := htimer, live := fun _ => h.live, gone := hpushed
          finished := fun _ => ⟨rfl, rfl, rfl, hinloop⟩
          calls := by simp [drawn, clear, hcalls, hinloop]
          callsOpen := h.log
          count := by simp [drawn, clear, hcount]
          loop := hloop }

/-! ### The ways to a call of `task` -/

/-- Until the game is over the screen has not been left. -/
theorem Core.pushed_nil (h : Core names s) (he : s.ended = false) : s.pushed = [] := by
  by_contra hp
  rw [(h.gone hp).1] at he
  exact absurd he (by simp)

/-- A live timer means that the screen has not been left. -/
theorem Core.pushed_nil_of_live (h : Core names s) (hl : s.timers ≠ []) : s.pushed = [] := by
  by_contra hp
  exact hl (h.gone hp).2.1

/-- Until the game is over a timer is live. -/
theorem Core.timers_ne_nil (h : Core names s) (he : s.ended = false) : s.timers ≠ [] := by
  obtain ⟨t, -, hts⟩ := h.live (h.pushed_nil he)
  simp [hts]

/-- Start is pressed on a fresh screen. -/
theorem called_started (names : List Str) : Called names (({} : Quiz).begun names) where
  started := rfl
  images := rfl
  total := rfl
  mounted := rfl
  nodup := List.nodup_nil
  lt _ hk := absurd hk List.not_mem_nil
  live := ⟨0, rfl, rfl⟩
  pushed := rfl
  ended := rfl
  inLoop := rfl
  calls := rfl
  callsOpen _ hc := absurd hc List.not_mem_nil
  count := rfl
  loop := ⟨Nat.le_refl 0, Nat.zero_le _⟩

/-- A logo is solved. -/
theorem Core.called_credited (h : Core names s) (he : s.ended = false) (hi : s.inLoop = false) :
    Called names s.credited := by
  obtain ⟨t, ht, hts⟩ := h.live (h.pushed_nil he)
  -- the old timer is cancelled, so the new one is the only one left
  have hone : s.credited.timers = [s.created] := by
    simp [credited, cancelled, ht, hts]
  have hcount := h.count
  have hcalls := h.calls
  rw [he] at hcount
  rw [hi] at hcalls
  exact
    { started := rfl, images := h.images, total := h.total, mounted := h.mounted, nodup := h.nodup
      lt := h.lt, live := ⟨s.created, rfl, hone⟩, pushed := h.pushed_nil he
      ended := he, inLoop := hi, calls := hcalls, callsOpen := h.callsOpen, count := hcount
      loop := h.loop }

/-- The time of a logo is used up. -/
theorem Core.called_expired (h : Core names s) (hc : Clock s) (hl : s.timers ≠ [])
    (ht : s.timeinmin = 0) (hi : s.inLoop = false) : Called names { s with loaded := false } := by
  have hp : s.pushed = [] := h.pushed_nil_of_live hl
  have he : s.ended = false := by
    by_contra he
    have := hc (by simpa using he) hp
    omega
  have hcount := h.count
  have hcalls := h.calls
  rw [he] at hcount
  rw [hi] at hcalls
  exact
    { started := h.started, images := h.images, total := h.total, mounted := h.mounted
      nodup := h.nodup, lt := h.lt, live := h.live hp, pushed := hp, ended := he, inLoop := hi
      calls := hcalls, callsOpen := h.callsOpen, count := hcount, loop := h.loop }

/-! ### The other effects -/

theorem Core.idle (h : Core names s) : Core names { s with j := [] } := { h with }

theorem Core.played (h : Core names s) (he : s.ended = false) (c : Str) (ρ : Row) :
    Core names (s.played c ρ) :=
  { h with
    len := length_reveal h.len
    finished := fun ho => absurd ho (by simp [Quiz.played, he]) }

theorem Core.counted (h : Core names s) : Core names s.counted := { h with }

theorem Core.reset (h : Core names s) : Core names { s with timeinmin := 30 } := { h with }

theorem Core.left (h : Core names s) (he : s.ended = true) (hp : s.pushed = []) :
    Core names s.left := by
  obtain ⟨t, ht, hts⟩ := h.live hp
  have hnone : s.left.timers = [] := by
    simp [Quiz.left, cancelled, ht, hts]
  have hpushed : s.left.pushed = [⟨intToString s.obtScore, intToString s.totalScore⟩] := by
    simp [Quiz.left, hp]
  exact
    { h with
      live := fun hp' => absurd (hpushed.symm.trans hp') (by simp)
      gone := fun _ => ⟨he, hnone, hpushed⟩ }

/-- A card is there to be tapped only while the game is not over. -/
theorem Core.ended_of_card (h : Core names s) {ρ : Row} {i : ℕ} {c : Str}
    (hc : (s.row ρ)[i]? = some c) : s.ended = false := by
  by_contra he
  obtain ⟨h1, h2, h3, -⟩ := h.finished (by simpa using he)
  cases ρ <;> simp [row, h1, h2, h3] at hc

theorem TaskResult.ended_of_stop {rnd : Rand} {e : Cut}
    (h : TaskResult U rnd s (.stop e s')) : s'.ended = s.ended := by
  cases h <;> rfl

/-- After a call of `task` with time on the clock the next tick counts down. -/
theorem TaskResult.clock {rnd : Rand} {o : Outcome Cut Quiz} (h : TaskResult U rnd s o)
    (ht : 0 < s.timeinmin) : Clock o.state := by
  intro _ _
  rw [h.framed.timeinmin]
  exact ht

/-! ### Every run -/

/-- **Every effect keeps the invariant.** -/
theorem Effect.core {e : Event} (h : Core names s) (hc : Clock s) (hi : s.inLoop = false)
    (he : Effect U names s e s') : Core names s' ∧ Clock s' := by
  cases he with
  | start hstart _ => exact absurd (hstart.symm.trans h.started) (by simp)
  | idle _ => exact ⟨h.idle, hc⟩
  | @hit ρ _ _ c hcard _ _ =>
      have hend := h.ended_of_card hcard
      exact ⟨h.played hend c ρ, fun ho => absurd ho (by simp [Quiz.played, hend])⟩
  | @solved ρ _ _ c _ hcard _ _ hr =>
      have hend := h.ended_of_card hcard
      have hp : Core names (s.played c ρ) := h.played hend c ρ
      exact ⟨(hp.called_credited hend hi).core hr, hr.clock (Nat.succ_pos 29)⟩
  | @gift _ _ c _ hcard _ _ hr =>
      have hcard' : (s.row .r1)[_]? = some c := hcard
      have hend := h.ended_of_card hcard'
      exact ⟨(h.idle.called_credited hend hi).core hr, hr.clock (Nat.succ_pos 29)⟩
  | count _ _ hend => exact ⟨h.counted, fun ho => absurd (hend.symm.trans ho) (by simp)⟩
  | finish hl _ hend =>
      refine ⟨h.counted.left hend (h.pushed_nil_of_live hl), ?_⟩
      intro _ hp
      exact absurd hp (by simp [Quiz.left])
  | expireCut hl ht hr =>
      have hcalled := h.called_expired hc hl ht hi
      refine ⟨hcalled.core hr, ?_⟩
      intro ho
      rw [hr.ended_of_stop] at ho
      exact absurd (hcalled.ended.symm.trans ho) (by simp)
  | expire hl ht hr hend =>
      exact ⟨((h.called_expired hc hl ht hi).core hr).reset, fun _ _ => Nat.succ_pos 29⟩
  | @expireEnd _ s₁ hl ht hr hend =>
      have hcalled := h.called_expired hc hl ht hi
      have hcore : Core names s₁ := hcalled.core hr
      have hp : s₁.pushed = [] := hr.framed.pushed.trans hcalled.pushed
      refine ⟨hcore.reset.left hend hp, ?_⟩
      intro _ hp'
      exact absurd hp' (by simp [Quiz.left])

/-- The events that a fresh screen and a started quiz can see have one of the listed effects. -/
theorem effect_of_step {e : Event} (hn : 0 < names.length) (h : s = {} ∨ Core names s)
    (hs : step U names s e = some s') : Effect U names s e s' := by
  rcases h with rfl | h
  · exact step_effect hn rfl (by simp) (by simp) hs
  · exact step_effect hn h.mounted (fun _ => ⟨h.images, h.timer, h.len⟩) (fun _ => h.started) hs

/-- **With time on the clock a tick counts down**, until the game is over. -/
theorem Core.step_tick (hn : 0 < names.length) (h : Core names s) (he : s.ended = false)
    (hi : s.inLoop = false) (hpos : 0 < s.timeinmin) (rnd : Rand) :
    step U names s (.tick rnd) = some s.counted := by
  have hstep : step U names s (.tick rnd) = some (tick U rnd s).state :=
    if_pos ⟨hi, h.timers_ne_nil he⟩
  rw [hstep]
  generalize (tick U rnd s).state = s' at hstep
  cases effect_of_step hn (Or.inr h) hstep with
  | count => rfl
  | finish _ _ hend => exact absurd (he.symm.trans hend) (by simp)
  | expireCut _ ht _ => omega
  | expire _ ht _ _ => omega
  | expireEnd _ ht _ _ => omega

/-- The first event of a run presses Start. -/
theorem start_of_fresh {e : Event} (hn : 0 < names.length) (hs : step U names {} e = some s') :
    ∃ rnd o, e = .start rnd ∧ s' = o.state ∧
      TaskResult U rnd (({} : Quiz).begun names) o := by
  cases e with
  | start rnd =>
      have he := effect_of_step hn (Or.inl rfl) hs
      cases he with
      | @start _ o _ hr => exact ⟨rnd, o, rfl, rfl, hr⟩
  | tap ρ i rnd => simp [step] at hs
  | tick rnd => simp [step] at hs

/-- **The invariant holds in every state of every run**, from the press on Start on. -/
theorem core_of_play (hn : 0 < names.length) {tr : List (Move Quiz Event)}
    (h : Play U names tr s) : (tr = [] ∧ s = {}) ∨ (tr ≠ [] ∧ Core names s ∧ Clock s) := by
  refine Run.invariant (I := fun tr s => (tr = [] ∧ s = {}) ∨ (tr ≠ [] ∧ Core names s ∧ Clock s))
    (Or.inl ⟨rfl, rfl⟩) ?_ h
  rintro tr s e s' - (⟨-, rfl⟩ | ⟨-, hcore, hclock⟩) hs
  · obtain ⟨rnd, o, -, rfl, hr⟩ := start_of_fresh hn hs
    exact Or.inr ⟨by simp, (called_started names).core hr, hr.clock (Nat.succ_pos 29)⟩
  · have he := effect_of_step hn (Or.inr hcore) hs
    exact Or.inr ⟨by simp, Effect.core hcore hclock (inLoop_of_step hs) he⟩

/-! ### The timers -/

/-- **The timers of a game.**  At most one timer is live, and it is the one in `_timer`; from the
press on Start until the screen is left exactly one is; the screen is left at most once, and then
no timer is live. -/
theorem single_timer (hn : 1 ≤ names.length) {tr : List (Move Quiz Event)}
    (h : Play U names tr s) :
    s.timers.length ≤ 1 ∧ (∀ t ∈ s.timers, s.timer = some t) ∧
      (tr ≠ [] → s.pushed = [] → s.timers.length = 1) ∧
      s.pushed.length ≤ 1 ∧ (s.pushed ≠ [] → s.timers = []) := by
  rcases core_of_play hn h with ⟨rfl, rfl⟩ | ⟨-, hcore, -⟩
  · exact ⟨Nat.zero_le 1, by simp, by simp, Nat.zero_le 1, by simp⟩
  · by_cases hp : s.pushed = []
    · obtain ⟨t, ht, hts⟩ := hcore.live hp
      have hone : s.timers.length = 1 := by rw [hts, List.length_singleton]
      refine ⟨hone.le, ?_, fun _ _ => hone, by simp [hp], fun hne => absurd hp hne⟩
      intro u hu
      rw [hts] at hu
      rw [ht, List.mem_singleton.1 hu]
    · obtain ⟨-, hts, hpush⟩ := hcore.gone hp
      refine ⟨by simp [hts], by simp [hts], fun _ hnil => absurd hnil hp, ?_, fun _ => hts⟩
      rw [hpush, List.length_singleton]

/-- A directory and a logo: the press on Start is cut short, and its timer stays live. -/
theorem single_timer_folderPath :
    ∃ tr s, Play .ascii [folderPath, logoPath] tr s ∧ s.correct = [] ∧ s.timers.length = 1 := by
  have hexec : (exec (step .ascii [folderPath, logoPath]) {} [.start (onlyDraws 0)]).map
      (fun s => (s.correct, s.pushed)) = some ([], []) := by
    decide
  obtain ⟨tr, s, hrun, hfields, hev⟩ := exists_run_of_exec hexec
  obtain ⟨hcorrect, hpushed⟩ := Prod.mk.inj hfields
  have hne : tr ≠ [] := by
    rintro rfl
    exact absurd hev (by simp)
  exact ⟨tr, s, hrun, hcorrect, (single_timer (by decide) hrun).2.2.1 hne hpushed⟩

end

end Quiz

end LogoGuess
