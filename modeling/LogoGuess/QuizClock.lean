/-
**The time limit of a logo.**

A logo comes on display with thirty seconds on the clock, whether Start, a solved logo or the timer
has dealt it.  The timer callback tests whether there is time left before it counts down, so the
thirtieth tick still finds a second on the clock, takes it away and leaves the logo where it is.
The logo is replaced by the thirty-first tick.

Main definitions:

* `LogoGuess.Quiz.ticksIn` — the number of ticks in a run;
* `LogoGuess.Quiz.OnDisplay`, `LogoGuess.Quiz.Gone` — a logo is on display, and it has been;
* `LogoGuess.Quiz.Ticking` — a logo is on display and the clock has counted the ticks;
* `LogoGuess.Quiz.OnTime` — a logo that is not solved is off the screen after thirty ticks.

Main results:

* `LogoGuess.Quiz.Effect.gone` — a logo that has gone does not come back;
* `LogoGuess.Quiz.Ticking.step` — what one move does to the clock of a logo;
* `LogoGuess.Quiz.never_onTime` — **no logo is taken off the screen in time**.
-/

import LogoGuess.QuizLogo

set_option relaxedAutoImplicit false
set_option autoImplicit false

namespace LogoGuess

namespace Quiz

open Dart EventLoop Guessing

/-! ### Ticks and logos -/

/-- Whether an event is a tick of the timer. -/
def Event.isTick : Event → Bool
  | .tick _ => true
  | _ => false

/-- **The number of ticks in a run.** -/
def ticksIn (tr : List (Move Quiz Event)) : ℕ := tr.countP fun m => m.event.isTick

/-- The logo at the index `k` is on display. -/
def OnDisplay (k : ℕ) (s : Quiz) : Prop :=
  s.picCount = k ∧ s.inLoop = false ∧ s.ended = false

/-- The logo at the index `k` has been drawn and is no longer on display. -/
def Gone (k : ℕ) (s : Quiz) : Prop := k ∈ s.repeated ∧ ¬ OnDisplay k s

/-- **The logo at the index `k` is on display and has seen `n` ticks.** -/
structure Ticking (k n : ℕ) (s : Quiz) : Prop where
  shown : OnDisplay k s
  drawn : k ∈ s.repeated
  correct : s.correct ≠ []
  time : s.timeinmin + n = 30

/-- **A logo dealt in `s₀` is off the screen after thirty ticks**, unless it has been solved. -/
def OnTime (U : CaseMap) (names : List Str) (k : ℕ) (s₀ : Quiz) : Prop :=
  ∀ tr s, Run (step U names) s₀ tr s → k ∉ solvedIn tr → ticksIn tr = 30 → ¬ OnDisplay k s

section

variable {U : CaseMap} {names : List Str} {s s' : Quiz} {rnd : Rand} {k n : ℕ}

theorem ticksIn_concat (tr : List (Move Quiz Event)) (m : Move Quiz Event) :
    ticksIn (tr ++ [m]) = ticksIn tr + if m.event.isTick = true then 1 else 0 := by
  rw [ticksIn, List.countP_append, List.countP_singleton]
  rfl

/-! ### A logo that has gone -/

/-- A call of `task` takes every logo drawn before off the screen. -/
theorem TaskResult.gone {o : Outcome Cut Quiz} (hr : TaskResult U rnd s o)
    (hk : k ∈ s.repeated) : Gone k o.state := by
  -- the index drawn now has not been drawn before
  have hfresh : ∀ {x : ℕ}, Fresh rnd s x → k ∈ s.repeated ++ [x] ∧ x ≠ k :=
    fun hx => ⟨List.mem_append_left _ hk, fun heq => hx.new (heq ▸ hk)⟩
  cases hr with
  | drawing => exact ⟨hk, fun hd => absurd hd.2.1 (by simp)⟩
  | unread hx => exact ⟨(hfresh hx).1, fun hd => (hfresh hx).2 hd.1⟩
  | misfit hx => exact ⟨(hfresh hx).1, fun hd => (hfresh hx).2 hd.1⟩
  | dealt hx => exact ⟨(hfresh hx).1, fun hd => (hfresh hx).2 hd.1⟩
  | ending hx => exact ⟨(hfresh hx).1, fun hd => (hfresh hx).2 hd.1⟩

/-- **A logo that has gone does not come back.** -/
theorem Effect.gone {e : Event} (hcore : Core names s) (h : Gone k s)
    (he : Effect U names s e s') : Gone k s' := by
  cases he with
  | start hstart _ => exact absurd (hstart.symm.trans hcore.started) (by simp)
  | idle _ => exact h
  | hit _ _ _ => exact h
  | solved _ _ _ hr => exact hr.gone h.1
  | gift _ _ _ hr => exact hr.gone h.1
  | count _ _ _ => exact h
  | finish _ _ _ => exact h
  | expireCut _ _ hr => exact hr.gone h.1
  | expire _ _ hr _ => exact hr.gone h.1
  | expireEnd _ _ hr _ => exact hr.gone h.1

/-! ### A logo on display -/

theorem Laid.ticking (h : Laid U names k s) (hne : s.correct ≠ []) : Ticking k 0 s where
  shown := ⟨h.shown, h.inLoop, h.ended⟩
  drawn := h.drawn
  correct := hne
  time := h.time

/-- **What one move does to the clock of a logo**: it is solved and gone, or it stays with as many
ticks as before, or one more tick is counted, up to the thirtieth; the next one takes it away. -/
theorem Ticking.step (hcore : Core names s) (hu : Unsolved s) (h : Ticking k n s) {e : Event}
    (he : Effect U names s e s') :
    (solvedBy ⟨s, e, s'⟩ = some k ∧ Gone k s') ∨
      (solvedBy ⟨s, e, s'⟩ = none ∧ e.isTick = false ∧ Ticking k n s') ∨
      (solvedBy ⟨s, e, s'⟩ = none ∧ e.isTick = true ∧ n < 30 ∧ Ticking k (n + 1) s') ∨
      (solvedBy ⟨s, e, s'⟩ = none ∧ e.isTick = true ∧ n = 30 ∧ Gone k s') := by
  have hne : s.text ≠ s.correct := fun heq => h.correct (hu heq.symm)
  have htime := h.time
  cases he with
  | start hstart _ => exact absurd (hstart.symm.trans hcore.started) (by simp)
  | @idle ρ i rnd hidle =>
      have hnone : solvedBy ⟨s, .tap ρ i rnd, { s with j := [] }⟩ = none := by
        rcases hidle with hc | ⟨c, hc, hmem, -⟩
        · simp [solvedBy, hc]
        · rw [solvedBy_tap hcore.len hc, if_neg fun hall => hmem hall.1]
      exact Or.inr (Or.inl ⟨hnone, rfl, { h with }⟩)
  | @hit ρ i rnd c hc hmem hopen =>
      have hnone : solvedBy ⟨s, .tap ρ i rnd, s.played c ρ⟩ = none := by
        rw [solvedBy_tap hcore.len hc, if_neg fun hall => hopen hall.2.2.symm]
      exact Or.inr (Or.inl ⟨hnone, rfl, { h with }⟩)
  | @solved ρ i rnd c o hc hmem hall hr =>
      have hsome : solvedBy ⟨s, .tap ρ i rnd, o.state⟩ = some k := by
        rw [solvedBy_tap hcore.len hc, if_pos ⟨hmem, hne, hall.symm⟩, h.shown.1]
      exact Or.inl ⟨hsome, hr.gone h.drawn⟩
  | gift _ _ hall _ => exact absurd hall.symm hne
  | count _ ht _ =>
      refine Or.inr (Or.inr (Or.inl ⟨rfl, rfl, by omega, { h with time := ?_ }⟩))
      change s.timeinmin - 1 + (n + 1) = 30
      omega
  | finish _ _ hend => exact absurd (h.shown.2.2.symm.trans hend) (by simp)
  | expireCut _ ht hr => exact Or.inr (Or.inr (Or.inr ⟨rfl, rfl, by omega, hr.gone h.drawn⟩))
  | expire _ ht hr _ => exact Or.inr (Or.inr (Or.inr ⟨rfl, rfl, by omega, hr.gone h.drawn⟩))
  | expireEnd _ ht hr _ => exact Or.inr (Or.inr (Or.inr ⟨rfl, rfl, by omega, hr.gone h.drawn⟩))

/-! ### Every run after the deal -/

/-- **The logo after any moves**: it is on display as long as it has not been solved and at most
thirty ticks have passed. -/
def Clocked (k : ℕ) (tr : List (Move Quiz Event)) (s : Quiz) : Prop :=
  (k ∉ solvedIn tr ∧ ticksIn tr ≤ 30 ∧ Ticking k (ticksIn tr) s) ∨
    ((k ∈ solvedIn tr ∨ 30 < ticksIn tr) ∧ Gone k s)

theorem Clocked.step (hcore : Core names s) (hu : Unsolved s) {tr : List (Move Quiz Event)}
    (h : Clocked k tr s) {e : Event} (he : Effect U names s e s') :
    Clocked k (tr ++ [⟨s, e, s'⟩]) s' := by
  have hsolved : solvedIn (tr ++ [⟨s, e, s'⟩]) = solvedIn tr ++ (solvedBy ⟨s, e, s'⟩).toList :=
    filterMap_concat solvedBy tr _
  rw [Clocked, hsolved, ticksIn_concat]
  rcases h with ⟨hnot, hle, ht⟩ | ⟨hgone, hk⟩
  · rcases ht.step hcore hu he with ⟨hs, hg⟩ | ⟨hs, htick, ht'⟩ | ⟨hs, htick, hlt, ht'⟩ |
      ⟨hs, htick, hn, hg⟩
    · exact Or.inr ⟨Or.inl (by simp [hs]), hg⟩
    · exact Or.inl
        ⟨by simpa [hs] using hnot, by simpa [htick] using hle, by simpa [htick] using ht'⟩
    · refine Or.inl ⟨by simpa [hs] using hnot, ?_, by simpa [htick] using ht'⟩
      simp only [htick, if_true]
      omega
    · exact Or.inr ⟨Or.inr (by simp [htick, hn]), hg⟩
  · refine Or.inr ⟨?_, he.gone hcore hk⟩
    rcases hgone with hmem | hlt
    · exact Or.inl (List.mem_append_left _ hmem)
    · exact Or.inr (by omega)

/-- The moves after a deal belong to a run of the quiz, so its invariants hold in all of them. -/
theorem clocked_of_run (hn : 0 < names.length) {tr₀ tr : List (Move Quiz Event)} {s₀ : Quiz}
    (h₀ : Play U names tr₀ s₀) (hne : tr₀ ≠ []) (hlaid : Ticking k 0 s₀)
    (h : Run (step U names) s₀ tr s) : Clocked k tr s := by
  refine Run.invariant (I := fun tr s => Clocked k tr s) ?_ ?_ h
  · exact Or.inl ⟨List.not_mem_nil, Nat.zero_le 30, hlaid⟩
  · intro tr s e s' hrun ih hs
    have hplay : Play U names (tr₀ ++ tr) s := h₀.append hrun
    rcases core_of_play hn hplay with ⟨hnil, -⟩ | ⟨-, hcore, -⟩
    · exact absurd (List.append_eq_nil_iff.1 hnil).1 hne
    · exact ih.step hcore (unsolved_of_play hn hplay) (effect_of_step hn (Or.inr hcore) hs)

/-- Whatever the clock shows, as many ticks can pass as there are seconds on it. -/
theorem Ticking.exists_ticks (hn : 0 < names.length) (rnd : Rand) :
    ∀ {m n : ℕ} {s : Quiz}, Core names s → Ticking k n s → n + m ≤ 30 →
      ∃ tr s', Run (Quiz.step U names) s tr s' ∧ ticksIn tr = m ∧ solvedIn tr = [] := by
  intro m
  induction m with
  | zero =>
      intro n s _ _ _
      exact ⟨[], s, .nil, rfl, rfl⟩
  | succ m ih =>
      intro n s hcore h hle
      have htime := h.time
      have hstep : Quiz.step U names s (.tick rnd) = some s.counted :=
        hcore.step_tick hn h.shown.2.2 h.shown.2.1 (by omega) rnd
      have hnext : Ticking k (n + 1) s.counted := by
        refine { h with time := ?_ }
        change s.timeinmin - 1 + (n + 1) = 30
        omega
      obtain ⟨tr, s', hrun, hticks, hsolved⟩ := ih hcore.counted hnext (by omega)
      refine ⟨_, s', (Run.single hstep).append hrun, ?_, ?_⟩
      · rw [ticksIn, List.countP_append]
        change 1 + ticksIn tr = m + 1
        omega
      · rw [solvedIn, List.filterMap_append]
        exact hsolved

/-- **No logo is taken off the screen in time.**  Let a move deal the logo `k`, whose path is
well-formed.  Whatever happens after that, as long as the logo is not solved it is on display after
every tick up to the thirtieth, which does come, and is gone after the thirty-first. -/
theorem never_onTime {tr₀ : List (Move Quiz Event)} {s₁ s₀ : Quiz} {e : Event} {p : Str}
    (h₁ : Play U names tr₀ s₁) (hs₁ : step U names s₁ e = some s₀)
    (hd : dealtBy ⟨s₁, e, s₀⟩ = some k) (hp : names[k]? = some p) (hw : WellFormed p) :
    ¬ OnTime U names k s₀ ∧
      ∀ tr s, Run (step U names) s₀ tr s → k ∉ solvedIn tr →
        (ticksIn tr ≤ 30 → OnDisplay k s) ∧ (30 < ticksIn tr → ¬ OnDisplay k s) := by
  have hn : 0 < names.length := by
    have hlt := (List.getElem?_eq_some_iff.1 hp).1
    omega
  have hlaid : Laid U names k s₀ := laid_of_play hn h₁ hs₁ hd
  have hticking : Ticking k 0 s₀ := hlaid.ticking (hlaid.correct_ne_nil hp hw)
  have hclock : ∀ tr s, Run (step U names) s₀ tr s → Clocked k tr s :=
    fun tr s h => clocked_of_run hn (h₁.snoc hs₁) (by simp) hticking h
  constructor
  · intro htime
    obtain ⟨tr, s, h, hticks, hsolved⟩ :=
      hticking.exists_ticks (U := U) (m := 30) hn (onlyDraws 0) hlaid.core (by omega)
    have hnot : k ∉ solvedIn tr := by simp [hsolved]
    rcases hclock tr s h with ⟨-, -, ht⟩ | ⟨hgone, -⟩
    · exact htime tr s h hnot hticks ht.shown
    · rcases hgone with hmem | hlt
      · exact hnot hmem
      · omega
  · intro tr s h hnot
    rcases hclock tr s h with ⟨-, hle, ht⟩ | ⟨hgone, hk⟩
    · exact ⟨fun _ => ht.shown, fun hlt => absurd hle (by omega)⟩
    · refine ⟨?_, fun _ => hk.2⟩
      intro hle
      rcases hgone with hmem | hlt
      · exact absurd hmem hnot
      · omega

end

theorem never_onTime_logoPath :
    ∃ s₀, step .ascii [logoPath, logoPath] {} (.start (onlyDraws 0)) = some s₀ ∧
      ¬ OnTime .ascii [logoPath, logoPath] 0 s₀ := by
  have hstart : step .ascii [logoPath, logoPath] {} (.start (onlyDraws 0)) =
      some (pressStart .ascii [logoPath, logoPath] (onlyDraws 0) {}).state := rfl
  exact ⟨_, hstart, (never_onTime Run.nil hstart (by decide) rfl wellFormed_logoPath).1⟩

/-- Start deals the first of two logos, and thirty ticks later it is still there. -/
theorem not_onTime_logoPath :
    ¬ ∀ tr s₁ e s₀ k, Play .ascii [logoPath, logoPath] tr s₁ →
      step .ascii [logoPath, logoPath] s₁ e = some s₀ → dealtBy ⟨s₁, e, s₀⟩ = some k →
      OnTime .ascii [logoPath, logoPath] k s₀ := by
  intro hall
  have hstart : step .ascii [logoPath, logoPath] {} (.start (onlyDraws 0)) =
      some (pressStart .ascii [logoPath, logoPath] (onlyDraws 0) {}).state := rfl
  have hexec : (exec (step .ascii [logoPath, logoPath])
      (pressStart .ascii [logoPath, logoPath] (onlyDraws 0) {}).state
      (List.replicate 30 (.tick (onlyDraws 1)))).map
        (fun s => (s.picCount, s.inLoop, s.ended)) = some (0, false, false) := by
    decide
  obtain ⟨tr, s, hrun, hfields, hev⟩ := exists_run_of_exec hexec
  obtain ⟨hpic, hrest⟩ := Prod.mk.inj hfields
  obtain ⟨hloop, hend⟩ := Prod.mk.inj hrest
  have htick : ∀ m ∈ tr, m.event = .tick (onlyDraws 1) :=
    forall_event (P := fun e => e = .tick (onlyDraws 1)) hev
      (fun e he => List.eq_of_mem_replicate he)
  have hticks : ticksIn tr = 30 := by
    have hlen : tr.length = 30 := by simpa using congrArg List.length hev
    rw [ticksIn, List.countP_eq_length.2 fun m hm => by rw [htick m hm]; rfl, hlen]
  have hsolved : 0 ∉ solvedIn tr := by
    intro hmem
    obtain ⟨m, hm, hs⟩ := List.mem_filterMap.1 hmem
    rw [solvedBy, htick m hm] at hs
    exact absurd hs (by simp)
  exact hall [] {} _ _ 0 Run.nil hstart (by decide) tr s hrun hsolved hticks ⟨hpic, hloop, hend⟩

end Quiz

end LogoGuess
