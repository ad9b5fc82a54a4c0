/-
**A logo on display.**

A call of `task` that deals a logo leaves it with the whole answer hidden and with thirty seconds on
the clock.  From then on its text is incomplete as long as it is on display, since the tap that
completes it calls `task`; only an empty answer is complete from the beginning.  Nothing is assumed
about the other paths of the list, so the calls of `task` before and after may throw.

Main definitions:

* `LogoGuess.Quiz.Laid` — a logo has just been dealt;
* `LogoGuess.Quiz.Unsolved` — the text is complete only if the answer is empty.

Main results:

* `LogoGuess.Quiz.laid_of_play` — what a move that deals a logo leaves;
* `LogoGuess.Quiz.unsolved_of_play` — **the text is never complete, unless the answer is empty**.
-/

import LogoGuess.QuizBank

set_option relaxedAutoImplicit false
set_option autoImplicit false

namespace LogoGuess

namespace Quiz

open Dart EventLoop Guessing

/-! ### A logo has just been dealt -/

/-- **The logo at the index `k` has just been dealt.** -/
structure Laid (U : CaseMap) (names : List Str) (k : ℕ) (s : Quiz) : Prop where
  core : Core names s
  inLoop : s.inLoop = false
  ended : s.ended = false
  shown : s.picCount = k
  drawn : k ∈ s.repeated
  answer : s.correct = word U names k
  text : s.text = List.replicate s.correct.length []
  time : s.timeinmin = 30

section

variable {U : CaseMap} {names : List Str} {s s' : Quiz} {rnd : Rand} {k : ℕ}

/-- A call of `task` that deals a logo, with thirty seconds on the clock. -/
theorem TaskResult.laid {o : Outcome Cut Quiz} (hr : TaskResult U rnd s o) (hc : Called names s)
    (ht : s.timeinmin = 30) (hl : o.state.loopCount = s.loopCount + 1) :
    Laid U names o.state.picCount o.state := by
  have hcore := hc.core hr
  obtain ⟨k, p, t, rfl, hp, htitle, -⟩ := hr.exists_dealt hl
  rw [hc.images] at hp
  refine ⟨hcore, hc.inLoop, hc.ended, rfl, ?_, (word_eq hp htitle).symm, rfl, ht⟩
  exact List.mem_append_right _ (List.mem_singleton_self k)

/-- **A move that deals a logo** leaves it with the whole answer hidden and with thirty seconds on
the clock. -/
theorem Effect.laid {e : Event} (hcore : Core names s) (hclock : Clock s)
    (hi : s.inLoop = false) (he : Effect U names s e s') (hl : s'.loopCount = s.loopCount + 1) :
    Laid U names s'.picCount s' := by
  cases he with
  | start hstart _ => exact absurd (hstart.symm.trans hcore.started) (by simp)
  | idle _ => exact absurd_of_loopCount rfl hl
  | hit _ _ _ => exact absurd_of_loopCount rfl hl
  | @solved ρ _ _ c _ hcard _ _ hr =>
      have hend := hcore.ended_of_card hcard
      exact hr.laid ((hcore.played hend c ρ).called_credited hend hi) rfl hl
  | @gift _ _ c _ hcard _ _ hr =>
      have hcard' : (s.row .r1)[_]? = some c := hcard
      exact hr.laid (hcore.idle.called_credited (hcore.ended_of_card hcard') hi) rfl hl
  | count _ _ _ => exact absurd_of_loopCount rfl hl
  | finish _ _ _ => exact absurd_of_loopCount rfl hl
  | expireCut _ _ hr =>
      obtain ⟨k, p, t, heq, -⟩ := hr.exists_dealt hl
      exact absurd heq (by simp)
  | @expire _ s₁ hlive ht hr hend =>
      -- the clock is set after the call, which has otherwise left a freshly dealt logo
      have hcalled := hcore.called_expired hclock hlive ht hi
      have hcore₁ : Core names s₁ := hcalled.core hr
      obtain ⟨k, p, t, heq, hp, htitle, -⟩ := hr.exists_dealt hl
      have hp' : names[k]? = some p := hcore.images ▸ hp
      obtain rfl : s₁ = _ := Outcome.done.inj heq
      refine ⟨hcore₁.reset, hi, hend, rfl, ?_, (word_eq hp' htitle).symm, rfl, rfl⟩
      exact List.mem_append_right _ (List.mem_singleton_self k)
  | @expireEnd _ s₁ hlive ht hr hend =>
      have hcalled := hcore.called_expired hclock hlive ht hi
      obtain ⟨k, p, t, heq, -⟩ := hr.exists_dealt hl
      obtain rfl : s₁ = _ := Outcome.done.inj heq
      exact absurd (hcalled.ended.symm.trans hend) (by simp)

/-- **What a move that deals the logo `k` leaves**, in every run. -/
theorem laid_of_play (hn : 0 < names.length) {tr : List (Move Quiz Event)}
    (h : Play U names tr s) {e : Event} (hs : step U names s e = some s')
    (hd : dealtBy ⟨s, e, s'⟩ = some k) : Laid U names k s' := by
  obtain ⟨hl, hk⟩ := of_guard hd
  change s'.loopCount = s.loopCount + 1 at hl
  change s'.picCount = k at hk
  rw [← hk]
  rcases core_of_play hn h with ⟨-, rfl⟩ | ⟨-, hcore, hclock⟩
  · obtain ⟨rnd, o, -, rfl, hr⟩ := start_of_fresh hn hs
    exact hr.laid (called_started names) rfl hl
  · exact (effect_of_step hn (Or.inr hcore) hs).laid hcore hclock (inLoop_of_step hs) hl

/-- The answer of a well-formed path has a letter. -/
theorem Laid.correct_ne_nil (h : Laid U names k s) {p : Str} (hp : names[k]? = some p)
    (hw : WellFormed p) : s.correct ≠ [] := by
  obtain ⟨t, ht, -⟩ := dealable_iff.1 hw.dealable
  rw [h.answer, word_eq hp ht]
  exact letters_ne_nil_of_wellFormed hw ht

/-! ### The text is not complete -/

/-- The text is complete only if the answer is empty. -/
def Unsolved (s : Quiz) : Prop := s.correct = s.text → s.correct = []

theorem TaskResult.unsolved {o : Outcome Cut Quiz} (hr : TaskResult U rnd s o) :
    Unsolved o.state := by
  -- open positions are blank, and letters are not
  have hblank : ∀ {t : Str}, letters U t = List.replicate (letters U t).length [] →
      letters U t = [] := by
    intro t heq
    refine List.eq_nil_iff_forall_not_mem.2 ?_
    intro a ha
    have ha' := ha
    rw [heq] at ha'
    exact ne_nil_of_mem_letters ha (List.eq_of_mem_replicate ha')
  cases hr with
  | drawing => exact fun _ => rfl
  | unread => exact fun _ => rfl
  | misfit => exact hblank
  | dealt => exact hblank
  | ending => exact fun _ => rfl

theorem Effect.unsolved {e : Event} (h : Unsolved s) (he : Effect U names s e s') :
    Unsolved s' := by
  cases he with
  | start _ hr => exact hr.unsolved
  | idle _ => exact h
  | hit _ _ hopen => exact fun heq => absurd heq hopen
  | solved _ _ _ hr => exact hr.unsolved
  | gift _ _ _ hr => exact hr.unsolved
  | count _ _ _ => exact h
  | finish _ _ _ => exact h
  | expireCut _ _ hr => exact hr.unsolved
  | expire _ _ hr _ => exact hr.unsolved
  | expireEnd _ _ hr _ => exact hr.unsolved

/-- **In every run the text is complete only if the answer is empty.** -/
theorem unsolved_of_play (hn : 0 < names.length) {tr : List (Move Quiz Event)}
    (h : Play U names tr s) : Unsolved s := by
  refine Run.invariant (I := fun _ s => Unsolved s) (fun _ => rfl) ?_ h
  intro tr s e s' hrun ih hs
  have hpre : s = {} ∨ Core names s := by
    rcases core_of_play hn hrun with ⟨-, rfl⟩ | ⟨-, hcore, -⟩
    · exact Or.inl rfl
    · exact Or.inr hcore
  exact (effect_of_step hn hpre hs).unsolved ih

end

end Quiz

end LogoGuess
