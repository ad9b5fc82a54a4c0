/-
**Cards between two frames.**

The cards on the screen are built from the rows, and the handler of a card keeps the position `i`
that it was built with.  It reads the row at that position when it is called.  In the meantime
other taps may have shortened the row and other logos may have been dealt, because the screen is
built again only at the next frame.  This module adds the frames to the sessions of
`LogoGuess.QuizStart`: the player taps what was built last.

Main definitions:

* `LogoGuess.Frame`, `LogoGuess.Frame.step` — a session together with the screen that was built
  last, and its events;
* `LogoGuess.Frame.Plays` — a tap plays the letter that the player sees;
* `LogoGuess.Frame.Current` — the position of the card still has its letter, or one without effect;
* `LogoGuess.Cut.IsRangeError` — the exceptions that are range errors;
* `LogoGuess.Quiz.Clean` — no path that is left to draw makes `task` throw one.

Main results:

* `LogoGuess.Quiz.task_ne_rangeError_iff` — exactly when no draw makes `task` throw one;
* `LogoGuess.Frame.plays_iff` — **exactly when a tap plays the letter that the player sees**.
-/

import LogoGuess.QuizTap

set_option relaxedAutoImplicit false
set_option autoImplicit false

namespace LogoGuess

open Dart EventLoop Guessing

/-- **The exceptions that are range errors.**  The one that `randomAlpha` throws on a negative
length is that of its package: it may be one, as `ranged` says. -/
def Cut.IsRangeError (ranged : Prop) : Cut → Prop
  | .rangeError => True
  | .negativeLength => ranged
  | _ => False

/-! ### Frames -/

/-- A session and the screen as it was built last. -/
structure Frame where
  session : Session := {}
  built : Quiz := {}

/-- The handler of the button, up to its first `await` or to its end. -/
def Session.onPress (U : CaseMap) (rnd : Rand) (s : Session) : Session :=
  if s.quiz.start = .start then
    { s with quiz := s.quiz.getImBegin, pending := s.pending ++ [.getInstance] }
  else { s with quiz := (Quiz.onPressed U rnd s.quiz).state }

namespace Frame

/-- What can happen to a screen and its frames. -/
inductive Event where
  /-- The screen is built again. -/
  | build
  /-- An event of the session. -/
  | event (e : Session.Event)

/-- **One event between two frames.**  The button and the cards are those that were built last;
everything else happens as in a session. -/
def step (U : CaseMap) (names : List Str) (f : Frame) : Event → Option Frame
  | .build =>
      if f.session.quiz.inLoop = false ∧ f.session.quiz.mounted = true then
        some { f with built := f.session.quiz }
      else none
  | .event (.press rnd) =>
      if f.session.quiz.inLoop = false ∧ f.session.quiz.mounted = true ∧
          f.built.nextEnabled = true then
        some { f with session := f.session.onPress U rnd }
      else none
  | .event (.tap ρ i rnd) =>
      if i < (f.built.row ρ).length then
        (Session.step U names f.session (.tap ρ i rnd)).map fun s => { f with session := s }
      else none
  | .event e => (Session.step U names f.session e).map fun s => { f with session := s }

/-- The logo that was on display when the screen was built still is: `task` has not been called. -/
def SameLogo (f : Frame) : Prop := f.session.quiz.calls = f.built.calls

/-- **A tap plays the letter that the player sees.**  Whatever the random sources answer, the card
that was built with the letter `c` acts as `c` on the logo that was on display with it, or it
changes nothing but the scratch list `j`; and it does not throw a `RangeError`. -/
def Plays (U : CaseMap) (ranged : Prop) (f : Frame) (ρ : Quiz.Row) (i : ℕ) : Prop :=
  ∀ c, (f.built.row ρ)[i]? = some c → ∀ rnd,
    ((f.SameLogo ∧
        Quiz.onTap U rnd ρ i f.session.quiz = Quiz.act U rnd ρ c f.session.quiz) ∨
      Quiz.onTap U rnd ρ i f.session.quiz = .done { f.session.quiz with j := [] }) ∧
    ∀ e t, e.IsRangeError ranged → Quiz.onTap U rnd ρ i f.session.quiz ≠ .stop e t

end Frame

namespace Quiz

/-! ### When `task` throws -/

/-- **A path on which `task` throws no range error**: a title can be cut out of it, and the answer
has no more letters than there are cards, if the exception for that is a range error. -/
def Readable (ranged : Prop) (p : Str) : Prop :=
  ∃ t, titleOf p = some t ∧ (ranged → (answer t).length ≤ 15)

/-- **No path that is left to draw makes `task` throw a range error.** -/
def Clean (ranged : Prop) (s : Quiz) : Prop :=
  0 < s.images.length ∧ (s.loopCount < s.images.length - 1 →
    ∀ (k : ℕ) (p : Str), k ∉ s.repeated → s.images[k]? = some p → Readable ranged p)

section

variable {U : CaseMap} {ranged : Prop} {s : Quiz} {rnd : Rand} {ρ : Row} {a b c : Str}

/-- A path that is drawn without a range error is readable. -/
theorem TaskResult.readable {o : Outcome Cut Quiz} {k : ℕ} {p : Str}
    (hr : TaskResult U (onlyDraws k) s o) (hloop : s.loopCount < s.images.length - 1)
    (hk : k ∉ s.repeated) (hp : s.images[k]? = some p)
    (ho : ∀ e t, e.IsRangeError ranged → o ≠ .stop e t) : Readable ranged p := by
  have hlt : k < s.images.length := (List.getElem?_eq_some_iff.1 hp).1
  cases hr with
  | drawing hall =>
      have hmem := hall k (List.mem_singleton_self k)
      rw [Nat.mod_eq_of_lt hlt] at hmem
      exact absurd hmem hk
  | unread => exact absurd rfl (ho .rangeError _ trivial)
  | @misfit k' p' t hfresh _ hp' ht hlen =>
      obtain rfl : k' = k := hfresh.eq_of_onlyDraws hlt
      obtain rfl : p' = p := Option.some_inj.1 (hp'.symm.trans hp)
      exact ⟨t, ht, fun hranged => absurd rfl (ho .negativeLength _ hranged)⟩
  | @dealt k' p' t hfresh _ hp' ht hlen =>
      obtain rfl : k' = k := hfresh.eq_of_onlyDraws hlt
      obtain rfl : p' = p := Option.some_inj.1 (hp'.symm.trans hp)
      exact ⟨t, ht, fun _ => hlen⟩
  | ending _ hend => exact absurd hloop hend

/-- `task` throws no range error where no path makes it. -/
theorem TaskResult.ne_rangeError {o : Outcome Cut Quiz} (hr : TaskResult U rnd s o)
    (h : Clean ranged s) (e : Cut) (t : Quiz) (he : e.IsRangeError ranged) : o ≠ .stop e t := by
  rintro rfl
  cases hr with
  | drawing => exact he
  | unread hfresh hloop hp ht =>
      obtain ⟨t', ht', -⟩ := h.2 hloop _ _ hfresh.new hp
      exact absurd (ht.symm.trans ht') (by simp)
  | misfit hfresh hloop hp ht hlen =>
      obtain ⟨t', ht', hlen'⟩ := h.2 hloop _ _ hfresh.new hp
      obtain rfl := Option.some_inj.1 (ht.symm.trans ht')
      have := hlen' he
      omega

/-- **Exactly when no draw makes `task` throw a range error.** -/
theorem task_ne_rangeError_iff (U : CaseMap) (ranged : Prop) (s : Quiz) :
    (∀ rnd e t, e.IsRangeError ranged → task U rnd s ≠ .stop e t) ↔ Clean ranged s := by
  constructor
  · intro h
    have hn : 0 < s.images.length := by
      by_contra hn
      exact h (onlyDraws 0) .rangeError s.clear trivial (task_of_empty U _ hn)
    refine ⟨hn, ?_⟩
    intro hloop k p hk hp
    exact (taskResult U (onlyDraws k) hn).readable hloop hk hp (h (onlyDraws k))
  · intro h rnd
    exact (taskResult U rnd h.1).ne_rangeError h

/-! ### Two letters on the same card -/

theorem row_touched (s : Quiz) (c : Str) (ρ : Row) :
    (s.touched c ρ).row ρ = if c ∈ s.correct then (s.row ρ).erase c else s.row ρ := by
  rw [touched]
  by_cases hmem : c ∈ s.correct
  · rw [if_pos hmem, if_pos hmem]
    cases ρ <;> rfl
  · rw [if_neg hmem, if_neg hmem]
    cases ρ <;> rfl

/-- A letter that occurs is taken from its row. -/
theorem count_touched_self (hcard : a ∈ s.row ρ) (hmem : a ∈ s.correct) :
    ((s.touched a ρ).row ρ).count a < (s.row ρ).count a := by
  have hpos := List.count_pos_iff.2 hcard
  rw [row_touched, if_pos hmem, List.count_erase_self]
  omega

/-- No other letter is. -/
theorem count_touched_of_ne (s : Quiz) (ρ : Row) (hne : a ≠ b) :
    ((s.touched b ρ).row ρ).count a = (s.row ρ).count a := by
  rw [row_touched]
  split
  · exact List.count_erase_of_ne hne
  · rfl

/-- Two different letters do not both complete the text. -/
theorem Sound.not_completes (h : Sound s) (hne : a ≠ b) (hmem : a ∈ s.correct)
    (ha : Completes s ρ a) : ¬ Completes s ρ b := by
  intro hb
  have hnil : s.correct = [] := by
    by_cases hmem' : b ∈ s.correct
    · rw [Completes, if_pos hmem] at ha
      rw [Completes, if_pos hmem'] at hb
      exact h.unsolved (eq_of_reveal_eq hne h.len ha hb)
    · exact ((h.completes_iff hmem').1 hb).2
  rw [hnil] at hmem
  exact absurd hmem List.not_mem_nil

/-- A tap calls `task` exactly when it completes the text. -/
theorem calls_act_iff (U : CaseMap) (rnd : Rand) (hm : s.mounted = true) (ht : s.timer.isSome) :
    (act U rnd ρ c s).state.calls ≠ s.calls ↔ Completes s ρ c := by
  by_cases hcomp : Completes s ρ c
  · rw [act_of_completes U rnd hm ht hcomp, ← touched_calls s c ρ]
    exact ⟨fun _ => hcomp, fun _ => calls_task_ne U rnd _⟩
  · rw [act_of_open U rnd hcomp]
    exact ⟨fun hne => absurd (touched_calls s c ρ) hne, fun h => absurd h hcomp⟩

/-- **A letter that occurs acts differently from any other.** -/
theorem Sound.act_ne (h : Sound s) (U : CaseMap) (rnd : Rand) (hm : s.mounted = true)
    (ht : s.timer.isSome) (hcard : a ∈ s.row ρ) (hmem : a ∈ s.correct) (hne : a ≠ b) :
    Quiz.act U rnd ρ a s ≠ Quiz.act U rnd ρ b s := by
  intro heq
  have hiff : Completes s ρ a ↔ Completes s ρ b := by
    rw [← calls_act_iff U rnd hm ht, heq, calls_act_iff U rnd hm ht]
  have ha : ¬ Completes s ρ a := fun ha => h.not_completes hne hmem ha (hiff.1 ha)
  rw [act_of_open U rnd ha, act_of_open U rnd (mt hiff.2 ha)] at heq
  have hcount := count_touched_self hcard hmem
  rw [Outcome.done.inj heq, count_touched_of_ne s ρ hne] at hcount
  exact absurd hcount (lt_irrefl _)

/-- A letter that occurs changes something. -/
theorem act_ne_idle (U : CaseMap) (rnd : Rand) (hm : s.mounted = true) (ht : s.timer.isSome)
    (hcard : a ∈ s.row ρ) (hmem : a ∈ s.correct) :
    act U rnd ρ a s ≠ .done { s with j := [] } := by
  intro heq
  have ha : ¬ Completes s ρ a := by
    rw [← calls_act_iff U rnd hm ht, heq]
    exact not_not_intro rfl
  rw [act_of_open U rnd ha] at heq
  have hrow : ({ s with j := [] } : Quiz).row ρ = s.row ρ := by cases ρ <;> rfl
  have hcount := count_touched_self hcard hmem
  rw [Outcome.done.inj heq, hrow] at hcount
  exact absurd hcount (lt_irrefl _)

/-- No draw makes a tap throw a range error exactly when it does not complete the text or `task`
does not throw one. -/
theorem act_ne_rangeError_iff (U : CaseMap) (ranged : Prop) (hm : s.mounted = true)
    (ht : s.timer.isSome) :
    (∀ rnd e t, e.IsRangeError ranged → act U rnd ρ c s ≠ .stop e t) ↔
      (Completes s ρ c → Clean ranged s) := by
  have hclean : Clean ranged (s.touched c ρ).credited ↔ Clean ranged s := by
    obtain ⟨j, text, r1, r2, r3, h⟩ := touched_eq s c ρ
    rw [h]
    rfl
  by_cases hcomp : Completes s ρ c
  · rw [← hclean, ← task_ne_rangeError_iff U]
    simp only [act_of_completes U _ hm ht hcomp, hcomp, true_imp_iff]
  · refine ⟨fun _ h => absurd h hcomp, ?_⟩
    intro _ rnd e t _
    rw [act_of_open U rnd hcomp]
    simp

end

end Quiz

/-! ### What the player sees -/

namespace Frame

/-- **The card is current**: its position has a letter `c'`, which is the one that the player sees
on the logo that was on display with it, or which is without effect; and if the tap completes the
text, then no path that is left to draw makes `task` throw a range error. -/
def Current (ranged : Prop) (f : Frame) (ρ : Quiz.Row) (i : ℕ) : Prop :=
  ∀ c, (f.built.row ρ)[i]? = some c → ∃ c', (f.session.quiz.row ρ)[i]? = some c' ∧
    ((f.SameLogo ∧ c' = c) ∨
      (c' ∉ f.session.quiz.correct ∧ (ρ = .r1 → f.session.quiz.correct ≠ [] ∨ f.SameLogo))) ∧
    (f.session.quiz.Completes ρ c' → f.session.quiz.Clean ranged)

section

variable {U : CaseMap} {names : List Str} {f f' : Frame} {tr : List (Move Frame Event)}

/-- An event between two frames does to the screen what an event of a session does. -/
theorem handled_of_step {e : Event} (hs : step U names f e = some f') :
    Session.Handled U names f.session.quiz f'.session.quiz := by
  have hlift : ∀ {e : Session.Event},
      (Session.step U names f.session e).map (fun s => { f with session := s }) = some f' →
        Session.Handled U names f.session.quiz f'.session.quiz := by
    intro e hs
    obtain ⟨s, hstep, rfl⟩ := Option.map_eq_some_iff.1 hs
    exact Session.handled_of_step hstep
  cases e with
  | build =>
      obtain ⟨-, rfl⟩ := of_guard hs
      exact .same
  | event e =>
      cases e with
      | press rnd =>
          obtain ⟨-, rfl⟩ := of_guard hs
          change Session.Handled U names f.session.quiz (f.session.onPress U rnd).quiz
          rw [Session.onPress]
          split
          · exact .begin
          · exact .press rnd
      | resume i rnd => exact hlift hs
      | tap ρ i rnd => exact hlift (Option.ite_none_right_eq_some.1 hs).2
      | tick rnd => exact hlift hs
      | unmount => exact hlift hs
      | blank => exact hlift hs

/-- The screen is sound, whenever it is built. -/
theorem sound_of_run (h : Run (step U names) {} tr f) : f.session.quiz.Sound := by
  refine Run.invariant (I := fun _ f => f.session.quiz.Sound) Session.sound_fresh ?_ h
  intro tr f e f' _ ih hs
  exact (handled_of_step hs).sound ih

/-- The letter `c'` in the place of `c` acts as `c`, or is without effect. -/
theorem acts_iff (hsound : f.session.quiz.Sound) (hm : f.session.quiz.mounted = true)
    (ht : f.session.quiz.timer.isSome) {ρ : Quiz.Row} {c c' : Str}
    (hcard : c' ∈ f.session.quiz.row ρ) (rnd : Rand) :
    ((f.SameLogo ∧ Quiz.act U rnd ρ c' f.session.quiz = Quiz.act U rnd ρ c f.session.quiz) ∨
        Quiz.act U rnd ρ c' f.session.quiz = .done { f.session.quiz with j := [] }) ↔
      ((f.SameLogo ∧ c' = c) ∨
        (c' ∉ f.session.quiz.correct ∧
          (ρ = .r1 → f.session.quiz.correct ≠ [] ∨ f.SameLogo))) := by
  by_cases hmem : c' ∈ f.session.quiz.correct
  · -- such a letter has an effect, and no other letter has the same
    have hidle := Quiz.act_ne_idle U rnd hm ht hcard hmem
    have hsame : Quiz.act U rnd ρ c' f.session.quiz = Quiz.act U rnd ρ c f.session.quiz ↔
        c' = c := by
      constructor
      · intro heq
        by_contra hne
        exact hsound.act_ne U rnd hm ht hcard hmem hne heq
      · rintro rfl
        rfl
    simp only [hidle, hsame, hmem, not_true, false_and, or_false]
  · have htouched : ∀ {a : Str}, a ∉ f.session.quiz.correct →
        f.session.quiz.touched a ρ = { f.session.quiz with j := [] } := fun ha => if_neg ha
    by_cases hcomp : f.session.quiz.Completes ρ c'
    · -- the answer is empty, so every letter of the first row has the effect of this one
      obtain ⟨rfl, hnil⟩ := (hsound.completes_iff hmem).1 hcomp
      have hmem₂ : c ∉ f.session.quiz.correct := by
        rw [hnil]
        exact List.not_mem_nil
      have hcomp₂ : f.session.quiz.Completes .r1 c := (hsound.completes_iff hmem₂).2 ⟨rfl, hnil⟩
      have hsame : Quiz.act U rnd .r1 c' f.session.quiz = Quiz.act U rnd .r1 c f.session.quiz := by
        rw [Quiz.act_of_completes U rnd hm ht hcomp, Quiz.act_of_completes U rnd hm ht hcomp₂,
          htouched hmem, htouched hmem₂]
      have hidle : Quiz.act U rnd .r1 c' f.session.quiz ≠
          .done { f.session.quiz with j := [] } := by
        intro heq
        refine (Quiz.calls_act_iff U rnd hm ht).2 hcomp ?_
        rw [heq]
        rfl
      constructor
      · rintro (⟨hlogo, -⟩ | heq)
        · exact Or.inr ⟨hmem, fun _ => Or.inr hlogo⟩
        · exact absurd heq hidle
      · rintro (⟨hlogo, -⟩ | ⟨-, hor⟩)
        · exact Or.inl ⟨hlogo, hsame⟩
        · exact Or.inl ⟨(hor rfl).resolve_left (not_not_intro hnil), hsame⟩
    · have hopen : ρ = .r1 → f.session.quiz.correct ≠ [] := fun hρ hnil =>
        hcomp ((hsound.completes_iff hmem).2 ⟨hρ, hnil⟩)
      rw [Quiz.act_of_open U rnd hcomp, htouched hmem]
      exact ⟨fun _ => Or.inr ⟨hmem, fun hρ => Or.inl (hopen hρ)⟩, fun _ => Or.inr rfl⟩

/-- **Exactly when a tap plays the letter that the player sees.**  In every state that a session can
reach with any order of taps, ticks, presses and builds, over any list of paths, whether or not the
exception for a negative length is a range error. -/
theorem plays_iff (ranged : Prop) (h : Run (step U names) {} tr f)
    (hm : f.session.quiz.mounted = true) (ρ : Quiz.Row) (i : ℕ) :
    f.Plays U ranged ρ i ↔ f.Current ranged ρ i := by
  have hsound := sound_of_run h
  refine forall_congr' fun c => imp_congr_right fun _ => ?_
  cases hc : (f.session.quiz.row ρ)[i]? with
  | none =>
      -- the row has become too short
      refine ⟨fun hplays => ?_, ?_⟩
      · exact absurd (Quiz.onTap_of_none U _ hm hc)
          ((hplays (Quiz.onlyDraws 0)).2 .rangeError _ trivial)
      · rintro ⟨c', hc', -⟩
        exact absurd hc' (by simp)
  | some c' =>
      have ht := hsound.timer_of_card hc
      have hcard : c' ∈ f.session.quiz.row ρ := List.mem_iff_getElem?.2 ⟨i, hc⟩
      simp only [Quiz.onTap_eq_act U _ hm hsound.len hc]
      constructor
      · intro hplays
        have hacts := (acts_iff hsound hm ht hcard _).1 (hplays (Quiz.onlyDraws 0)).1
        exact ⟨c', rfl, hacts,
          (Quiz.act_ne_rangeError_iff U ranged hm ht).1 fun rnd => (hplays rnd).2⟩
      · rintro ⟨c₁, hc₁, hacts, hclean⟩ rnd
        obtain rfl := Option.some_inj.1 hc₁
        exact ⟨(acts_iff hsound hm ht hcard rnd).2 hacts,
          (Quiz.act_ne_rangeError_iff U ranged hm ht).2 hclean rnd⟩

end

/-- Of three logos with the answer `AB` one is dealt and the screen is built; then the card with the
letter `B` is tapped.  The card with the letter `A`, which has not been built again since, plays
what it shows, and solves the logo. -/
theorem plays_iff_pairPath :
    ∃ tr f, Run (step .ascii [pairPath, pairPath, pairPath]) {} tr f ∧
      f.built.r1.length = f.session.quiz.r1.length + 1 ∧ f.built.r1[0]? = some ['A'] ∧
      ['A'] ∈ f.session.quiz.correct ∧ ∀ ranged, f.Plays .ascii ranged .r1 0 := by
  have hexec : (exec (step .ascii [pairPath, pairPath, pairPath]) {}
      (.event (.press (Quiz.onlyDraws 0)) ::
        (List.replicate 3 (.event (.resume 0 (Quiz.onlyDraws 0))) ++
          [.build, .event (.tap .r1 1 (Quiz.onlyDraws 1))]))).map
        (fun f => ((f.session.quiz.mounted, f.session.quiz.images, f.session.quiz.correct),
          (f.built.r1, f.session.quiz.r1), decide (f.session.quiz.calls = f.built.calls))) =
      some ((true, [pairPath, pairPath, pairPath], [['A'], ['B']]),
        ([['A'], ['B'], ['X'], ['X'], ['X']], [['A'], ['X'], ['X'], ['X']]), true) := by
    rfl
  obtain ⟨tr, f, hrun, hfields, -⟩ := exists_run_of_exec hexec
  simp only [Prod.mk.injEq, decide_eq_true_eq] at hfields
  obtain ⟨⟨hm, himages, hcorrect⟩, ⟨hbuilt, hrow⟩, hlogo⟩ := hfields
  refine ⟨tr, f, hrun, by simp [hbuilt, hrow], by simp [hbuilt], by simp [hcorrect], ?_⟩
  intro ranged
  refine (plays_iff ranged hrun hm .r1 0).2 ?_
  intro c hc
  refine ⟨['A'], by simp [Quiz.row, hrow], Or.inl ⟨hlogo, ?_⟩, ?_⟩
  · simpa [Quiz.row, hbuilt] using hc
  · -- the tap completes the text, and the other two logos can be dealt
    intro _
    refine ⟨by simp [himages], ?_⟩
    intro _ k p _ hp
    rw [himages] at hp
    obtain rfl : p = pairPath := by simpa using List.mem_of_getElem? hp
    exact ⟨['A', 'B'], by decide, fun _ => by decide⟩

/-- Two logos with the answer `AB`.  The card with the letter `A` is tapped twice before the screen
is built again.  The second tap finds the letter `B` at its position, and solves the logo. -/
theorem not_plays_pairPath :
    ∃ tr f, Run (step .ascii [pairPath, pairPath]) {} tr f ∧ f.session.quiz.mounted = true ∧
      f.built.r1[0]? = some ['A'] ∧ ∀ ranged, ¬ f.Plays .ascii ranged .r1 0 := by
  have hexec : (exec (step .ascii [pairPath, pairPath]) {}
      (.event (.press (Quiz.onlyDraws 0)) ::
        (List.replicate 3 (.event (.resume 0 (Quiz.onlyDraws 0))) ++
          [.build, .event (.tap .r1 0 (Quiz.onlyDraws 1))]))).map
        (fun f => ((f.session.quiz.mounted, f.built.r1[0]?, f.session.quiz.obtScore),
          (Quiz.onTap .ascii (Quiz.onlyDraws 1) .r1 0 f.session.quiz).state.obtScore,
          (Quiz.act .ascii (Quiz.onlyDraws 1) .r1 ['A'] f.session.quiz).state.obtScore)) =
      some ((true, some ['A'], 0), 1, 0) := by
    decide
  obtain ⟨tr, f, hrun, hfields, -⟩ := exists_run_of_exec hexec
  simp only [Prod.mk.injEq] at hfields
  obtain ⟨⟨hm, hbuilt, hscore⟩, htap, hact⟩ := hfields
  refine ⟨tr, f, hrun, hm, hbuilt, ?_⟩
  intro ranged hplays
  rcases (hplays ['A'] hbuilt (Quiz.onlyDraws 1)).1 with ⟨-, heq⟩ | heq
  · rw [heq, hact] at htap
    exact absurd htap (by decide)
  · rw [heq] at htap
    exact absurd (hscore.symm.trans htap) (by decide)

end Frame

end LogoGuess
