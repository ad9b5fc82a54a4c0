/-
**Spelling a logo.**

From the call of `task` that deals a logo to the next one, the player can tap letters in any order
and any number of times, in any row, while the timer ticks.  What is shown of the answer depends
only on the set of the letters that have been tapped, and the logo is solved by the tap that
completes this set.  The logo may have been dealt in any session: over any list of paths, with any
number of presses on Start.

Main definitions:

* `LogoGuess.Session.dealtBy` — the logo that a move of a session deals;
* `LogoGuess.Quiz.Spread` — a logo has just been dealt;
* `LogoGuess.Quiz.lettersIn` — the letters of the cards tapped in a run;
* `LogoGuess.Quiz.Calm` — a move that taps a card on the screen or counts down;
* `LogoGuess.Quiz.Spelled` — the logo is still on display, with the letters of a given set shown.

Main results:

* `LogoGuess.Session.spread_of_run` — what a move that deals a logo leaves, in every session;
* `LogoGuess.Quiz.Spelled.tap` — what one tap does to the letters shown;
* `LogoGuess.Quiz.taps_spell` — **the text depends only on the set of the tapped letters**.
-/

import LogoGuess.QuizTap

set_option relaxedAutoImplicit false
set_option autoImplicit false

namespace LogoGuess

open Dart EventLoop Guessing

namespace Quiz

/-! ### A logo has just been dealt -/

/-- **A logo has just been dealt**: its path has been taken apart, and the answer is hidden. -/
structure Spread (U : CaseMap) (s : Quiz) : Prop where
  mounted : s.mounted = true
  timer : s.timer.isSome
  answer : ∃ p t, s.images[s.picCount]? = some p ∧ titleOf p = some t ∧ s.correct = letters U t
  text : s.text = List.replicate s.correct.length []

section

variable {U : CaseMap} {names : List Str} {s s' : Quiz} {rnd : Rand}

/-- A call of `task` that advances `loop_count` has dealt a logo, also when the clock is set after
it. -/
theorem spread_task (hm : s.mounted = true) (ht : s.timer.isSome)
    (hl : (task U rnd s).state.loopCount = s.loopCount + 1) : Spread U (task U rnd s).state := by
  have hn : 0 < s.images.length := by
    by_contra hn
    rw [task_of_empty U rnd hn] at hl
    exact absurd_of_loopCount rfl hl
  obtain ⟨k, p, t, ho, hp, htitle, -⟩ := (taskResult U rnd hn).exists_dealt hl
  rw [ho]
  exact ⟨hm, ht, ⟨p, t, hp, htitle, rfl⟩, rfl⟩

/-- **The timer callback deals a logo only by calling `task`.** -/
theorem spread_tick (hm : s.mounted = true) (ht : s.timer.isSome)
    (hl : (tick U rnd s).state.loopCount = s.loopCount + 1) : Spread U (tick U rnd s).state := by
  obtain ⟨s₁, htick, hs₁⟩ := tick_cases U rnd hm ht
  -- leaving the screen writes none of the fields in question
  have hl₁ : s₁.loopCount = s.loopCount + 1 := by
    rcases htick with htick | htick
    · rw [← htick, hl]
    · rw [htick] at hl
      exact hl
  have hspread : Spread U s₁ := by
    rcases hs₁ with rfl | rfl | rfl
    · exact absurd_of_loopCount rfl hl₁
    · exact spread_task (s := { s with loaded := false }) hm ht hl₁
    · have h := spread_task (s := { s with loaded := false }) hm ht hl₁
      exact ⟨h.mounted, h.timer, h.answer, h.text⟩
  rcases htick with htick | htick
  · rw [htick]
    exact hspread
  · rw [htick]
    exact ⟨hspread.mounted, hspread.timer, hspread.answer, hspread.text⟩

/-- **A tap deals a logo only by calling `task`.** -/
theorem Sound.spread_onTap (h : Sound s) (hm : s.mounted = true) (ht : s.timer.isSome) {ρ : Row}
    {i : ℕ} (hl : (Quiz.onTap U rnd ρ i s).state.loopCount = s.loopCount + 1) :
    Spread U (Quiz.onTap U rnd ρ i s).state := by
  cases hc : (s.row ρ)[i]? with
  | none =>
      rw [onTap_of_none U rnd hm hc] at hl
      exact absurd_of_loopCount rfl hl
  | some c =>
      rw [onTap_eq_act U rnd hm h.len hc] at hl ⊢
      by_cases hcomp : Completes s ρ c
      · rw [act_of_completes U rnd hm ht hcomp] at hl ⊢
        rw [← touched_loopCount s c ρ] at hl
        exact spread_task (s := (s.touched c ρ).credited) ((touched_mounted s c ρ).trans hm) rfl hl
      · rw [act_of_open U rnd hcomp] at hl
        exact absurd_of_loopCount (touched_loopCount s c ρ) hl

/-- **The button deals a logo only by calling `task`.** -/
theorem Sound.spread_onPressed (h : Sound s)
    (hl : (Quiz.onPressed U rnd s).state.loopCount = s.loopCount + 1) :
    Spread U (Quiz.onPressed U rnd s).state := by
  by_cases hm : s.mounted = true
  · rw [onPressed_of_mounted U rnd hm h.timer_of_started] at hl ⊢
    have hm' : (if s.start = .next then s.cancelled else s).mounted = true := by
      split
      · exact hm
      · exact hm
    have hloop : (if s.start = .next then s.cancelled else s).loopCount = s.loopCount := by
      split
      · rfl
      · rfl
    rw [advance_of_mounted hm'] at hl ⊢
    rw [← hloop] at hl
    exact spread_task hm' rfl hl
  · rw [Quiz.onPressed, setState, if_neg hm] at hl
    exact absurd_of_loopCount rfl hl

end

end Quiz

namespace Session

/-- The logo that a move deals. -/
def dealtBy (m : Move Session Event) : Option ℕ :=
  if m.post.quiz.loopCount = m.pre.quiz.loopCount + 1 then some m.post.quiz.picCount else none

section

variable {U : CaseMap} {names : List Str} {s s' : Session} {tr : List (Move Session Event)} {k : ℕ}

theorem Handled.spread {q q' : Quiz} (h : Handled U names q q') (hq : q.Sound)
    (hl : q'.loopCount = q.loopCount + 1) : q'.Spread U := by
  cases h with
  | same => exact Quiz.absurd_of_loopCount rfl hl
  | begin => exact Quiz.absurd_of_loopCount rfl hl
  | load => exact Quiz.absurd_of_loopCount rfl hl
  | press rnd => exact hq.spread_onPressed hl
  | tap ρ i rnd hm hs => exact hq.spread_onTap hm (hq.timer_of_started hs) hl
  | tick rnd hlive =>
      rcases Bool.eq_false_or_eq_true q.mounted with hm | hm
      · exact Quiz.spread_tick hm (hq.timer_of_live hlive) hl
      · rw [Quiz.tick_of_unmounted U rnd hm] at hl
        exact Quiz.absurd_of_loopCount rfl hl
  | unmount => exact Quiz.absurd_of_loopCount rfl hl

/-- **What a move that deals the logo `k` leaves**, in every session. -/
theorem spread_of_run (h : Run (step U names) {} tr s) {e : Event}
    (hs : step U names s e = some s') (hd : dealtBy ⟨s, e, s'⟩ = some k) :
    s'.quiz.Spread U ∧ s'.quiz.picCount = k := by
  obtain ⟨hl, hk⟩ := of_guard hd
  exact ⟨(handled_of_step hs).spread (sound_of_run h) hl, hk⟩

end

end Session

namespace Quiz

/-! ### Tapping letters -/

/-- **The letters of the cards tapped in a run**, in order. -/
def lettersIn (tr : List (Move Quiz Event)) : List Str := tr.filterMap tappedBy

/-- A move that taps a card on the screen, or a tick that does not find the time used up. -/
def Calm (m : Move Quiz Event) : Prop :=
  match m.event with
  | .start _ => False
  | .tap ρ i _ => i < (m.pre.row ρ).length
  | .tick _ => 0 < m.pre.timeinmin

/-- **The logo that was dealt in `s₀` is still on display**, with the letters of `S` shown. -/
structure Spelled (s₀ s : Quiz) (S : Finset Str) : Prop where
  mounted : s.mounted = true
  timer : s.timer.isSome
  shown : s.picCount = s₀.picCount
  correct : s.correct = s₀.correct
  text : s.text = mask [] s₀.correct S
  score : s.obtScore = s₀.obtScore
  calls : s.calls = s₀.calls

section

variable {U : CaseMap} {names : List Str} {s s' s₀ : Quiz} {rnd : Rand} {S : Finset Str} {c : Str}
  {ρ : Row}

/-- The blank is not a letter of the answer of a dealt logo. -/
theorem Spread.nil_notMem (h : Spread U s) : ([] : Str) ∉ s.correct := by
  obtain ⟨p, t, -, -, hcorrect⟩ := h.answer
  rw [hcorrect]
  exact fun hmem => ne_nil_of_mem_letters hmem rfl

/-- The answer of a well-formed path has a letter. -/
theorem Spread.correct_ne_nil (h : Spread U s) {p : Str} (hp : s.images[s.picCount]? = some p)
    (hw : WellFormed p) : s.correct ≠ [] := by
  obtain ⟨p', t, hp', ht, hcorrect⟩ := h.answer
  obtain rfl : p' = p := Option.some_inj.1 (hp'.symm.trans hp)
  rw [hcorrect]
  exact letters_ne_nil_of_wellFormed hw ht

theorem Spread.spelled (h : Spread U s) : Spelled s s ∅ where
  mounted := h.mounted
  timer := h.timer
  shown := rfl
  correct := rfl
  text := by rw [mask_empty, h.text]
  score := rfl
  calls := rfl

theorem Spelled.len (h : Spelled s₀ s S) : s.text.length = s.correct.length := by
  rw [h.text, h.correct, mask, List.length_map]

/-- While a letter is hidden, the text is not complete. -/
theorem Spelled.ne_text (h : Spelled s₀ s S) (hblank : [] ∉ s₀.correct)
    (hopen : ∃ a ∈ s₀.correct, a ∉ S) : s.text ≠ s.correct := by
  intro heq
  rw [h.correct, h.text] at heq
  obtain ⟨a, ha, haS⟩ := hopen
  exact haS ((mask_eq_self_iff hblank).1 heq a ha)

/-- **The tap that completes the text** is the one on the last hidden letter. -/
theorem Spelled.completes_iff (h : Spelled s₀ s S) (hblank : [] ∉ s₀.correct)
    (hopen : ∃ a ∈ s₀.correct, a ∉ S) :
    Completes s ρ c ↔ ∀ a ∈ s₀.correct, a ∈ insert c S := by
  by_cases hmem : c ∈ s.correct
  · rw [Completes, if_pos hmem, h.correct, h.text, reveal_mask, eq_comm]
    exact mask_eq_self_iff hblank
  · rw [Completes, if_neg hmem]
    constructor
    · intro hall
      exact absurd hall.2.symm (h.ne_text hblank hopen)
    · intro hcover
      obtain ⟨a, ha, haS⟩ := hopen
      have hac : a = c := by
        rcases Finset.mem_insert.1 (hcover a ha) with hac | haS'
        · exact hac
        · exact absurd haS' haS
      rw [h.correct, ← hac] at hmem
      exact absurd ha hmem

/-- The logo that a tap solves. -/
theorem Spelled.solvedBy_eq (h : Spelled s₀ s S) (hblank : [] ∉ s₀.correct)
    (hopen : ∃ a ∈ s₀.correct, a ∉ S) {i : ℕ} (hc : (s.row ρ)[i]? = some c) (rnd : Rand)
    (s' : Quiz) : solvedBy ⟨s, .tap ρ i rnd, s'⟩ = some s₀.picCount ∧ Completes s ρ c ∨
      solvedBy ⟨s, .tap ρ i rnd, s'⟩ = none ∧ ¬ Completes s ρ c := by
  have hne := h.ne_text hblank hopen
  rw [solvedBy_tap h.len hc, Completes]
  by_cases hmem : c ∈ s.correct
  · by_cases hall : s.correct = reveal c s.correct s.text
    · exact Or.inl ⟨by rw [if_pos ⟨hmem, hne, hall.symm⟩, h.shown], by rwa [if_pos hmem]⟩
    · exact Or.inr ⟨if_neg fun hsolved => hall hsolved.2.2.symm, by rwa [if_pos hmem]⟩
  · refine Or.inr ⟨if_neg fun hsolved => hmem hsolved.1, ?_⟩
    rw [if_neg hmem]
    exact fun hall => hne hall.2.symm

/-- A tap that does not complete the text shows its letter, if it occurs. -/
theorem Spelled.touched (h : Spelled s₀ s S) (c : Str) (ρ : Row) :
    Spelled s₀ (s.touched c ρ) (insert c S) := by
  by_cases hmem : c ∈ s.correct
  · have htouched : s.touched c ρ = s.played c ρ := if_pos hmem
    rw [htouched]
    refine { h with text := ?_ }
    change reveal c s.correct s.text = _
    rw [h.correct, h.text, reveal_mask]
  · have htouched : s.touched c ρ = { s with j := [] } := if_neg hmem
    rw [htouched]
    refine { h with text := ?_ }
    change s.text = _
    rw [h.text]
    refine mask_congr [] ?_
    intro a ha
    have hac : a ≠ c := fun heq => hmem (heq ▸ h.correct ▸ ha)
    simp [hac]

/-- **What a tap does to the letters shown**, as long as one of them is hidden: a letter that does
not occur changes nothing, the last hidden letter solves the logo, and any other is shown. -/
theorem Spelled.tap (h : Spelled s₀ s S) (hblank : [] ∉ s₀.correct)
    (hopen : ∃ a ∈ s₀.correct, a ∉ S) {i : ℕ} (hc : (s.row ρ)[i]? = some c)
    (hs : step U names s (.tap ρ i rnd) = some s') :
    (c ∉ s₀.correct → s' = { s with j := [] }) ∧
      ((∀ a ∈ s₀.correct, a ∈ insert c S) →
        solvedBy ⟨s, .tap ρ i rnd, s'⟩ = some s₀.picCount ∧
        s'.obtScore = s.obtScore + 1 ∧ s'.calls.length = s.calls.length + 1) ∧
      ((∃ a ∈ s₀.correct, a ∉ insert c S) →
        solvedBy ⟨s, .tap ρ i rnd, s'⟩ = none ∧ Spelled s₀ s' (insert c S)) := by
  obtain ⟨-, rfl⟩ := of_guard hs
  rw [onTap_eq_act U rnd h.mounted h.len hc]
  have hiff := h.completes_iff (ρ := ρ) (c := c) hblank hopen
  rcases h.solvedBy_eq hblank hopen hc rnd (act U rnd ρ c s).state with ⟨hsolved, hcomp⟩ |
      ⟨hsolved, hcomp⟩
  · rw [hsolved, act_of_completes U rnd h.mounted h.timer hcomp]
    have hframed := task_framed U rnd (s.touched c ρ).credited
    refine ⟨?_, fun _ => ⟨rfl, ?_, ?_⟩, ?_⟩
    · intro hmem
      obtain ⟨a, ha, haS⟩ := hopen
      rcases Finset.mem_insert.1 (hiff.1 hcomp a ha) with rfl | haS'
      · exact absurd ha hmem
      · exact absurd haS' haS
    · obtain ⟨j, text, r1, r2, r3, htouched⟩ := touched_eq s c ρ
      rw [hframed.obtScore, htouched]
      rfl
    · rw [hframed.calls, List.length_append]
      change (s.touched c ρ).calls.length + 1 = _
      rw [touched_calls]
    · rintro ⟨a, ha, haS⟩
      exact absurd (hiff.1 hcomp a ha) haS
  · rw [hsolved, act_of_open U rnd hcomp]
    refine ⟨?_, fun hcover => absurd (hiff.2 hcover) hcomp, fun _ => ⟨rfl, h.touched c ρ⟩⟩
    intro hmem
    rw [← h.correct] at hmem
    exact if_neg hmem

/-- The letters tapped when one more move is made. -/
theorem lettersIn_concat (tr : List (Move Quiz Event)) (m : Move Quiz Event) :
    lettersIn (tr ++ [m]) = lettersIn tr ++ (tappedBy m).toList :=
  filterMap_concat tappedBy tr m

/-- The set of the tapped letters when one more card is tapped. -/
theorem toFinset_lettersIn (tr : List (Move Quiz Event)) {m : Move Quiz Event} {c : Str}
    (hm : tappedBy m = some c) :
    (lettersIn (tr ++ [m])).toFinset = insert c (lettersIn tr).toFinset := by
  rw [lettersIn_concat, hm]
  ext b
  simp

/-- **What becomes of the logo**: it is on display as long as a letter has not been tapped, and
solved when all have been. -/
def Guessed (s₀ : Quiz) (tr : List (Move Quiz Event)) (s : Quiz) : Prop :=
  ((∃ a ∈ s₀.correct, a ∉ lettersIn tr) ∧ solvedIn tr = [] ∧
      Spelled s₀ s (lettersIn tr).toFinset) ∨
    ((∀ a ∈ s₀.correct, a ∈ lettersIn tr) ∧ s₀.picCount ∈ solvedIn tr)

/-- **What one calm move does to the logo.** -/
theorem Guessed.step {tr : List (Move Quiz Event)} (h : Guessed s₀ tr s)
    (hblank : [] ∉ s₀.correct) {e : Event} (hs : step U names s e = some s')
    (hcalm : Calm ⟨s, e, s'⟩) : Guessed s₀ (tr ++ [⟨s, e, s'⟩]) s' := by
  have hsolvedIn : solvedIn (tr ++ [⟨s, e, s'⟩]) = solvedIn tr ++ (solvedBy ⟨s, e, s'⟩).toList :=
    filterMap_concat solvedBy tr _
  rcases h with ⟨hopen, hnil, hsp⟩ | ⟨hall, hmem⟩
  · cases e with
    | start rnd => exact absurd hcalm id
    | tap ρ i rnd =>
        have hi : i < (s.row ρ).length := hcalm
        have hc : (s.row ρ)[i]? = some (s.row ρ)[i] := List.getElem?_eq_getElem hi
        have hset := toFinset_lettersIn tr (m := ⟨s, .tap ρ i rnd, s'⟩) hc
        have hopen' : ∃ a ∈ s₀.correct, a ∉ (lettersIn tr).toFinset := by simpa using hopen
        obtain ⟨-, hlast, hmore⟩ := hsp.tap hblank hopen' hc hs
        by_cases hcover : ∀ a ∈ s₀.correct, a ∈ insert (s.row ρ)[i] (lettersIn tr).toFinset
        · refine Or.inr ⟨?_, ?_⟩
          · intro a ha
            rw [← List.mem_toFinset, hset]
            exact hcover a ha
          · rw [hsolvedIn, (hlast hcover).1]
            exact List.mem_append_right _ (List.mem_singleton_self _)
        · push Not at hcover
          obtain ⟨hnone, hsp'⟩ := hmore hcover
          refine Or.inl ⟨?_, ?_, hset ▸ hsp'⟩
          · obtain ⟨a, ha, hnot⟩ := hcover
            exact ⟨a, ha, by rwa [← List.mem_toFinset, hset]⟩
          · rw [hsolvedIn, hnil, hnone]
            rfl
    | tick rnd =>
        have hpos : 0 < s.timeinmin := hcalm
        have hletters : lettersIn (tr ++ [⟨s, .tick rnd, s'⟩]) = lettersIn tr := by
          rw [lettersIn_concat]
          exact List.append_nil _
        rw [Guessed, hletters, hsolvedIn, hnil]
        refine Or.inl ⟨hopen, rfl, ?_⟩
        obtain ⟨-, rfl⟩ := of_guard hs
        rcases tick_of_pos U rnd hsp.mounted hsp.timer hpos with htick | htick
        · rw [htick]
          exact { hsp with }
        · rw [htick]
          exact { hsp with }
  · refine Or.inr ⟨?_, ?_⟩
    · intro a ha
      rw [lettersIn_concat]
      exact List.mem_append_left _ (hall a ha)
    · rw [hsolvedIn]
      exact List.mem_append_left _ hmem

/-- **What becomes of a dealt logo in any sequence of calm moves.** -/
theorem Spread.guessed (h₀ : Spread U s₀) (hne : s₀.correct ≠ []) {tr : List (Move Quiz Event)}
    (h : Run (step U names) s₀ tr s) (hcalm : ∀ m ∈ tr, Calm m) : Guessed s₀ tr s := by
  refine Run.invariant (I := fun tr s => (∀ m ∈ tr, Calm m) → Guessed s₀ tr s) ?_ ?_ h hcalm
  · intro _
    obtain ⟨a, ha⟩ := List.exists_mem_of_ne_nil _ hne
    exact Or.inl ⟨⟨a, ha, List.not_mem_nil⟩, rfl, h₀.spelled⟩
  · intro tr s e s' _ ih hs hcalm
    have hg := ih fun m hm => hcalm m (List.mem_append_left _ hm)
    exact hg.step h₀.nil_notMem hs (hcalm ⟨s, e, s'⟩ (by simp))

/-- **The text depends only on the set of the tapped letters.**  Let a move of any session deal the
logo `k`, whose path is well-formed, and let any cards on the screen be tapped in any order, while
the time does not run out.  The logo has been solved exactly when the tapped letters include every
letter of its answer.  Until then the text shows the tapped letters and no others, the score is as
before and `task` has not been called; one more tap on a letter that does not occur changes neither
the text nor the rows nor the score, and a tap adds a point and calls `task` exactly when it
completes the set; and any other sequence of taps with the same set of letters leads to the same
text. -/
theorem taps_spell {tr₀ : List (Move Session Session.Event)} {s₁ s₀ : Session} {e : Session.Event}
    {k : ℕ} {p : Str} (h₁ : Run (Session.step U names) {} tr₀ s₁)
    (hs₁ : Session.step U names s₁ e = some s₀) (hd : Session.dealtBy ⟨s₁, e, s₀⟩ = some k)
    (hp : s₀.quiz.images[k]? = some p) (hw : WellFormed p) {tr : List (Move Quiz Event)}
    (h : Run (step U names) s₀.quiz tr s) (hcalm : ∀ m ∈ tr, Calm m) :
    (k ∈ solvedIn tr ↔ ∀ a ∈ s₀.quiz.correct, a ∈ lettersIn tr) ∧
      (k ∉ solvedIn tr →
        s.correct = s₀.quiz.correct ∧
        s.text = s.correct.map (fun a => if a ∈ lettersIn tr then a else []) ∧
        s.obtScore = s₀.quiz.obtScore ∧ s.calls = s₀.quiz.calls ∧
        (∀ ρ i rnd c s', (s.row ρ)[i]? = some c → step U names s (.tap ρ i rnd) = some s' →
          (c ∉ s.correct → s'.text = s.text ∧ s'.r1 = s.r1 ∧ s'.r2 = s.r2 ∧ s'.r3 = s.r3 ∧
            s'.obtScore = s.obtScore) ∧
          ((∀ a ∈ s.correct, a ∈ c :: lettersIn tr) →
            s'.obtScore = s.obtScore + 1 ∧ s'.calls.length = s.calls.length + 1) ∧
          ((∃ a ∈ s.correct, a ∉ c :: lettersIn tr) →
            s'.obtScore = s.obtScore ∧ s'.calls = s.calls)) ∧
        ∀ tr' s', Run (step U names) s₀.quiz tr' s' → (∀ m ∈ tr', Calm m) →
          (∀ a, a ∈ lettersIn tr' ↔ a ∈ lettersIn tr) → s'.text = s.text) := by
  obtain ⟨hspread, hk⟩ := Session.spread_of_run h₁ hs₁ hd
  rw [← hk] at hp
  have hne : s₀.quiz.correct ≠ [] := hspread.correct_ne_nil hp hw
  have hblank := hspread.nil_notMem
  rcases hspread.guessed hne h hcalm with ⟨hopen, hnil, hsp⟩ | ⟨hall, hmem⟩
  · refine ⟨?_, fun _ => ⟨hsp.correct, ?_, hsp.score, hsp.calls, ?_, ?_⟩⟩
    · obtain ⟨a, ha, hnot⟩ := hopen
      simp only [hnil, List.not_mem_nil, false_iff, not_forall]
      exact ⟨a, ha, hnot⟩
    · rw [hsp.text, hsp.correct, mask]
      simp only [List.mem_toFinset]
    · intro ρ i rnd c s' hc hs
      have hopen' : ∃ a ∈ s₀.quiz.correct, a ∉ (lettersIn tr).toFinset := by simpa using hopen
      obtain ⟨hmiss, hlast, hmore⟩ := hsp.tap hblank hopen' hc hs
      rw [hsp.correct]
      refine ⟨?_, ?_, ?_⟩
      · intro hnot
        rw [hmiss hnot]
        exact ⟨rfl, rfl, rfl, rfl, rfl⟩
      · intro hcover
        exact (hlast (by simpa using hcover)).2
      · rintro ⟨a, ha, hnot⟩
        have hsp' := (hmore ⟨a, ha, by simpa using hnot⟩).2
        exact ⟨hsp'.score.trans hsp.score.symm, hsp'.calls.trans hsp.calls.symm⟩
    · intro tr' s' h' hcalm' hsame
      rcases hspread.guessed hne h' hcalm' with ⟨-, -, hsp'⟩ | ⟨hall', -⟩
      · rw [hsp.text, hsp'.text]
        refine mask_congr [] ?_
        intro a _
        simpa using hsame a
      · obtain ⟨a, ha, hnot⟩ := hopen
        exact absurd ((hsame a).1 (hall' a ha)) hnot
  · rw [hk] at hmem
    exact ⟨⟨fun _ => hall, fun _ => hmem⟩, fun hnot => absurd hmem hnot⟩

end

/-- Start deals a logo with the answer `AB`, and a card with the letter `A` is tapped; a tap on the
letter `B` would solve the logo. -/
theorem taps_spell_pairPath :
    ∃ tr₀ s₀ tr s, Run (Session.step .ascii [pairPath, pairPath]) {} tr₀ s₀ ∧
      Run (step .ascii [pairPath, pairPath]) s₀.quiz tr s ∧ lettersIn tr = [['A']] ∧
      s.text = s.correct.map (fun a => if a ∈ lettersIn tr then a else []) ∧
      s.correct = [['A'], ['B']] ∧
      ∃ s', step .ascii [pairPath, pairPath] s (.tap .r1 0 (onlyDraws 1)) = some s' ∧
        s'.obtScore = s.obtScore + 1 := by
  have hpress : Session.step .ascii [pairPath, pairPath] {} (.press (onlyDraws 0)) =
      some ⟨{}, [.getInstance], true⟩ := rfl
  have hbegin : Session.step .ascii [pairPath, pairPath] ⟨{}, [.getInstance], true⟩
      (.resume 0 (onlyDraws 0)) = some ⟨{}, [.getString], true⟩ := rfl
  have hload : Session.step .ascii [pairPath, pairPath] ⟨{}, [.getString], true⟩
      (.resume 0 (onlyDraws 0)) =
        some ⟨({} : Quiz).getImEnd [pairPath, pairPath], [.getIm], true⟩ := rfl
  have hdeal : Session.step .ascii [pairPath, pairPath]
      ⟨({} : Quiz).getImEnd [pairPath, pairPath], [.getIm], true⟩ (.resume 0 (onlyDraws 0)) =
        some ⟨(pressStart .ascii [pairPath, pairPath] (onlyDraws 0) {}).state, [], true⟩ := rfl
  have htap : step .ascii [pairPath, pairPath]
      (pressStart .ascii [pairPath, pairPath] (onlyDraws 0) {}).state (.tap .r1 0 (onlyDraws 1)) =
      some (onTapR1 .ascii (onlyDraws 1) 0
        (pressStart .ascii [pairPath, pairPath] (onlyDraws 0) {}).state).state := rfl
  have hrun := ((Run.single hpress).snoc hbegin).snoc hload
  obtain ⟨-, hopen⟩ := taps_spell (k := 0) hrun hdeal (by decide) rfl wellFormed_pairPath
    (Run.single htap) (by simp only [List.forall_mem_singleton, Calm]; decide)
  obtain ⟨-, htext, -, -, hnext, -⟩ := hopen (by decide)
  -- the first card of the row has the other letter now
  have hsolve := (hnext .r1 0 (onlyDraws 1) ['B'] _ (by decide) rfl).2.1 (by decide)
  exact ⟨_, _, _, _, hrun.snoc hdeal, Run.single htap, by decide, htext, by decide, _, rfl,
    hsolve.1⟩

end Quiz

end LogoGuess
