/-
**The letters on the cards.**

The letters of the answer are mixed with random ones and dealt to three rows of five cards.  A tap
on a letter of the answer shows it at all its positions and takes one card away, so a card that is
still needed might get lost on the way.  It does not: the card that is taken away shows a letter
that is no longer hidden.

Main definitions:

* `LogoGuess.Rand.Lawful` — `randomAlpha` answers with as many letters as it is asked for, and
  `shuffle` permutes;
* `LogoGuess.Quiz.FullBank` — the cards right after a logo has been dealt;
* `LogoGuess.Quiz.Stocked` — every hidden letter is on a card;
* `LogoGuess.Quiz.Displayed` — a logo is on display, with the letters of a given set shown.

Main results:

* `LogoGuess.Quiz.Effect.stocked` — no event takes away a card that is still needed;
* `LogoGuess.Quiz.Displayed.exists_solution` — tapping one card for each hidden letter, in any
  order, solves the logo;
* `LogoGuess.Quiz.letters_suffice` — **every logo on display can be solved**.
-/

import LogoGuess.QuizScore

set_option relaxedAutoImplicit false
set_option autoImplicit false

namespace LogoGuess

open Dart EventLoop Guessing

/-- **The random sources keep their promises.** -/
structure Rand.Lawful (rnd : Rand) : Prop where
  alpha : ∀ k, (rnd.randomAlpha k).length = k
  shuffle : ∀ l, (rnd.shuffle l).Perm l

namespace Quiz

/-- The random sources of an event. -/
def Event.rand : Event → Rand
  | .start rnd => rnd
  | .tap _ _ rnd => rnd
  | .tick rnd => rnd

/-- The letter of the card that a move taps. -/
def tappedBy (m : Move Quiz Event) : Option Str :=
  match m.event with
  | .tap ρ i _ => (m.pre.row ρ)[i]?
  | _ => none

/-- The letters of all cards. -/
def cards (s : Quiz) : List Str := s.r1 ++ s.r2 ++ s.r3

/-- **The cards of a logo that has just been dealt**: three rows of five, with the letters of the
answer and enough other letters to make fifteen. -/
structure FullBank (U : CaseMap) (names : List Str) (s : Quiz) : Prop where
  row1 : s.r1.length = 5
  row2 : s.r2.length = 5
  row3 : s.r3.length = 5
  answer : s.correct = word U names s.picCount
  fill : ∃ fill : List Str, fill.length + s.correct.length = 15 ∧
    s.cards.Perm (s.correct ++ fill)

/-- **Every hidden letter is on a card**, and no answer is laid out inside the redraw loop and at
the end. -/
structure Stocked (s : Quiz) : Prop where
  away : s.ended = true ∨ s.inLoop = true → s.correct = []
  bank : ∀ a, Hides [] s.correct s.text a → a ∈ s.cards

section

variable {U : CaseMap} {names : List Str} {s s' : Quiz} {rnd : Rand}

/-! ### Dealing the cards -/

/-- A list of at most fifteen letters is distributed completely. -/
theorem take_rows {l : List Str} (h : l.length ≤ 15) :
    l.take 5 ++ (l.drop 5).take 5 ++ (l.drop 10).take 5 = l := by
  have hlast : (l.drop 10).take 5 = l.drop 10 := List.take_of_length_le (by simp; omega)
  have hmid : (l.drop 5).drop 5 = l.drop 10 := List.drop_drop
  rw [hlast, List.append_assoc, ← hmid, List.take_append_drop, List.take_append_drop]

/-- The bank of a title: the letters of the answer and the others. -/
theorem bank_perm (hrnd : rnd.Lawful) (t : Str) :
    (bank U rnd t).Perm
      (letters U t ++ (rnd.randomAlpha (15 - (letters U t).length)).map U.toUpperCase) :=
  hrnd.shuffle _

theorem length_bank (hrnd : rnd.Lawful) {t : Str} (h : (answer t).length ≤ 15) :
    (bank U rnd t).length = 15 := by
  rw [(bank_perm hrnd t).length_eq, List.length_append, List.length_map, hrnd.alpha,
    letters_length]
  omega

/-- The cards of a dealt logo. -/
theorem cards_dealt (hrnd : rnd.Lawful) {k : ℕ} {p t : Str} (h : (answer t).length ≤ 15) :
    (s.dealt U rnd k p t).cards = bank U rnd t :=
  take_rows (length_bank hrnd h).le

/-- **A call of `task` that deals a logo lays out all the cards.** -/
theorem TaskResult.full {o : Outcome Cut Quiz} (hr : TaskResult U rnd s o) (hrnd : rnd.Lawful)
    (himg : s.images = names) (hl : o.state.loopCount = s.loopCount + 1) :
    FullBank U names o.state := by
  obtain ⟨k, p, t, rfl, hp, ht, hlen⟩ := hr.exists_dealt hl
  rw [himg] at hp
  have hbank := length_bank (U := U) hrnd hlen
  refine ⟨?_, ?_, ?_, (word_eq hp ht).symm,
    (rnd.randomAlpha (15 - (letters U t).length)).map U.toUpperCase, ?_, ?_⟩
  · change ((bank U rnd t).take 5).length = 5
    rw [List.length_take, hbank]
    rfl
  · change (((bank U rnd t).drop 5).take 5).length = 5
    rw [List.length_take, List.length_drop, hbank]
    rfl
  · change (((bank U rnd t).drop 10).take 5).length = 5
    rw [List.length_take, List.length_drop, hbank]
    rfl
  · change _ + (letters U t).length = 15
    rw [List.length_map, hrnd.alpha, letters_length]
    omega
  · rw [Outcome.state_done, cards_dealt hrnd hlen]
    exact bank_perm hrnd t

/-- **A call of `task` leaves every hidden letter on a card.** -/
theorem TaskResult.stocked {o : Outcome Cut Quiz} (hr : TaskResult U rnd s o)
    (hw : ∀ p ∈ names, WellFormed p) (hrnd : rnd.Lawful) (hc : Called names s) :
    Stocked o.state := by
  have hnil : ∀ {s'' : Quiz}, s''.correct = [] → Stocked s'' := by
    intro s'' h
    refine ⟨fun _ => h, ?_⟩
    intro a ha
    exact absurd ha.mem (by simp [h])
  cases hr with
  | drawing => exact hnil rfl
  | unread => exact hnil rfl
  | ending => exact hnil rfl
  | @misfit k p t hk hlt hp ht hlen =>
      rw [hc.images] at hp
      obtain ⟨t', ht', hle⟩ := dealable_iff.1 (hw p (List.mem_of_getElem? hp)).dealable
      obtain rfl := Option.some_inj.1 (ht.symm.trans ht')
      omega
  | @dealt k p t hk hlt hp ht hlen =>
      constructor
      · rintro (he | hi)
        · exact absurd (hc.ended.symm.trans he) (by simp)
        · exact absurd (hc.inLoop.symm.trans hi) (by simp)
      · intro a ha
        have hmem : a ∈ letters U t := ha.mem
        rw [Outcome.state_done, cards_dealt hrnd hlen]
        exact (bank_perm hrnd t).mem_iff.2 (List.mem_append_left _ hmem)

/-! ### Playing the cards -/

/-- A card with another letter stays where it is. -/
theorem mem_cards_played {c a : Str} {ρ : Row} (ha : a ∈ s.cards) (hne : a ≠ c) :
    a ∈ (s.played c ρ).cards := by
  have herase : ∀ {l : List Str}, a ∈ l → a ∈ l.erase c := (List.mem_erase_of_ne hne).2
  simp only [cards, List.mem_append] at ha ⊢
  cases ρ with
  | r1 => exact ha.imp_left fun h => h.imp_left herase
  | r2 => exact ha.imp_left fun h => h.imp_right herase
  | r3 => exact ha.imp_right herase

/-- **No event takes away a card that is still needed.** -/
theorem Effect.stocked (hw : ∀ p ∈ names, WellFormed p) {e : Event} (hrnd : e.rand.Lawful)
    (hcore : Core names s) (hclock : Clock s) (hi : s.inLoop = false)
    (hblank : [] ∉ s.correct) (h : Stocked s) (he : Effect U names s e s') : Stocked s' := by
  cases he with
  | start hstart _ => exact absurd (hstart.symm.trans hcore.started) (by simp)
  | idle _ => exact { h with }
  | @hit ρ _ _ c hcard hmem _ =>
      refine ⟨h.away, ?_⟩
      intro a ha
      have hc : c ≠ [] := fun hnil => hblank (hnil ▸ hmem)
      obtain ⟨ha', hne⟩ := Hides.of_reveal hc ha
      exact mem_cards_played (h.bank a ha') hne
  | @solved ρ _ _ c _ hcard _ _ hr =>
      have hend := hcore.ended_of_card hcard
      exact hr.stocked hw hrnd ((hcore.played hend c ρ).called_credited hend hi)
  | @gift _ _ c _ hcard _ _ hr =>
      have hcard' : (s.row .r1)[_]? = some c := hcard
      exact hr.stocked hw hrnd (hcore.idle.called_credited (hcore.ended_of_card hcard') hi)
  | count _ _ _ => exact { h with }
  | finish _ _ _ => exact { h with }
  | expireCut hl ht hr => exact hr.stocked hw hrnd (hcore.called_expired hclock hl ht hi)
  | expire hl ht hr _ =>
      have h' := hr.stocked hw hrnd (hcore.called_expired hclock hl ht hi)
      exact { h' with }
  | expireEnd hl ht hr _ =>
      have h' := hr.stocked hw hrnd (hcore.called_expired hclock hl ht hi)
      exact { h' with }

/-- The cards after a move that deals a logo. -/
theorem Effect.full {e : Event} (hrnd : e.rand.Lawful) (hcore : Core names s)
    (he : Effect U names s e s') (hl : s'.loopCount = s.loopCount + 1) : FullBank U names s' := by
  cases he with
  | start hstart _ => exact absurd (hstart.symm.trans hcore.started) (by simp)
  | idle _ => exact absurd_of_loopCount rfl hl
  | hit _ _ _ => exact absurd_of_loopCount rfl hl
  | solved _ _ _ hr => exact hr.full hrnd hcore.images hl
  | gift _ _ _ hr => exact hr.full hrnd hcore.images hl
  | count _ _ _ => exact absurd_of_loopCount rfl hl
  | finish _ _ _ => exact absurd_of_loopCount rfl hl
  | expireCut _ _ hr => exact hr.full hrnd hcore.images hl
  | expire _ _ hr _ =>
      have h' := hr.full hrnd hcore.images hl
      exact { h' with }
  | expireEnd _ _ hr _ =>
      have h' := hr.full hrnd hcore.images hl
      exact { h' with }

/-! ### Every run -/

/-- The blank is not a letter of the answer that is laid out. -/
theorem nil_notMem_correct (hn : 0 < names.length) (hw : ∀ p ∈ names, WellFormed p)
    {tr : List (Move Quiz Event)} (h : Play U names tr s) (hne : tr ≠ []) (hs : Stocked s) :
    [] ∉ s.correct := by
  obtain ⟨-, g, -, hm, -⟩ := game_of_play hn hw h hne
  by_cases hopen : s.ended = true ∨ s.inLoop = true
  · rw [hs.away hopen]
    exact List.not_mem_nil
  · obtain ⟨he, hi⟩ : s.ended = false ∧ s.inLoop = false := by simpa using hopen
    rw [(hm.shown hi he).2.1]
    exact nil_notMem_word U names s.picCount

/-- **In every run every hidden letter is on a card.** -/
theorem stocked_of_play (hn : 0 < names.length) (hw : ∀ p ∈ names, WellFormed p)
    {tr : List (Move Quiz Event)} (h : Play U names tr s)
    (hrnd : ∀ m ∈ tr, m.event.rand.Lawful) : Stocked s := by
  refine Run.invariant (I := fun tr s => (∀ m ∈ tr, m.event.rand.Lawful) → Stocked s) ?_ ?_ h hrnd
  · intro _
    exact ⟨fun _ => rfl, fun a ha => absurd ha.mem List.not_mem_nil⟩
  · intro tr s e s' hrun ih hs hrnd
    have hlaw : e.rand.Lawful := hrnd ⟨s, e, s'⟩ (by simp)
    have hstocked := ih fun m hm => hrnd m (List.mem_append_left _ hm)
    rcases core_of_play hn hrun with ⟨rfl, rfl⟩ | ⟨hne, hcore, hclock⟩
    · obtain ⟨rnd, o, rfl, rfl, hr⟩ := start_of_fresh hn hs
      exact hr.stocked hw hlaw (called_started names)
    · exact Effect.stocked hw hlaw hcore hclock (inLoop_of_step hs)
        (nil_notMem_correct hn hw hrun hne hstocked) hstocked (effect_of_step hn (Or.inr hcore) hs)

/-- **In every run the cards are complete right after a logo has been dealt.** -/
theorem full_of_play (hn : 0 < names.length) {tr : List (Move Quiz Event)}
    (h : Play U names tr s) {m : Move Quiz Event} (hm : m ∈ tr) (hrnd : m.event.rand.Lawful)
    (hdealt : (dealtBy m).isSome) : FullBank U names m.post := by
  have hl : m.post.loopCount = m.pre.loopCount + 1 := by
    by_contra hl
    rw [dealtBy, if_neg hl] at hdealt
    exact absurd hdealt (by simp)
  obtain ⟨tr₁, tr₂, htr⟩ := List.append_of_mem hm
  obtain ⟨hrun, hs⟩ := h.of_append htr
  rcases core_of_play hn hrun with ⟨-, hpre⟩ | ⟨-, hcore, -⟩
  · rw [hpre] at hs hl
    obtain ⟨rnd, o, he, hpost, hr⟩ := start_of_fresh hn hs
    rw [hpost] at hl ⊢
    rw [he] at hrnd
    exact hr.full hrnd rfl hl
  · exact (effect_of_step hn (Or.inr hcore) hs).full hrnd hcore hl

/-! ### Without paths -/

/-- The screen without paths: nothing is ever laid out. -/
structure Bare (s : Quiz) : Prop where
  images : s.images = []
  correct : s.correct = []
  r1 : s.r1 = []
  r2 : s.r2 = []
  r3 : s.r3 = []

/-- A handler that keeps the screen bare, also when it is cut short. -/
def KeepsBare (f : Quiz → Outcome Cut Quiz) : Prop :=
  ∀ s, Bare s → (f s).Ends Bare fun _ => Bare

theorem keepsBare_setState {f : Quiz → Outcome Cut Quiz} (h : KeepsBare f) :
    KeepsBare (setState f) := by
  intro s hs
  rw [setState]
  by_cases hm : s.mounted = true
  · rw [if_pos hm]
    exact h s hs
  · rw [if_neg hm]
    exact hs

theorem keepsBare_cancel : KeepsBare cancel := by
  intro s hs
  rw [cancel]
  cases s.timer with
  | none => exact hs
  | some t => exact { hs with }

theorem keepsBare_task (U : CaseMap) (rnd : Rand) : KeepsBare (task U rnd) := by
  intro s hs
  rw [task_of_empty U rnd (by simp [hs.images])]
  exact ⟨hs.images, rfl, rfl, rfl, rfl⟩

theorem keepsBare_start (U : CaseMap) (rnd : Rand) : KeepsBare (pressStart U [] rnd) := by
  intro s hs
  refine keepsBare_setState (f := fun s =>
    (if s.start = .next then s.cancel else .done s).bind fun s => task U rnd s.advance) ?_ _
    { hs with images := rfl }
  intro s hs
  refine Outcome.Ends.bind (P := Bare) ?_ fun s hs => keepsBare_task U rnd _ ?_
  · by_cases hstart : s.start = .next
    · rw [if_pos hstart]
      exact keepsBare_cancel s hs
    · rw [if_neg hstart]
      exact hs
  · rw [advance, getstart]
    split
    · exact { hs with }
    · exact { hs with }

theorem keepsBare_onTap (U : CaseMap) (rnd : Rand) (ρ : Row) (i : ℕ) :
    KeepsBare (onTap U rnd ρ i) := by
  cases ρ with
  | r1 =>
      apply keepsBare_setState
      intro s hs
      simp only [hs.r1, List.getElem?_nil]
      exact { hs with r1 := rfl }
  | r2 =>
      apply keepsBare_setState
      intro s hs
      simp only [row, hs.r2, List.getElem?_nil]
      exact { hs with r2 := rfl }
  | r3 =>
      apply keepsBare_setState
      intro s hs
      simp only [row, hs.r3, List.getElem?_nil]
      exact { hs with r3 := rfl }

theorem keepsBare_tick (U : CaseMap) (rnd : Rand) : KeepsBare (tick U rnd) := by
  intro s hs
  refine Outcome.Ends.bind (P := Bare) ?_ (keepsBare_setState ?_)
  · by_cases hm : s.mounted = true
    · rw [if_pos hm]
      refine keepsBare_setState ?_ s hs
      intro s hs
      rw [countdown]
      by_cases ht : 0 < s.timeinmin
      · rw [if_pos ht]
        exact { hs with }
      · rw [if_neg ht]
        refine Outcome.Ends.bind (keepsBare_task U rnd _ { hs with }) ?_
        intro s hs
        exact { hs with }
    · rw [if_neg hm]
      exact hs
  · intro s hs
    rw [leave]
    by_cases he : s.ended = true
    · rw [if_pos he]
      refine Outcome.Ends.bind (keepsBare_cancel s hs) ?_
      intro s hs
      exact { hs with }
    · rw [if_neg he]
      exact hs

/-- Without paths no answer is ever laid out. -/
theorem bare_of_play {tr : List (Move Quiz Event)} (h : Play U [] tr s) : Bare s := by
  refine Run.invariant (I := fun _ s => Bare s) ⟨rfl, rfl, rfl, rfl, rfl⟩ ?_ h
  intro tr s e s' _ hs hstep
  cases e with
  | start rnd =>
      obtain ⟨-, rfl⟩ := of_guard hstep
      exact (keepsBare_start U rnd s hs).state
  | tap ρ i rnd =>
      obtain ⟨-, rfl⟩ := of_guard hstep
      exact (keepsBare_onTap U rnd ρ i s hs).state
  | tick rnd =>
      obtain ⟨-, rfl⟩ := of_guard hstep
      exact (keepsBare_tick U rnd s hs).state

/-- An answer is laid out only when there are paths. -/
theorem length_pos_of_play {tr : List (Move Quiz Event)} (h : Play U names tr s)
    (hs : s.correct ≠ []) : 0 < names.length := by
  rw [List.length_pos_iff]
  rintro rfl
  exact hs (bare_of_play h).correct

/-! ### Solving the logo on display -/

/-- **A logo is on display**, with the letters of the set `S` shown and every other letter of its
answer on a card. -/
structure Displayed (names : List Str) (s : Quiz) (S : Finset Str) : Prop where
  core : Core names s
  inLoop : s.inLoop = false
  ended : s.ended = false
  text : s.text = mask [] s.correct S
  blank : [] ∉ s.correct
  bank : ∀ a ∈ s.correct, a ∉ S → a ∈ s.cards

/-- A hidden letter is on a card. -/
theorem Displayed.exists_card {S : Finset Str} (h : Displayed names s S) {a : Str}
    (ha : a ∈ s.correct) (hS : a ∉ S) :
    ∃ (ρ : Row) (i : ℕ), (s.row ρ)[i]? = some a := by
  have hrow : ∀ ρ, a ∈ s.row ρ → ∃ (ρ : Row) (i : ℕ), (s.row ρ)[i]? = some a :=
    fun ρ hmem => ⟨ρ, List.mem_iff_getElem?.1 hmem⟩
  have hmem := h.bank a ha hS
  simp only [cards, List.mem_append] at hmem
  rcases hmem with (hmem | hmem) | hmem
  · exact hrow .r1 hmem
  · exact hrow .r2 hmem
  · exact hrow .r3 hmem

/-- Tapping a hidden letter solves the logo if it is the last one, and shows the letter
otherwise. -/
theorem Displayed.tap (hn : 0 < names.length) {S : Finset Str} (h : Displayed names s S) {ρ : Row}
    {i : ℕ} {a : Str} (hc : (s.row ρ)[i]? = some a) (ha : a ∈ s.correct) (hS : a ∉ S)
    (rnd : Rand) :
    ∃ s', step U names s (.tap ρ i rnd) = some s' ∧
      ((∀ b ∈ s.correct, b ∈ insert a S) → solvedBy ⟨s, .tap ρ i rnd, s'⟩ = some s.picCount) ∧
      ((∃ b ∈ s.correct, b ∉ insert a S) → s' = s.played a ρ ∧
        solvedBy ⟨s, .tap ρ i rnd, s'⟩ = none ∧ Displayed names s' (insert a S)) := by
  have hstep : step U names s (.tap ρ i rnd) = some (onTap U rnd ρ i s).state :=
    if_pos ⟨h.inLoop, h.core.started⟩
  -- the tap completes the text exactly when `a` is the last hidden letter
  have hreveal : reveal a s.correct s.text = mask [] s.correct (insert a S) := by
    rw [h.text, reveal_mask]
  have hall : reveal a s.correct s.text = s.correct ↔ ∀ b ∈ s.correct, b ∈ insert a S := by
    rw [hreveal]
    exact mask_eq_self_iff h.blank
  have hne : s.text ≠ s.correct := fun heq =>
    hS ((mask_eq_self_iff h.blank).1 (h.text.symm.trans heq) a ha)
  refine ⟨_, hstep, ?_, ?_⟩
  · intro hlast
    rw [solvedBy_tap h.core.len hc, if_pos ⟨ha, hne, hall.2 hlast⟩]
  · rintro ⟨b, hb, hbS⟩
    have hopen : s.correct ≠ reveal a s.correct s.text := fun heq => hbS (hall.1 heq.symm b hb)
    have hs' : (onTap U rnd ρ i s).state = s.played a ρ := by
      generalize (onTap U rnd ρ i s).state = s' at hstep
      cases effect_of_step hn (Or.inr h.core) hstep with
      | idle hidle =>
          rcases hidle with hnone | ⟨c, hc', hmem, -⟩
          · exact absurd (hc.symm.trans hnone) (by simp)
          · obtain rfl := Option.some_inj.1 (hc.symm.trans hc')
            exact absurd ha hmem
      | hit hc' _ _ =>
          obtain rfl := Option.some_inj.1 (hc.symm.trans hc')
          rfl
      | solved hc' _ hsolved _ =>
          obtain rfl := Option.some_inj.1 (hc.symm.trans hc')
          exact absurd hsolved hopen
      | gift hc' hmem _ _ =>
          obtain rfl := Option.some_inj.1 (hc.symm.trans hc')
          exact absurd ha hmem
    have hnone : solvedBy ⟨s, .tap ρ i rnd, (onTap U rnd ρ i s).state⟩ = none := by
      rw [solvedBy_tap h.core.len hc, if_neg fun hsolved => hopen hsolved.2.2.symm]
    refine ⟨hs', hnone, ?_⟩
    rw [hs']
    refine ⟨h.core.played h.ended a ρ, h.inLoop, h.ended, hreveal, h.blank, ?_⟩
    intro c hc' hcS
    obtain ⟨hca, hcS'⟩ : c ≠ a ∧ c ∉ S := by simpa using hcS
    exact mem_cards_played (h.bank c hc' hcS') hca

/-- **One tap for each hidden letter, in any order, solves the logo.** -/
theorem Displayed.exists_solution (hn : 0 < names.length) (rnd : Rand) :
    ∀ {L : List Str} {s : Quiz} {S : Finset Str}, Displayed names s S → L ≠ [] → L.Nodup →
      (∀ a, a ∈ L ↔ a ∈ s.correct ∧ a ∉ S) →
      ∃ tr s', Run (step U names) s tr s' ∧ tr.map tappedBy = L.map some ∧
        (∀ m ∈ tr, m.event.rand = rnd) ∧ solvedIn tr = [s.picCount] := by
  intro L
  induction L with
  | nil =>
      intro s S _ hne
      exact absurd rfl hne
  | cons a L ih =>
      intro s S h _ hnd hL
      obtain ⟨hmem, hnd'⟩ := List.nodup_cons.1 hnd
      obtain ⟨ha, haS⟩ := (hL a).1 (List.mem_cons_self ..)
      obtain ⟨ρ, i, hc⟩ := h.exists_card ha haS
      obtain ⟨s', hstep, hlast, hopen⟩ := h.tap (U := U) hn hc ha haS rnd
      have htapped : tappedBy ⟨s, .tap ρ i rnd, s'⟩ = some a := hc
      by_cases hnil : L = []
      · refine ⟨_, s', Run.single hstep, by simp [htapped, hnil], by simp [Event.rand], ?_⟩
        have hall : ∀ b ∈ s.correct, b ∈ insert a S := by
          intro b hb
          by_contra hbS
          obtain ⟨hba, hbS'⟩ : b ≠ a ∧ b ∉ S := by simpa using hbS
          have hbL := (hL b).2 ⟨hb, hbS'⟩
          rw [hnil] at hbL
          exact hba (List.mem_singleton.1 hbL)
        simp [solvedIn, hlast hall]
      · -- another letter is hidden, so the logo stays on display
        obtain ⟨b, hb⟩ := List.exists_mem_of_ne_nil L hnil
        obtain ⟨hbc, hbS⟩ := (hL b).1 (List.mem_cons_of_mem a hb)
        have hba : b ≠ a := fun heq => hmem (heq ▸ hb)
        obtain ⟨rfl, hnone, hnext⟩ := hopen ⟨b, hbc, by simp [hba, hbS]⟩
        have hL' : ∀ c, c ∈ L ↔ c ∈ (s.played a ρ).correct ∧ c ∉ insert a S := by
          intro c
          have hcL := hL c
          change c ∈ L ↔ c ∈ s.correct ∧ c ∉ insert a S
          rw [Finset.mem_insert, not_or]
          constructor
          · intro hc
            have hin := hcL.1 (List.mem_cons_of_mem a hc)
            exact ⟨hin.1, fun heq => hmem (heq ▸ hc), hin.2⟩
          · rintro ⟨hin, hne, hcS⟩
            exact (List.mem_cons.1 (hcL.2 ⟨hin, hcS⟩)).resolve_left hne
        obtain ⟨tr, s'', hrun, htap, hrand, hsolved⟩ := ih hnext hnil hnd' hL'
        refine ⟨_, s'', (Run.single hstep).append hrun, ?_, ?_, ?_⟩
        · rw [List.map_append, htap, List.map_singleton, htapped]
          rfl
        · intro m hm
          rcases List.mem_append.1 hm with hm | hm
          · rw [List.mem_singleton.1 hm]
            rfl
          · exact hrand m hm
        · have hone : [⟨s, .tap ρ i rnd, s.played a ρ⟩].filterMap solvedBy = [] := by
            simp [hnone]
          rw [solvedIn, List.filterMap_append, hone]
          exact hsolved

/-- A logo is on display whenever an answer is laid out. -/
theorem displayed_of_play (hw : ∀ p ∈ names, WellFormed p) {tr : List (Move Quiz Event)}
    (h : Play U names tr s) (hrnd : ∀ m ∈ tr, m.event.rand.Lawful) (hs : s.correct ≠ []) :
    ∃ S, Displayed names s S ∧ s.correct = word U names s.picCount ∧ s.text ≠ s.correct := by
  have hn := length_pos_of_play h hs
  have hstocked := stocked_of_play hn hw h hrnd
  obtain ⟨he, hi⟩ : s.ended = false ∧ s.inLoop = false := by
    simpa using mt hstocked.away hs
  rcases core_of_play hn h with ⟨-, rfl⟩ | ⟨hne, hcore, -⟩
  · exact absurd rfl hs
  · obtain ⟨-, g, hg, hm, -⟩ := game_of_play hn hw h hne
    obtain ⟨-, hword, htext⟩ := hm.shown hi he
    have hblank := nil_notMem_correct hn hw h hne hstocked
    refine ⟨g.named, ⟨hcore, hi, he, htext, hblank, ?_⟩, hword,
      hm.text_ne (hg.fair hn) hi he⟩
    intro a ha haS
    refine hstocked.bank a ?_
    rw [htext]
    exact (hides_mask hblank).2 ⟨ha, haS⟩

/-- **Every logo on display can be solved.**  Right after a logo has been dealt the three rows hold
five letters each, those of the answer and enough others.  Whenever an answer is laid out, the text
has its length and shows at each position the letter of the answer or nothing; it is not complete;
every hidden letter is on a card; and tapping one card for each hidden letter, in any order and
whatever the random sources answer, solves the logo. -/
theorem letters_suffice (hw : ∀ p ∈ names, WellFormed p) {tr : List (Move Quiz Event)}
    (h : Play U names tr s) (hrnd : ∀ m ∈ tr, m.event.rand.Lawful) (hs : s.correct ≠ []) :
    (∀ m ∈ tr, (dealtBy m).isSome → FullBank U names m.post) ∧
      s.correct = word U names s.picCount ∧ s.text.length = s.correct.length ∧
      (∀ x < s.correct.length, s.text[x]? = some [] ∨ s.text[x]? = s.correct[x]?) ∧
      s.text ≠ s.correct ∧
      (∀ (x : ℕ) a, s.correct[x]? = some a → s.text[x]? = some [] → a ∈ s.r1 ++ s.r2 ++ s.r3) ∧
      ∀ L : List Str, L.Nodup → (∀ a, a ∈ L ↔ Hides [] s.correct s.text a) →
        ∀ rnd, ∃ tr' s', Run (step U names) s tr' s' ∧ tr'.map tappedBy = L.map some ∧
          (∀ m ∈ tr', m.event.rand = rnd) ∧ solvedIn tr' = [s.picCount] := by
  obtain ⟨S, hd, hword, hne⟩ := displayed_of_play hw h hrnd hs
  have hn := length_pos_of_play h hs
  have hhides : ∀ a, Hides [] s.correct s.text a ↔ a ∈ s.correct ∧ a ∉ S := by
    intro a
    rw [hd.text]
    exact hides_mask hd.blank
  refine ⟨fun m hm hdealt => full_of_play hn h hm (hrnd m hm) hdealt, hword, hd.core.len, ?_, hne,
    ?_, ?_⟩
  · intro x hx
    rw [hd.text, mask, List.getElem?_map, List.getElem?_eq_getElem hx, Option.map_some]
    by_cases hS : s.correct[x] ∈ S
    · exact Or.inr (by rw [if_pos hS])
    · exact Or.inl (by rw [if_neg hS])
  · intro x a hx ht
    obtain ⟨ha, haS⟩ := (hhides a).1 ⟨x, hx, ht⟩
    exact hd.bank a ha haS
  · intro L hnd hL rnd
    have hL' : ∀ a, a ∈ L ↔ a ∈ s.correct ∧ a ∉ S := fun a => (hL a).trans (hhides a)
    refine hd.exists_solution hn rnd ?_ hnd hL'
    -- the text is not complete, so some letter is hidden
    rintro rfl
    refine hne ?_
    rw [hd.text]
    refine (mask_eq_self_iff hd.blank).2 ?_
    intro a ha
    by_contra haS
    exact List.not_mem_nil ((hL' a).2 ⟨ha, haS⟩)

/-- Two logos: Start deals one of them. -/
theorem letters_suffice_logoPath :
    ∃ tr s, Play .ascii [logoPath, logoPath] tr s ∧ s.correct ≠ [] ∧ s.text ≠ s.correct := by
  have hexec : (exec (step .ascii [logoPath, logoPath]) {} [.start (onlyDraws 0)]).map
      (·.correct) = some [['A']] := by
    decide
  obtain ⟨tr, s, hrun, hcorrect, hev⟩ := exists_run_of_exec hexec
  have hne : s.correct ≠ [] := by simp [hcorrect]
  have hlaw : (onlyDraws 0).Lawful := ⟨fun _ => List.length_replicate, List.Perm.refl⟩
  have hrnd : ∀ m ∈ tr, m.event.rand.Lawful :=
    forall_event (P := fun e => e.rand.Lawful) hev (by simpa [Event.rand] using hlaw)
  exact ⟨tr, s, hrun, hne,
    (letters_suffice (by simpa using wellFormed_logoPath) hrun hrnd hne).2.2.2.2.1⟩

end

end Quiz

end LogoGuess
