/-
**The score counts the solved logos.**

The field `obt_score` starts at `-1` and is raised by the button, by the Done button and by the
three card handlers.  Over a list of well-formed paths a started quiz plays the game of
`LogoGuess.Guessing`: whatever the player and the timer do, the fields of the screen mirror a state
that the rules of that game allow, and `obt_score` is the number of words solved in it.

Main definitions:

* `LogoGuess.Quiz.solvedIn`, `LogoGuess.Quiz.expiredIn`, `LogoGuess.Quiz.creditedIn` — the logos
  completed by a tap, taken away by the timer, and paid for with a point in the moves of a run;
* `LogoGuess.Quiz.Mirrors` — the screen shows a given state of the game.

Main results:

* `LogoGuess.Quiz.Effect.mirrors` — every event of the quiz is a sequence of moves of the game;
* `LogoGuess.Quiz.game_of_play` — **the quiz refines the game of guessing words**;
* `LogoGuess.Quiz.score_counts_solved` — the score, the points and the arguments of `/thanks`.
-/

import LogoGuess.QuizDraw

set_option relaxedAutoImplicit false
set_option autoImplicit false

namespace LogoGuess

namespace Quiz

open Dart EventLoop Guessing

/-! ### What happens to the logos in a run -/

/-- The text after the loops of a card handler have shown the letter `c`. -/
def textWith (s : Quiz) (c : Str) (ρ : Row) : List Str := (play c ρ { s with j := [] }).state.text

/-- The logo that a move solves: a tap makes the text equal to the answer, which it was not. -/
def solvedBy (m : Move Quiz Event) : Option ℕ :=
  match m.event with
  | .tap ρ i _ =>
      (m.pre.row ρ)[i]?.bind fun c =>
        if c ∈ m.pre.correct ∧ m.pre.text ≠ m.pre.correct ∧ m.pre.textWith c ρ = m.pre.correct then
          some m.pre.picCount
        else none
  | _ => none

/-- The logo whose time a move finds used up. -/
def expiredBy (m : Move Quiz Event) : Option ℕ :=
  match m.event with
  | .tick _ => if m.pre.timeinmin = 0 then some m.pre.picCount else none
  | _ => none

/-- The logo on display when a move of the started quiz raises the score. -/
def creditedBy (m : Move Quiz Event) : Option ℕ :=
  if m.pre.start = .next ∧ m.pre.obtScore < m.post.obtScore then some m.pre.picCount else none

/-- **The logos solved in a run**, in order. -/
def solvedIn (tr : List (Move Quiz Event)) : List ℕ := tr.filterMap solvedBy

/-- **The logos taken away by the timer in a run**, in order. -/
def expiredIn (tr : List (Move Quiz Event)) : List ℕ := tr.filterMap expiredBy

/-- **The logos that a point was given for in a run**, in order. -/
def creditedIn (tr : List (Move Quiz Event)) : List ℕ := tr.filterMap creditedBy

/-- The word to guess at an index: the letters of its answer. -/
def word (U : CaseMap) (names : List Str) (k : ℕ) : List Str :=
  ((names[k]?.bind titleOf).map (letters U)).getD []

/-! ### The game behind the screen -/

/-- **The screen shows the state `g` of the game.** -/
structure Mirrors (U : CaseMap) (names : List Str) (s : Quiz) (g : Game Str) : Prop where
  drawn : g.drawn = s.repeated
  finished : g.finished = s.ended
  score : s.obtScore = g.solved.length
  /-- Until the game is over a word is on display, with the letters named for it. -/
  shown : s.inLoop = false → s.ended = false → g.shown = some s.picCount ∧
    s.correct = word U names s.picCount ∧ s.text = mask [] s.correct g.named
  /-- No word is on display inside the redraw loop and at the end. -/
  away : s.inLoop = true ∨ s.ended = true → g.shown = none

/-- The state of the game when `task` is called: no word is on display. -/
structure Between (s : Quiz) (g : Game Str) : Prop where
  drawn : g.drawn = s.repeated
  finished : g.finished = false
  score : s.obtScore = g.solved.length
  away : g.shown = none

/-- Some moves of the game, in which the listed words are solved and taken away. -/
def Moves (U : CaseMap) (names : List Str) (g g' : Game Str) (solved expired : Option ℕ) : Prop :=
  Relation.ReflTransGen (Step names.length (word U names)) g g' ∧
    g'.solved = g.solved ++ solved.toList ∧ g'.expired = g.expired ++ expired.toList

section

variable {U : CaseMap} {names : List Str} {s s' : Quiz} {g : Game Str}

theorem Moves.refl (U : CaseMap) (names : List Str) (g : Game Str) :
    Moves U names g g none none :=
  ⟨.refl, by simp, by simp⟩

/-- A move that neither solves a word nor takes one away. -/
theorem Moves.single {g' : Game Str} (h : Step names.length (word U names) g g')
    (hs : g'.solved = g.solved) (he : g'.expired = g.expired) : Moves U names g g' none none :=
  ⟨.single h, by simp [hs], by simp [he]⟩

/-- The word at an index whose path has the title `t`. -/
theorem word_eq {k : ℕ} {p t : Str} (hp : names[k]? = some p) (ht : titleOf p = some t) :
    word U names k = letters U t := by
  rw [word, hp, Option.bind_some, ht]
  rfl

/-- The blank that stands for an open position is not a letter of any word. -/
theorem nil_notMem_word (U : CaseMap) (names : List Str) (k : ℕ) : ([] : Str) ∉ word U names k := by
  intro h
  rw [word] at h
  cases ht : names[k]?.bind titleOf with
  | none => simp [ht] at h
  | some t =>
      rw [ht] at h
      exact ne_nil_of_mem_letters h rfl

/-- The answer of a well-formed path has a letter. -/
theorem letters_ne_nil_of_wellFormed {p t : Str} (hp : WellFormed p) (ht : titleOf p = some t) :
    letters U t ≠ [] := by
  obtain ⟨d, b, rfl, hb, h4, h1, -⟩ := hp
  rw [titleOf_append_cons hb, if_pos h4] at ht
  obtain rfl := Option.some_inj.1 ht
  rw [← List.length_pos_iff, letters_length]
  exact h1

/-- **A call of `task` draws a word, or ends the game**, or is still drawing. -/
theorem Between.task (hw : ∀ p ∈ names, WellFormed p) (hc : Called names s)
    {d : List ℕ} (hd : Even names d s) (h : Between s g) {rnd : Rand} {o : Outcome Cut Quiz}
    (hr : TaskResult U rnd s o) :
    ∃ g', Moves U names g g' none none ∧ Mirrors U names o.state g' := by
  have hlen : g.drawn.length = s.loopCount := by
    rw [h.drawn, hd.dealt hc.ended, hd.loop]
  have hover : s.ended = true → False := fun he => absurd (hc.ended.symm.trans he) (by simp)
  have hsafe : ∀ {k : ℕ} {p : Str}, names[k]? = some p → WellFormed p :=
    fun hp => hw _ (List.mem_of_getElem? hp)
  have hnew : ∀ {k : ℕ}, Fresh rnd s k → k < names.length ∧ k ∉ g.drawn :=
    fun hk => ⟨hc.images ▸ hk.lt, h.drawn ▸ hk.new⟩
  cases hr with
  | drawing hall =>
      refine ⟨g, Moves.refl U names g, h.drawn, h.finished.trans hc.ended.symm, h.score,
        fun hi => absurd hi (by simp), fun _ => h.away⟩
  | unread hk hlt hp ht =>
      rw [hc.images] at hp
      obtain ⟨t, ht', -⟩ := dealable_iff.1 (hsafe hp).dealable
      exact absurd (ht.symm.trans ht') (by simp)
  | misfit hk hlt hp ht hlen' =>
      rw [hc.images] at hp
      obtain ⟨t', ht', hle⟩ := dealable_iff.1 (hsafe hp).dealable
      obtain rfl := Option.some_inj.1 (ht.symm.trans ht')
      omega
  | @dealt k p t hk hlt hp ht hle =>
      rw [hc.images] at hlt hp
      have hword : word U names k = letters U t := word_eq hp ht
      have hne : word U names k ≠ [] := hword ▸ letters_ne_nil_of_wellFormed (hsafe hp) ht
      have hmove : Step names.length (word U names) g
          { g with drawn := g.drawn ++ [k], shown := some k, named := ∅ } :=
        .draw h.away h.finished (hnew hk).1 (hnew hk).2 (by omega) hne
      refine ⟨_, Moves.single hmove rfl rfl, ?_, h.finished.trans hc.ended.symm, h.score,
        fun _ _ => ⟨rfl, hword.symm, ?_⟩, ?_⟩
      · exact congrArg (· ++ [k]) h.drawn
      · change List.replicate (letters U t).length [] = mask [] (letters U t) ∅
        rw [mask_empty]
      · rintro (hi | he)
        · exact absurd (hc.inLoop.symm.trans hi) (by simp)
        · exact (hover he).elim
  | @ending k hk hlt =>
      rw [hc.images] at hlt
      have hlen' : g.drawn.length + 1 = names.length := by
        have hbound := hd.bound
        have hloop := hd.loop
        have hlt' := (hnew hk).1
        omega
      have hmove : Step names.length (word U names) g
          { g with drawn := g.drawn ++ [k], finished := true } :=
        .close h.away h.finished (hnew hk).1 (hnew hk).2 hlen'
      refine ⟨_, Moves.single hmove rfl rfl, ?_, rfl, h.score, ?_, fun _ => h.away⟩
      · exact congrArg (· ++ [k]) h.drawn
      · exact fun _ he => absurd he (by simp)

/-- Changing nothing that belongs to the game. -/
theorem Mirrors.reset (h : Mirrors U names s g) : Mirrors U names { s with timeinmin := 30 } g :=
  { h with }

theorem Mirrors.left (h : Mirrors U names s g) : Mirrors U names s.left g := { h with }

/-- The text on display is complete when all letters of the word have been named. -/
theorem Mirrors.complete_iff (h : Mirrors U names s g) (hi : s.inLoop = false)
    (he : s.ended = false) (c : Str) :
    s.correct = reveal c s.correct s.text ↔
      ∀ a ∈ word U names s.picCount, a ∈ insert c g.named := by
  obtain ⟨-, hword, htext⟩ := h.shown hi he
  rw [htext, reveal_mask, eq_comm, hword]
  exact mask_eq_self_iff (nil_notMem_word U names s.picCount)

/-- The word on display has an open letter. -/
theorem Mirrors.text_ne (h : Mirrors U names s g) (hf : Fair names.length (word U names) g)
    (hi : s.inLoop = false) (he : s.ended = false) : s.text ≠ s.correct := by
  obtain ⟨hk, hword, htext⟩ := h.shown hi he
  obtain ⟨-, -, ⟨a, ha, hnot⟩, -⟩ := hf.shown _ hk
  intro heq
  rw [htext, hword] at heq
  exact hnot ((mask_eq_self_iff (nil_notMem_word U names s.picCount)).1 heq a ha)

/-- What the loops of a card handler show. -/
theorem textWith_eq (h : s.text.length = s.correct.length) (c : Str) (ρ : Row) :
    s.textWith c ρ = reveal c s.correct s.text := by
  rw [textWith, play_eq c ρ h]
  rfl

/-- A tap on a card solves the logo if it completes the text. -/
theorem solvedBy_tap (h : s.text.length = s.correct.length) {ρ : Row} {i : ℕ} {c : Str}
    (hc : (s.row ρ)[i]? = some c) (rnd : Rand) (s' : Quiz) :
    solvedBy ⟨s, .tap ρ i rnd, s'⟩ =
      if c ∈ s.correct ∧ s.text ≠ s.correct ∧ reveal c s.correct s.text = s.correct then
        some s.picCount
      else none := by
  rw [solvedBy]
  simp only [hc, Option.bind_some, textWith_eq h]

/-- Going on from a position of the game that has been reached by `Moves`. -/
theorem Moves.trans {g₁ g₂ : Game Str} {a b : Option ℕ} (h₁ : Moves U names g g₁ a b)
    (h₂ : Moves U names g₁ g₂ none none) : Moves U names g g₂ a b := by
  refine ⟨h₁.1.trans h₂.1, ?_, ?_⟩
  · rw [h₂.2.1, h₁.2.1]
    simp
  · rw [h₂.2.2, h₁.2.2]
    simp

/-- **Every event of the quiz is a sequence of moves of the game.** -/
theorem Effect.mirrors (hw : ∀ p ∈ names, WellFormed p) {e : Event}
    (hcore : Core names s) (hclock : Clock s) (hi : s.inLoop = false) {d : List ℕ}
    (hd : Even names d s) (hf : Fair names.length (word U names) g) (h : Mirrors U names s g)
    (he : Effect U names s e s') :
    creditedBy ⟨s, e, s'⟩ = solvedBy ⟨s, e, s'⟩ ∧
      ∃ g', Moves U names g g' (solvedBy ⟨s, e, s'⟩) (expiredBy ⟨s, e, s'⟩) ∧
        Mirrors U names s' g' := by
  -- the effects that leave the score alone
  have hsame : ∀ {s'' : Quiz}, s''.obtScore = s.obtScore → creditedBy ⟨s, e, s''⟩ = none :=
    fun hs => if_neg (by simp [hs])
  -- the effects that take the word away
  have htimeout : ∀ {rnd : Rand} {o : Outcome Cut Quiz}, s.timers ≠ [] → s.timeinmin = 0 →
      TaskResult U rnd { s with loaded := false } o →
      ∃ g', Moves U names g g' none (some s.picCount) ∧ Mirrors U names o.state g' := by
    intro rnd o hl ht hr
    have hcalled := hcore.called_expired hclock hl ht hi
    have hmove : Step names.length (word U names) g
        { g with shown := none, expired := g.expired ++ [s.picCount] } :=
      .expire (h.shown hi hcalled.ended).1
    have hbetween : Between { s with loaded := false }
        { g with shown := none, expired := g.expired ++ [s.picCount] } :=
      ⟨h.drawn, h.finished.trans hcalled.ended, h.score, rfl⟩
    have hd' : Even names d { s with loaded := false } := { hd with }
    obtain ⟨g', hg', hm⟩ := hbetween.task hw hcalled hd' hr
    exact ⟨g', Moves.trans ⟨.single hmove, by simp, rfl⟩ hg', hm⟩
  cases he with
  | start hstart _ => exact absurd (hstart.symm.trans hcore.started) (by simp)
  | @idle ρ i rnd hidle =>
      have hnone : solvedBy ⟨s, .tap ρ i rnd, { s with j := [] }⟩ = none := by
        rcases hidle with hc | ⟨c, hc, hmem, -⟩
        · simp [solvedBy, hc]
        · rw [solvedBy_tap hcore.len hc, if_neg fun hall => hmem hall.1]
      rw [hnone]
      exact ⟨hsame rfl, g, Moves.refl U names g, { h with }⟩
  | @hit ρ i rnd c hc hmem hopen =>
      have hend := hcore.ended_of_card hc
      obtain ⟨hk, hword, htext⟩ := h.shown hi hend
      have hnone : solvedBy ⟨s, .tap ρ i rnd, s.played c ρ⟩ = none := by
        rw [solvedBy_tap hcore.len hc, if_neg fun hall => hopen hall.2.2.symm]
      have hleft : ∃ a ∈ word U names s.picCount, a ∉ insert c g.named := by
        by_contra hall
        push Not at hall
        exact hopen ((h.complete_iff hi hend c).2 hall)
      rw [hnone]
      refine ⟨hsame rfl, _, Moves.single (.guess c hk hleft) rfl rfl, ?_⟩
      refine ⟨h.drawn, h.finished, h.score, fun _ _ => ⟨hk, hword, ?_⟩, h.away⟩
      change reveal c s.correct s.text = mask [] s.correct (insert c g.named)
      rw [htext, reveal_mask]
  | @solved ρ i rnd c o hc hmem hall hr =>
      have hend := hcore.ended_of_card hc
      have hk := (h.shown hi hend).1
      have hsome : solvedBy ⟨s, .tap ρ i rnd, o.state⟩ = some s.picCount := by
        rw [solvedBy_tap hcore.len hc, if_pos ⟨hmem, h.text_ne hf hi hend, hall.symm⟩]
      have hcredit : creditedBy ⟨s, .tap ρ i rnd, o.state⟩ = some s.picCount := by
        have hscore : o.state.obtScore = s.obtScore + 1 := hr.framed.obtScore
        refine if_pos ⟨hcore.started, ?_⟩
        change s.obtScore < o.state.obtScore
        omega
      have hmove : Step names.length (word U names) g
          { g with shown := none, solved := g.solved ++ [s.picCount] } :=
        .solve c hk ((h.complete_iff hi hend c).1 hall)
      have hbetween : Between (s.played c ρ).credited
          { g with shown := none, solved := g.solved ++ [s.picCount] } := by
        refine ⟨h.drawn, h.finished.trans hend, ?_, rfl⟩
        change s.obtScore + 1 = ((g.solved ++ [s.picCount]).length : ℤ)
        rw [h.score, List.length_append, List.length_singleton]
        omega
      have hcalled := (hcore.played hend c ρ).called_credited hend hi
      have hd' : Even names d (s.played c ρ).credited := { hd with }
      obtain ⟨g', hg', hm⟩ := hbetween.task hw hcalled hd' hr
      rw [hsome, hcredit]
      exact ⟨rfl, g', Moves.trans ⟨.single hmove, rfl, by simp [expiredBy]⟩ hg', hm⟩
  | @gift i rnd c o hc hmem hall hr =>
      have hc' : (s.row .r1)[i]? = some c := hc
      exact absurd hall.symm (h.text_ne hf hi (hcore.ended_of_card hc'))
  | @count rnd hl ht hend =>
      have hnone : expiredBy ⟨s, .tick rnd, s.counted⟩ = none := if_neg ht.ne'
      rw [hnone]
      exact ⟨hsame rfl, g, Moves.refl U names g, { h with }⟩
  | @finish rnd hl ht hend =>
      have hnone : expiredBy ⟨s, .tick rnd, s.counted.left⟩ = none := if_neg ht.ne'
      rw [hnone]
      exact ⟨hsame rfl, g, Moves.refl U names g, { h with }⟩
  | @expireCut rnd _ _ hl ht hr =>
      have hsome : expiredBy ⟨s, .tick rnd, s'⟩ = some s.picCount := if_pos ht
      rw [hsome]
      exact ⟨hsame hr.framed.obtScore, htimeout hl ht hr⟩
  | @expire rnd s₁ hl ht hr hend =>
      have hsome : expiredBy ⟨s, .tick rnd, { s₁ with timeinmin := 30 }⟩ = some s.picCount :=
        if_pos ht
      obtain ⟨g', hg', hm⟩ := htimeout hl ht hr
      rw [hsome]
      exact ⟨hsame hr.framed.obtScore, g', hg', hm.reset⟩
  | @expireEnd rnd s₁ hl ht hr hend =>
      have hsome : expiredBy ⟨s, .tick rnd, { s₁ with timeinmin := 30 }.left⟩ = some s.picCount :=
        if_pos ht
      obtain ⟨g', hg', hm⟩ := htimeout hl ht hr
      rw [hsome]
      exact ⟨hsame hr.framed.obtScore, g', hg', hm.reset.left⟩

/-! ### Every run -/

/-- On a fresh screen the game has not begun. -/
theorem between_begun (names : List Str) : Between (({} : Quiz).begun names) Game.initial :=
  ⟨rfl, rfl, rfl, rfl⟩

/-- **The quiz refines the game of guessing words**: after every run the screen shows a reachable
state of the game, in which the solved words are those solved by taps and the expired ones those
taken away by the timer; and the points have been given for the solved ones. -/
theorem game_of_play (hn : 0 < names.length) (hw : ∀ p ∈ names, WellFormed p)
    {tr : List (Move Quiz Event)} (h : Play U names tr s) (hne : tr ≠ []) :
    creditedIn tr = solvedIn tr ∧
      ∃ g, Reachable names.length (word U names) g ∧ Mirrors U names s g ∧
        g.solved = solvedIn tr ∧ g.expired = expiredIn tr := by
  have hsafe : Safe names := safe_of_wellFormed hw
  refine Run.invariant (I := fun tr s => tr ≠ [] → creditedIn tr = solvedIn tr ∧
      ∃ g, Reachable names.length (word U names) g ∧ Mirrors U names s g ∧
        g.solved = solvedIn tr ∧ g.expired = expiredIn tr) (fun hnil => absurd rfl hnil) ?_ h hne
  intro tr s e s' hrun ih hs _
  rcases core_of_play hn hrun with ⟨rfl, rfl⟩ | ⟨hne, hcore, hclock⟩
  · obtain ⟨rnd, o, rfl, rfl, hr⟩ := start_of_fresh hn hs
    obtain ⟨g, hg, hm⟩ :=
      (between_begun names).task hw (called_started names) (even_begun names) hr
    refine ⟨by simp [creditedIn, solvedIn, creditedBy, solvedBy], g, hg.1, hm, ?_, ?_⟩
    · exact hg.2.1
    · exact hg.2.2
  · obtain ⟨hcredit, g, hg, hm, hsolved, hexpired⟩ := ih hne
    obtain ⟨hcredit', g', hg', hm'⟩ := Effect.mirrors hw hcore hclock (inLoop_of_step hs)
      (even_of_play hn hsafe hrun) (hg.fair hn) hm (effect_of_step hn (Or.inr hcore) hs)
    refine ⟨?_, g', hg.trans hg'.1, hm', ?_, ?_⟩
    · rw [creditedIn, solvedIn, filterMap_concat, filterMap_concat, hcredit']
      exact congrArg (· ++ _) hcredit
    · rw [solvedIn, filterMap_concat, hg'.2.1, hsolved, solvedIn]
    · rw [expiredIn, filterMap_concat, hg'.2.2, hexpired, expiredIn]

/-- The played words of the game have been dealt. -/
theorem Mirrors.played_subset (h : Mirrors U names s g)
    (hf : Fair names.length (word U names) g) {d : List ℕ} (hd : Even names d s) :
    g.played ⊆ d := by
  cases he : s.ended with
  | false =>
      rw [← hd.dealt he, ← h.drawn]
      exact hf.played_sublist.2.1
  | true =>
      -- the last draw ended the game and was not played
      obtain ⟨k, hk, -⟩ := hd.last he
      obtain ⟨-, -, d', k', hd', hplayed⟩ := hf.finished (h.finished.trans he)
      have heq : d' ++ [k'] = d ++ [k] := by rw [← hd', h.drawn, hk]
      rw [← (List.append_inj_left' heq rfl)]
      exact hplayed.subset

/-- The screen is left with the number of solved logos, which is below the number of paths. -/
theorem pushed_of_play (hn : 0 < names.length) (hw : ∀ p ∈ names, WellFormed p)
    {tr : List (Move Quiz Event)} (h : Play U names tr s) {sc : Score} (hsc : sc ∈ s.pushed) :
    (solvedIn tr).length ≤ names.length - 1 ∧
      sc = ⟨intToString (solvedIn tr).length, intToString names.length⟩ := by
  rcases core_of_play hn h with ⟨-, rfl⟩ | ⟨hne, hcore, -⟩
  · exact absurd hsc List.not_mem_nil
  · obtain ⟨-, g, hg, hm, hsolved, -⟩ := game_of_play hn hw h hne
    obtain ⟨hend, -, hpush⟩ := hcore.gone (List.ne_nil_of_mem hsc)
    have hlen := (hg.fair hn).played_sublist.2.2.2 (hm.finished.trans hend)
    rw [Game.played, List.length_append, hsolved] at hlen
    rw [hpush, List.mem_singleton, hm.score, hsolved, hcore.total] at hsc
    exact ⟨by omega, hsc⟩

/-- Two logos: the first one is solved, and the next tick leaves with the score `1` out of `2`. -/
theorem exists_play_solved : ∃ tr s, Play .ascii [logoPath, logoPath] tr s ∧ tr ≠ [] ∧
    s.pushed = [⟨['1'], ['2']⟩] := by
  have hexec : (exec (step .ascii [logoPath, logoPath]) {}
      [.start (onlyDraws 0), .tap .r1 0 (onlyDraws 1), .tick (onlyDraws 0)]).map (·.pushed) =
        some [⟨['1'], ['2']⟩] := by
    decide
  obtain ⟨tr, s, hrun, hpushed, hev⟩ := exists_run_of_exec hexec
  refine ⟨tr, s, hrun, ?_, hpushed⟩
  rintro rfl
  exact absurd hev (by simp)

/-- **The score counts the solved logos.**  In every state of every run after the press on Start:
the score is the number of logos solved by taps; the points are given for these logos, for each of
them once and for none that the timer took away; neither the Next nor the Done button is on the
screen; and the arguments of `/thanks` are the number of solved logos, which is below the number of
paths, and the number of paths. -/
theorem score_counts_solved (hn : 1 ≤ names.length) (hw : ∀ p ∈ names, WellFormed p)
    {tr : List (Move Quiz Event)} (h : Play U names tr s) (hne : tr ≠ []) :
    s.obtScore = (solvedIn tr).length ∧ creditedIn tr = solvedIn tr ∧ (solvedIn tr).Nodup ∧
      solvedIn tr ⊆ dealtIn tr ∧ (solvedIn tr).Disjoint (expiredIn tr) ∧
      s.visible = false ∧ s.nextEnabled = false ∧ s.doneEnabled = false ∧
      ∀ sc ∈ s.pushed, (solvedIn tr).length ≤ names.length - 1 ∧
        sc = ⟨intToString (solvedIn tr).length, intToString names.length⟩ := by
  have hsafe : Safe names := safe_of_wellFormed hw
  obtain ⟨hcredit, g, hg, hm, hsolved, hexpired⟩ := game_of_play hn hw h hne
  have hf := hg.fair hn
  rcases core_of_play hn h with ⟨rfl, -⟩ | ⟨-, hcore, -⟩
  · exact absurd rfl hne
  refine ⟨by rw [hm.score, hsolved], hcredit, ?_, ?_, ?_, hcore.hidden, ?_, ?_,
    fun sc hsc => pushed_of_play hn hw h hsc⟩
  · rw [← hsolved]
    exact hf.solved_nodup
  · intro k hk
    refine hm.played_subset hf (even_of_play hn hsafe h) ?_
    exact List.mem_append_left _ (hsolved ▸ hk)
  · rw [← hsolved, ← hexpired]
    exact hf.disjoint
  · rw [nextEnabled, hcore.hidden, Bool.and_false]
  · rw [doneEnabled, hcore.hidden, Bool.and_false]

theorem score_counts_solved_logoPath :
    ∃ tr s, Play .ascii [logoPath, logoPath] tr s ∧ s.pushed = [⟨['1'], ['2']⟩] ∧
      s.obtScore = (solvedIn tr).length := by
  obtain ⟨tr, s, hrun, hne, hpushed⟩ := exists_play_solved
  exact ⟨tr, s, hrun, hpushed,
    (score_counts_solved (by decide) (by simpa using wellFormed_logoPath) hrun hne).1⟩

end

end Quiz

end LogoGuess
