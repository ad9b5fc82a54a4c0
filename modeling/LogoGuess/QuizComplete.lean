/-
**The quiz plays the whole game.**

`LogoGuess.QuizScore` shows that whatever is tapped and whenever the timer ticks, the screen mirrors
a state that the rules of the game of guessing words allow.  This module shows the converse: every
state of that game in which a word is on display or the game is over is mirrored by some run of the
quiz, with suitable taps, ticks and draws.  Naming a letter is a tap on a card that shows it, and
there is one as long as the letter is hidden; a word expires when the timer has run down; and the
draws are those of a random source that answers with the index the game draws next.

Together the two directions say that nothing is lost and nothing is added: the results that the
quiz can show are exactly those of the game.

Main definitions:

* `LogoGuess.Quiz.Shows` — a run of the quiz leads to a screen that mirrors a state of the game.

Main results:

* `LogoGuess.Quiz.Between.follow` — `task` draws the index that the game draws next;
* `LogoGuess.Quiz.Shows.guess`, `LogoGuess.Quiz.Shows.solve`, `LogoGuess.Quiz.Shows.expire` — the
  quiz follows the moves of the game;
* `LogoGuess.Quiz.exists_play_of_reachable` — **every state of the game is shown by the quiz**;
* `LogoGuess.Quiz.exists_play_of_outcome` — every order of the logos and every selection of solved
  ones is played by some run;
* `LogoGuess.Quiz.pushed_iff` — **the possible results of a game**.
-/

import LogoGuess.GuessingOutcomes
import LogoGuess.QuizLength

set_option relaxedAutoImplicit false
set_option autoImplicit false

namespace LogoGuess

namespace Quiz

open Dart EventLoop Guessing

/-- **The moves `tr` lead to a screen that mirrors the state `g` of the game**, with the words of
`g` solved and expired on the way. -/
structure Shows (U : CaseMap) (names : List Str) (tr : List (Move Quiz Event)) (g : Game Str)
    (s : Quiz) : Prop where
  started : tr ≠ []
  play : Play U names tr s
  lawful : ∀ m ∈ tr, m.event.rand.Lawful
  inLoop : s.inLoop = false
  mirrors : Mirrors U names s g
  solved : solvedIn tr = g.solved
  expired : expiredIn tr = g.expired

section

variable {U : CaseMap} {names : List Str} {s s' : Quiz} {g g' : Game Str}
  {tr : List (Move Quiz Event)} {k : ℕ}

theorem lawful_onlyDraws (k : ℕ) : (onlyDraws k).Lawful :=
  ⟨fun _ => List.length_replicate, List.Perm.refl⟩

/-! ### The draws -/

/-- **`task` draws the index that the game draws next**, if the random source answers with it. -/
theorem Between.follow (hw : ∀ p ∈ names, WellFormed p) (hc : Called names s) {d : List ℕ}
    (hd : Even names d s) (h : Between s g) (hk : k < names.length) (hnew : k ∉ g.drawn)
    (hs : Step names.length (word U names) g g') (hdrawn : g'.drawn = g.drawn ++ [k])
    {o : Outcome Cut Quiz} (hr : TaskResult U (onlyDraws k) s o) :
    o.state.inLoop = false ∧ Mirrors U names o.state g' := by
  have hlt : k < s.images.length := hc.images.symm ▸ hk
  have hlen : g.drawn.length = s.loopCount := by
    rw [h.drawn, hd.dealt hc.ended, hd.loop]
  have hwell : ∀ {x : ℕ} {p : Str}, s.images[x]? = some p →
      ∃ t, titleOf p = some t ∧ (answer t).length ≤ 15 := by
    intro x p hp
    rw [hc.images] at hp
    exact dealable_iff.1 (hw p (List.mem_of_getElem? hp)).dealable
  cases hr with
  | drawing hall =>
      have hmem := hall k (List.mem_singleton_self k)
      rw [Nat.mod_eq_of_lt hlt, ← h.drawn] at hmem
      exact absurd hmem hnew
  | unread _ _ hp ht =>
      obtain ⟨t, ht', -⟩ := hwell hp
      exact absurd (ht.symm.trans ht') (by simp)
  | misfit _ _ hp ht hlong =>
      obtain ⟨t, ht', hle⟩ := hwell hp
      obtain rfl := Option.some_inj.1 (ht.symm.trans ht')
      omega
  | @dealt x p t hx hloop hp ht _ =>
      obtain rfl : x = k := hx.eq_of_onlyDraws hlt
      rw [hc.images] at hloop hp
      refine ⟨hc.inLoop, ?_⟩
      cases hs with
      | guess c hk _ => exact absurd (hk.symm.trans h.away) (by simp)
      | solve c hk _ => exact absurd (hk.symm.trans h.away) (by simp)
      | expire hk => exact absurd (hk.symm.trans h.away) (by simp)
      | close _ _ _ _ hlast => omega
      | @draw y _ _ _ _ _ _ =>
          obtain rfl : y = x := List.singleton_inj.1 (List.append_cancel_left hdrawn)
          refine ⟨congrArg (· ++ [y]) h.drawn, h.finished.trans hc.ended.symm, h.score, ?_, ?_⟩
          · intro _ _
            refine ⟨rfl, (word_eq hp ht).symm, ?_⟩
            change List.replicate (letters U t).length [] = mask [] (letters U t) ∅
            rw [mask_empty]
          · rintro (hi | he)
            · exact absurd (hc.inLoop.symm.trans hi) (by simp)
            · exact absurd (hc.ended.symm.trans he) (by simp)
  | @ending x hx hloop =>
      obtain rfl : x = k := hx.eq_of_onlyDraws hlt
      rw [hc.images] at hloop
      refine ⟨hc.inLoop, ?_⟩
      cases hs with
      | guess c hk _ => exact absurd (hk.symm.trans h.away) (by simp)
      | solve c hk _ => exact absurd (hk.symm.trans h.away) (by simp)
      | expire hk => exact absurd (hk.symm.trans h.away) (by simp)
      | draw _ _ _ _ hmore _ => omega
      | @close y _ _ _ _ _ =>
          obtain rfl : y = x := List.singleton_inj.1 (List.append_cancel_left hdrawn)
          exact ⟨congrArg (· ++ [y]) h.drawn, rfl, h.score, fun _ he => absurd he (by simp),
            fun _ => h.away⟩

/-- Start draws the first index of the game. -/
theorem exists_shows_start (hw : ∀ p ∈ names, WellFormed p)
    (hs : Step names.length (word U names) Game.initial g') :
    ∃ tr s, Shows U names tr g' s := by
  obtain ⟨k, hk, hnew, hdrawn, hsolved, hexpired, -⟩ := hs.drawing rfl
  have hn : 0 < names.length := by omega
  have hstep : step U names {} (.start (onlyDraws k)) =
      some (pressStart U names (onlyDraws k) {}).state := by
    rw [step]
    exact if_pos ⟨rfl, rfl⟩
  obtain ⟨rnd, o, he, ho, hr⟩ := start_of_fresh hn hstep
  obtain rfl : onlyDraws k = rnd := Event.start.inj he
  obtain ⟨hi, hm⟩ := (between_begun names).follow hw (called_started names) (even_begun names) hk
    hnew hs hdrawn hr
  rw [ho] at hstep
  exact ⟨_, o.state, by simp, Run.single hstep, by simpa [Event.rand] using lawful_onlyDraws k, hi,
    hm, hsolved.symm, hexpired.symm⟩

/-! ### The moves of the game -/

theorem Shows.core (hn : 0 < names.length) (h : Shows U names tr g s) :
    Core names s ∧ Clock s := by
  rcases core_of_play hn h.play with ⟨hnil, -⟩ | ⟨-, hcore⟩
  · exact absurd hnil h.started
  · exact hcore

/-- One more move of the quiz. -/
theorem Shows.snoc (h : Shows U names tr g s) {e : Event} (hs : step U names s e = some s')
    (hrnd : e.rand.Lawful) (hi : s'.inLoop = false) (hm : Mirrors U names s' g')
    (hsolved : g'.solved = g.solved ++ (solvedBy ⟨s, e, s'⟩).toList)
    (hexpired : g'.expired = g.expired ++ (expiredBy ⟨s, e, s'⟩).toList) :
    Shows U names (tr ++ [⟨s, e, s'⟩]) g' s' where
  started := by simp
  play := h.play.snoc hs
  lawful := by
    intro m hm
    rcases List.mem_append.1 hm with hm | hm
    · exact h.lawful m hm
    · rw [List.mem_singleton.1 hm]
      exact hrnd
  inLoop := hi
  mirrors := hm
  solved := by rw [solvedIn, filterMap_concat, hsolved, ← h.solved, solvedIn]
  expired := by rw [expiredIn, filterMap_concat, hexpired, ← h.expired, expiredIn]

/-- **A word of the game is on display**, with the letters that have been named for it. -/
theorem Shows.displayed (hn : 0 < names.length) (hw : ∀ p ∈ names, WellFormed p)
    (h : Shows U names tr g s) (hf : Fair names.length (word U names) g)
    (hk : g.shown = some k) :
    Displayed names s g.named ∧ s.picCount = k ∧ s.correct = word U names k := by
  have he : s.ended = false := h.mirrors.finished.symm.trans (hf.shown k hk).1
  obtain ⟨hshown, hword, htext⟩ := h.mirrors.shown h.inLoop he
  obtain rfl : s.picCount = k := Option.some_inj.1 (hshown.symm.trans hk)
  have hblank : [] ∉ s.correct := hword ▸ nil_notMem_word U names s.picCount
  refine ⟨⟨(h.core hn).1, h.inLoop, he, htext, hblank, ?_⟩, rfl, hword⟩
  intro a ha hnot
  refine (stocked_of_play hn hw h.play h.lawful).bank a ?_
  rw [htext]
  exact (hides_mask hblank).2 ⟨ha, hnot⟩

/-- **Naming a letter is a tap on a card that shows it**, or nothing at all. -/
theorem Shows.guess (hn : 0 < names.length) (hw : ∀ p ∈ names, WellFormed p)
    (h : Shows U names tr g s) (hf : Fair names.length (word U names) g)
    (hk : g.shown = some k) (c : Str) (hopen : ∃ a ∈ word U names k, a ∉ insert c g.named) :
    ∃ tr' s', Shows U names tr' { g with named := insert c g.named } s' := by
  obtain ⟨hd, rfl, hword⟩ := h.displayed hn hw hf hk
  obtain ⟨-, -, htext⟩ := h.mirrors.shown h.inLoop hd.ended
  have hmirrors : ∀ {s'' : Quiz}, s''.repeated = s.repeated → s''.ended = s.ended →
      s''.obtScore = s.obtScore → s''.inLoop = s.inLoop → s''.picCount = s.picCount →
      s''.correct = s.correct → s''.text = mask [] s.correct (insert c g.named) →
      Mirrors U names s'' { g with named := insert c g.named } := by
    intro s'' hrep hend hscore hin hpic hcorrect ht
    refine ⟨h.mirrors.drawn.trans hrep.symm, h.mirrors.finished.trans hend.symm,
      hscore.trans h.mirrors.score, fun _ _ => ⟨hpic ▸ hk, ?_, hcorrect.symm ▸ ht⟩, ?_⟩
    · rw [hcorrect, hpic]
      exact hword
    · rw [hin, hend]
      exact h.mirrors.away
  by_cases hhidden : c ∈ s.correct ∧ c ∉ g.named
  · obtain ⟨hc, hnot⟩ := hhidden
    obtain ⟨ρ, i, hcard⟩ := hd.exists_card hc hnot
    obtain ⟨s', hstep, -, hmore⟩ := hd.tap (U := U) hn hcard hc hnot (onlyDraws 0)
    obtain ⟨rfl, hnone, hd'⟩ := hmore (hword ▸ hopen)
    refine ⟨_, _, h.snoc hstep (lawful_onlyDraws 0) h.inLoop
      (hmirrors rfl rfl rfl rfl rfl rfl hd'.text)
      ?_ ?_⟩
    · rw [hnone]
      exact (List.append_nil _).symm
    · exact (List.append_nil _).symm
  · -- nothing is shown by naming a letter that does not occur or has been named
    refine ⟨tr, s, h.started, h.play, h.lawful, h.inLoop, hmirrors rfl rfl rfl rfl rfl rfl ?_,
      h.solved, h.expired⟩
    rw [htext]
    refine mask_congr [] ?_
    intro a ha
    rw [Finset.mem_insert]
    refine ⟨Or.inr, ?_⟩
    rintro (rfl | hin)
    · by_contra hnot
      exact hhidden ⟨ha, hnot⟩
    · exact hin

/-- **Naming the last open letter is a tap that solves the logo**, and the call of `task` in it
draws what the game draws next. -/
theorem Shows.solve (hn : 0 < names.length) (hw : ∀ p ∈ names, WellFormed p)
    (h : Shows U names tr g s) (hf : Fair names.length (word U names) g)
    (hk : g.shown = some k) {c : Str} (hall : ∀ a ∈ word U names k, a ∈ insert c g.named)
    (hs : Step names.length (word U names)
      { g with shown := none, solved := g.solved ++ [k] } g') :
    ∃ tr' s', Shows U names tr' g' s' := by
  obtain ⟨hd, rfl, hword⟩ := h.displayed hn hw hf hk
  obtain ⟨x, hx, hnew, hdrawn, hsolved, hexpired, -⟩ := hs.drawing rfl
  -- the letter that is named is the only one that is hidden
  obtain ⟨a, ha, hnot⟩ := (hf.shown _ hk).2.2.1
  obtain rfl : a = c := (Finset.mem_insert.1 (hall a ha)).resolve_right hnot
  have hc : a ∈ s.correct := hword ▸ ha
  obtain ⟨ρ, i, hcard⟩ := hd.exists_card hc hnot
  obtain ⟨s', hstep, hlast, -⟩ := hd.tap (U := U) hn hcard hc hnot (onlyDraws x)
  have hsome := hlast (hword ▸ hall)
  have hcomplete : s.correct = reveal a s.correct s.text :=
    (h.mirrors.complete_iff h.inLoop hd.ended a).2 hall
  cases effect_of_step hn (Or.inr hd.core) hstep with
  | idle hidle =>
      rcases hidle with hnone | ⟨b, hb, hmem, -⟩
      · exact absurd (hcard.symm.trans hnone) (by simp)
      · obtain rfl := Option.some_inj.1 (hcard.symm.trans hb)
        exact absurd hc hmem
  | hit hb _ hopen =>
      obtain rfl := Option.some_inj.1 (hcard.symm.trans hb)
      exact absurd hcomplete hopen
  | gift hb hmem _ _ =>
      obtain rfl := Option.some_inj.1 (hcard.symm.trans hb)
      exact absurd hc hmem
  | @solved _ _ _ b o hb _ _ hr =>
      obtain rfl := Option.some_inj.1 (hcard.symm.trans hb)
      have hbetween : Between (s.played a ρ).credited
          { g with shown := none, solved := g.solved ++ [s.picCount] } := by
        refine ⟨h.mirrors.drawn, h.mirrors.finished.trans hd.ended, ?_, rfl⟩
        change s.obtScore + 1 = ((g.solved ++ [s.picCount]).length : ℤ)
        rw [h.mirrors.score, List.length_append, List.length_singleton]
        omega
      have heven := even_of_play hn (safe_of_wellFormed hw) h.play
      have hcalled := (hd.core.played hd.ended a ρ).called_credited hd.ended h.inLoop
      have heven' : Even names (dealtIn tr) (s.played a ρ).credited := { heven with }
      obtain ⟨hi, hm⟩ := hbetween.follow hw hcalled heven' hx hnew hs hdrawn hr
      refine ⟨_, _, h.snoc hstep (lawful_onlyDraws x) hi hm ?_ ?_⟩
      · rw [hsome]
        exact hsolved
      · exact hexpired.trans (List.append_nil _).symm

/-- Counting down to zero leaves the state of the game as it is. -/
theorem Shows.exists_zero (hn : 0 < names.length) (h : Shows U names tr g s)
    (he : s.ended = false) :
    ∃ tr' s', Shows U names tr' g s' ∧ s'.ended = false ∧ s'.timeinmin = 0 := by
  have hcount : ∀ s, (∃ tr, Shows U names tr g s) ∧ s.ended = false → 0 < s.timeinmin →
      ∃ e s', True ∧ step U names s e = some s' ∧
        ((∃ tr, Shows U names tr g s') ∧ s'.ended = false) ∧ s'.timeinmin + 1 = s.timeinmin := by
    rintro s ⟨⟨tr, h⟩, he⟩ hpos
    have hstep : step U names s (.tick (onlyDraws 0)) = some s.counted :=
      (h.core hn).1.step_tick hn he h.inLoop hpos (onlyDraws 0)
    have hnone : expiredBy ⟨s, .tick (onlyDraws 0), s.counted⟩ = none := if_neg hpos.ne'
    refine ⟨_, s.counted, trivial, hstep, ⟨⟨_, h.snoc hstep (lawful_onlyDraws 0) h.inLoop
      { h.mirrors with } (List.append_nil _).symm ?_⟩, he⟩, ?_⟩
    · rw [hnone]
      exact (List.append_nil _).symm
    · change s.timeinmin - 1 + 1 = s.timeinmin
      omega
  obtain ⟨-, s', -, ⟨⟨tr', h'⟩, he'⟩, hzero, -⟩ :=
    exists_run_of_countdown (P := fun _ => True) hcount ⟨⟨tr, h⟩, he⟩
  exact ⟨tr', s', h', he', hzero⟩

/-- **A word expires when the timer has run down**, and the call of `task` then draws what the game
draws next. -/
theorem Shows.expire (hn : 0 < names.length) (hw : ∀ p ∈ names, WellFormed p)
    (h : Shows U names tr g s) (hf : Fair names.length (word U names) g)
    (hk : g.shown = some k)
    (hs : Step names.length (word U names)
      { g with shown := none, expired := g.expired ++ [k] } g') :
    ∃ tr' s', Shows U names tr' g' s' := by
  have hend : s.ended = false := h.mirrors.finished.symm.trans (hf.shown k hk).1
  obtain ⟨tr₁, s₁, h₁, hend₁, hzero⟩ := h.exists_zero hn hend
  obtain ⟨x, hx, hnew, hdrawn, hsolved, hexpired, -⟩ := hs.drawing rfl
  obtain ⟨hcore, hclock⟩ := h₁.core hn
  obtain rfl : s₁.picCount = k :=
    Option.some_inj.1 ((h₁.mirrors.shown h₁.inLoop hend₁).1.symm.trans hk)
  have hlive := hcore.timers_ne_nil hend₁
  have hstep : step U names s₁ (.tick (onlyDraws x)) = some (tick U (onlyDraws x) s₁).state :=
    if_pos ⟨h₁.inLoop, hlive⟩
  have hcalled := hcore.called_expired hclock hlive hzero h₁.inLoop
  have hbetween : Between { s₁ with loaded := false }
      { g with shown := none, expired := g.expired ++ [s₁.picCount] } :=
    ⟨h₁.mirrors.drawn, h₁.mirrors.finished.trans hend₁, h₁.mirrors.score, rfl⟩
  have heven := even_of_play hn (safe_of_wellFormed hw) h₁.play
  have heven' : Even names (dealtIn tr₁) { s₁ with loaded := false } := { heven with }
  have hfollow : ∀ {o : Outcome Cut Quiz},
      TaskResult U (onlyDraws x) { s₁ with loaded := false } o →
      o.state.inLoop = false ∧ Mirrors U names o.state g' :=
    fun hr => hbetween.follow hw hcalled heven' hx hnew hs hdrawn hr
  have hsome : ∀ s', expiredBy ⟨s₁, .tick (onlyDraws x), s'⟩ = some s₁.picCount :=
    fun _ => if_pos hzero
  have hmirrors : (tick U (onlyDraws x) s₁).state.inLoop = false ∧
      Mirrors U names (tick U (onlyDraws x) s₁).state g' := by
    generalize (tick U (onlyDraws x) s₁).state = s' at hstep
    cases effect_of_step hn (Or.inr hcore) hstep with
    | count _ ht _ => omega
    | finish _ ht _ => omega
    | expireCut _ _ hr => exact hfollow hr
    | expire _ _ hr _ => exact ⟨(hfollow hr).1, (hfollow hr).2.reset⟩
    | expireEnd _ _ hr _ => exact ⟨(hfollow hr).1, (hfollow hr).2.reset.left⟩
  refine ⟨_, _, h₁.snoc hstep (lawful_onlyDraws x) hmirrors.1 hmirrors.2 ?_ ?_⟩
  · exact hsolved.trans (List.append_nil _).symm
  · rw [hsome]
    exact hexpired

/-! ### Every state of the game -/

/-- **The quiz follows every game**: it shows the states in which a word is on display or the game
is over, and from the other ones it goes on to any next draw. -/
theorem Reachable.shows (hn : 0 < names.length) (hw : ∀ p ∈ names, WellFormed p)
    (hg : Reachable names.length (word U names) g) :
    (g.shown ≠ none ∨ g.finished = true → ∃ tr s, Shows U names tr g s) ∧
      (g.shown = none → g.finished = false → ∀ g', Step names.length (word U names) g g' →
        ∃ tr s, Shows U names tr g' s) := by
  induction hg with
  | refl =>
      refine ⟨?_, fun _ _ g' hs => exists_shows_start hw hs⟩
      rintro (hne | hover)
      · exact absurd rfl hne
      · exact absurd hover (by simp [Game.initial])
  | @tail g g' hg hs ih =>
      have hf : Fair names.length (word U names) g := Guessing.Reachable.fair hn hg
      cases hs with
      | @guess k c hk hopen =>
          obtain ⟨tr, s, h⟩ := ih.1 (Or.inl (by simp [hk]))
          exact ⟨fun _ => h.guess hn hw hf hk c hopen,
            fun hnone => absurd (hk.symm.trans hnone) (by simp)⟩
      | @solve k c hk hall =>
          obtain ⟨tr, s, h⟩ := ih.1 (Or.inl (by simp [hk]))
          refine ⟨?_, fun _ _ g' hs => h.solve hn hw hf hk hall hs⟩
          rintro (hne | hover)
          · exact absurd rfl hne
          · exact absurd ((hf.shown k hk).1.symm.trans hover) (by simp)
      | @expire k hk =>
          obtain ⟨tr, s, h⟩ := ih.1 (Or.inl (by simp [hk]))
          refine ⟨?_, fun _ _ g' hs => h.expire hn hw hf hk hs⟩
          rintro (hne | hover)
          · exact absurd rfl hne
          · exact absurd ((hf.shown k hk).1.symm.trans hover) (by simp)
      | draw hnone hover hk hnew hlen hopen =>
          refine ⟨fun _ => ih.2 hnone hover _ (.draw hnone hover hk hnew hlen hopen), ?_⟩
          intro hnone'
          exact absurd hnone' (by simp)
      | close hnone hover hk hnew hlen =>
          refine ⟨fun _ => ih.2 hnone hover _ (.close hnone hover hk hnew hlen), ?_⟩
          intro _ hover'
          exact absurd hover' (by simp)

/-- **Every state of the game is shown by the quiz.**  Over well-formed paths, every reachable state
of the game of guessing words in which a word is on display or the game is over is mirrored by the
screen after some run of the quiz, in which the logos solved by taps and those taken away by the
timer are those of the game, in the same order. -/
theorem exists_play_of_reachable (hn : 1 ≤ names.length) (hw : ∀ p ∈ names, WellFormed p)
    (hg : Reachable names.length (word U names) g) (hrest : g.shown ≠ none ∨ g.finished = true) :
    ∃ tr s, Play U names tr s ∧ Mirrors U names s g ∧ solvedIn tr = g.solved ∧
      expiredIn tr = g.expired := by
  obtain ⟨tr, s, h⟩ := (Reachable.shows hn hw hg).1 hrest
  exact ⟨tr, s, h.play, h.mirrors, h.solved, h.expired⟩

/-! ### Every outcome of a game -/

/-- When the game is over, at most one more tick leaves the screen. -/
theorem Shows.exists_left (hn : 0 < names.length) (h : Shows U names tr g s)
    (he : s.ended = true) : ∃ tr' s', Shows U names tr' g s' ∧ s'.pushed ≠ [] := by
  by_cases hp : s.pushed = []
  · obtain ⟨hcore, hclock⟩ := h.core hn
    have hpos := hclock he hp
    have hlive : s.timers ≠ [] := by
      obtain ⟨t, -, hts⟩ := hcore.live hp
      simp [hts]
    have hstep : step U names s (.tick (onlyDraws 0)) = some (tick U (onlyDraws 0) s).state :=
      if_pos ⟨h.inLoop, hlive⟩
    have hleft : (tick U (onlyDraws 0) s).state = s.counted.left := by
      generalize (tick U (onlyDraws 0) s).state = s' at hstep
      cases effect_of_step hn (Or.inr hcore) hstep with
      | count _ _ hend => exact absurd (he.symm.trans hend) (by simp)
      | finish _ _ _ => rfl
      | expireCut _ ht _ => omega
      | expire _ ht _ _ => omega
      | expireEnd _ ht _ _ => omega
    rw [hleft] at hstep
    have hnone : expiredBy ⟨s, .tick (onlyDraws 0), s.counted.left⟩ = none := if_neg hpos.ne'
    refine ⟨_, s.counted.left, h.snoc hstep (lawful_onlyDraws 0) h.inLoop { h.mirrors with }
      (List.append_nil _).symm ?_, by simp [left]⟩
    rw [hnone]
    exact (List.append_nil _).symm
  · exact ⟨tr, s, h, hp⟩

/-- The word of a well-formed path is not empty. -/
theorem word_ne_nil (hw : ∀ p ∈ names, WellFormed p) (hk : k < names.length) :
    word U names k ≠ [] := by
  have hp : names[k]? = some names[k] := List.getElem?_eq_getElem hk
  have hwell := hw names[k] (List.getElem_mem hk)
  obtain ⟨t, ht, -⟩ := dealable_iff.1 hwell.dealable
  rw [word_eq hp ht]
  exact letters_ne_nil_of_wellFormed hwell ht

/-- Every order of the logos and every selection of solved ones is played by some run. -/
theorem exists_shows_outcome (hw : ∀ p ∈ names, WellFormed p) (win : ℕ → Bool) {l : List ℕ}
    (hperm : (l ++ [k]).Perm (List.range names.length)) :
    ∃ tr g s, Shows U names tr g s ∧ g.drawn = l ++ [k] ∧ g.solved = l.filter win ∧
      (g.expired = l.filter fun x => !win x) ∧
      s.pushed = [⟨intToString (l.filter win).length, intToString names.length⟩] := by
  have hlen : l.length + 1 = names.length := by simpa using hperm.length_eq
  have hn : 0 < names.length := by omega
  have hlt : ∀ x ∈ l ++ [k], x < names.length := fun x hx => List.mem_range.1 (hperm.subset hx)
  have hword : ∀ x ∈ l, word U names x ≠ [] := fun x hx =>
    word_ne_nil hw (hlt x (List.mem_append_left _ hx))
  obtain ⟨g, hg, hover, hdrawn, hsolved, hexpired⟩ :=
    exists_outcome win (hperm.nodup_iff.2 List.nodup_range) hlt hlen hword
  obtain ⟨tr, s, h⟩ := (Reachable.shows hn hw hg).1 (Or.inr hover)
  obtain ⟨tr', s', h', hp⟩ := h.exists_left hn (h.mirrors.finished.symm.trans hover)
  obtain ⟨-, -, hpushed⟩ := (h'.core hn).1.gone hp
  refine ⟨tr', g, s', h', hdrawn, hsolved, hexpired, ?_⟩
  rw [hpushed, h'.mirrors.score, hsolved, (h'.core hn).1.total]

/-- **Every order of the logos and every selection of solved ones is played.**  Let `l` followed by
`k` be any order of the indices of well-formed paths, and `win` any selection.  Some run of the quiz
draws the indices in this order, solves exactly the logos of `l` in `win`, leaves the other ones to
the timer, and shows the number of the solved ones on the result screen. -/
theorem exists_play_of_outcome (hw : ∀ p ∈ names, WellFormed p) (win : ℕ → Bool) {l : List ℕ}
    (hperm : (l ++ [k]).Perm (List.range names.length)) :
    ∃ tr s, Play U names tr s ∧ s.repeated = l ++ [k] ∧ solvedIn tr = l.filter win ∧
      (expiredIn tr = l.filter fun x => !win x) ∧
      s.pushed = [⟨intToString (l.filter win).length, intToString names.length⟩] := by
  obtain ⟨tr, g, s, h, hdrawn, hsolved, hexpired, hpushed⟩ :=
    exists_shows_outcome (U := U) hw win hperm
  exact ⟨tr, s, h.play, h.mirrors.drawn.symm.trans hdrawn, h.solved.trans hsolved,
    h.expired.trans hexpired, hpushed⟩

/-- **The possible results of a game** over `n` well-formed paths are the scores from `0` to `n - 1`
out of `n`, and all of them are possible. -/
theorem pushed_iff (hn : 1 ≤ names.length) (hw : ∀ p ∈ names, WellFormed p) (sc : Score) :
    (∃ tr s, Play U names tr s ∧ sc ∈ s.pushed) ↔
      ∃ m ≤ names.length - 1, sc = ⟨intToString m, intToString names.length⟩ := by
  constructor
  · rintro ⟨tr, s, h, hsc⟩
    obtain ⟨hle, rfl⟩ := pushed_of_play hn hw h hsc
    exact ⟨_, hle, rfl⟩
  · rintro ⟨m, hle, rfl⟩
    -- the logos are drawn in order, and the first `m` of them are solved
    obtain ⟨r, hr⟩ : ∃ r, names.length = m + r + 1 := ⟨names.length - 1 - m, by omega⟩
    have hperm : (List.range (m + r) ++ [m + r]).Perm (List.range names.length) := by
      rw [hr, List.range_succ]
    have hfilter : (List.range (m + r)).filter (fun x => decide (x < m)) = List.range m := by
      have hnone : ((List.range r).map (m + ·)).filter (fun x => decide (x < m)) = [] := by
        simp [List.filter_eq_nil_iff]
      have hall : (List.range m).filter (fun x => decide (x < m)) = List.range m := by
        simp [List.filter_eq_self]
      rw [List.range_add, List.filter_append, hall, hnone, List.append_nil]
    obtain ⟨tr, g, s, h, -, -, -, hpushed⟩ :=
      exists_shows_outcome (U := U) hw (fun x => decide (x < m)) hperm
    refine ⟨tr, s, h.play, ?_⟩
    rw [hpushed, hfilter, List.length_range]
    exact List.mem_singleton_self _

end

/-- Three logos with the answer `AB`.  In the state of the game the first one has been solved, and
the letter `A` has been named for the second one. -/
theorem exists_play_of_reachable_pairPath :
    ∃ tr s, Play .ascii [pairPath, pairPath, pairPath] tr s ∧ solvedIn tr = [0] ∧
      s.repeated = [0, 1] ∧ s.obtScore = 1 := by
  have hword : ∀ k < 3, word .ascii [pairPath, pairPath, pairPath] k = [['A'], ['B']] := by decide
  have hopen : ∀ k < 3, word .ascii [pairPath, pairPath, pairPath] k ≠ [] := by decide
  have hA : ∀ k < 3, ∃ a ∈ word .ascii [pairPath, pairPath, pairPath] k,
      a ∉ insert ['A'] (∅ : Finset Str) := by
    intro k hk
    rw [hword k hk]
    decide
  have hAB : ∀ a ∈ word .ascii [pairPath, pairPath, pairPath] 0,
      a ∈ insert ['B'] (insert ['A'] (∅ : Finset Str)) := by
    decide
  have hg : Reachable 3 (word .ascii [pairPath, pairPath, pairPath])
      ⟨[0, 1], some 1, insert ['A'] ∅, [0], [], false⟩ :=
    .tail (.tail (.tail (.tail (.single
      (.draw (k := 0) rfl rfl (by decide) (by decide) (by decide) (hopen 0 (by decide))))
      (.guess ['A'] rfl (hA 0 (by decide)))) (.solve ['B'] rfl hAB))
      (.draw (k := 1) rfl rfl (by decide) (by decide) (by decide) (hopen 1 (by decide))))
      (.guess ['A'] rfl (hA 1 (by decide)))
  have hw : ∀ p ∈ [pairPath, pairPath, pairPath], WellFormed p := by simpa using wellFormed_pairPath
  obtain ⟨tr, s, hplay, hm, hsolved, -⟩ :=
    exists_play_of_reachable (by decide) hw hg (Or.inl (by simp))
  exact ⟨tr, s, hplay, hsolved, hm.drawn.symm, hm.score⟩

/-- Three logos, drawn from the last to the first, of which the second one is solved. -/
theorem exists_play_of_outcome_logoPath :
    ∃ tr s, Play .ascii [logoPath, logoPath, logoPath] tr s ∧ s.repeated = [2, 1, 0] ∧
      solvedIn tr = [1] := by
  have hw : ∀ p ∈ [logoPath, logoPath, logoPath], WellFormed p := by
    simpa using wellFormed_logoPath
  have hperm : ([2, 1] ++ [0]).Perm (List.range 3) := by decide
  obtain ⟨tr, s, hplay, hrep, hsolved, -⟩ :=
    exists_play_of_outcome (U := .ascii) hw (fun x => decide (x = 1)) hperm
  exact ⟨tr, s, hplay, hrep, hsolved⟩

/-- Two logos: `0` and `1` are possible scores, and `2` is not. -/
theorem pushed_iff_logoPath :
    ¬ ∃ tr s, Play .ascii [logoPath, logoPath] tr s ∧ ⟨['2'], ['2']⟩ ∈ s.pushed := by
  rw [pushed_iff (by decide) (by simpa using wellFormed_logoPath)]
  rintro ⟨m, hle, heq⟩
  change m ≤ 1 at hle
  obtain rfl | rfl : m = 0 ∨ m = 1 := by omega
  · exact absurd heq (by decide)
  · exact absurd heq (by decide)

end Quiz

end LogoGuess
