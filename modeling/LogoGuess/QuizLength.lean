/-
**How long a game lasts.**

Every logo that is not solved stays for thirty-one ticks, and a logo that is solved gives the rest
of its time away.  So the number of ticks that are left can be read off the screen, from the counter
`loop_count` and the clock: a tick takes one of them, and a tap takes none or gives some away.  In
the same way the cards on the screen and those that are still to be dealt bound the number of taps
that show a letter.

Over a list on which some call of `task` throws, `loop_count` falls behind and does not tell how
long the game lasts.  The number of drawn indices still does, and what it leads to is either the
result screen or the redraw loop.

Main definitions:

* `LogoGuess.Quiz.timeLeft` — the number of ticks that are left when no call of `task` throws;
* `LogoGuess.Quiz.drawTime` — a bound for it over any list of paths;
* `LogoGuess.Quiz.Open`, `LogoGuess.Quiz.Timed` — what they rest on when `task` is called and when
  the timer ticks;
* `LogoGuess.Quiz.hitsIn` — the number of taps in a run on letters of the answer.

Main results:

* `LogoGuess.Quiz.Timed.timeLeft`, `LogoGuess.Quiz.Effect.timeLeft` — what a tick and any other move
  take from the time that is left;
* `LogoGuess.Quiz.ticks_add_timeLeft` — **the length of a game in ticks**;
* `LogoGuess.Quiz.exists_ticks_to_result` — **the timer alone brings every game to its end**;
* `LogoGuess.Quiz.ticks_le_of_play` — **no game lasts for ever**, whatever the paths look like;
* `LogoGuess.Quiz.hits_add_cards` — **the taps that show a letter are bounded by the cards**.
-/

import LogoGuess.QuizBank
import LogoGuess.QuizClock
import LogoGuess.QuizThrow

set_option relaxedAutoImplicit false
set_option autoImplicit false

namespace LogoGuess

namespace Quiz

open Dart EventLoop Guessing

/-! ### The time that is left -/

/-- **The number of ticks that are left** in a game over `n` paths: none when the screen has been
left or a handler is inside the redraw loop, one when the game is over, and otherwise thirty-one for
each logo that is still to be dealt and what the clock shows for the one on display. -/
def timeLeft (n : ℕ) (s : Quiz) : ℕ :=
  if s.start = .start then max 1 (31 * (n - 1))
  else if s.pushed ≠ [] ∨ s.inLoop = true then 0
  else if s.ended = true then 1
  else 31 * (n - 1 - s.loopCount) + s.timeinmin + 1

/-- A bound for it that does not rely on `loop_count`. -/
def drawTime (n : ℕ) (s : Quiz) : ℕ :=
  if s.start = .start then 31 * n
  else if s.pushed ≠ [] ∨ s.inLoop = true then 0
  else 31 * (n - s.repeated.length) + s.timeinmin + 1

/-- Whether a move taps a card with a letter of the answer. -/
def hitBy (m : Move Quiz Event) : Bool := (tappedBy m).any fun c => decide (c ∈ m.pre.correct)

/-- **The number of taps in a run on letters of the answer.** -/
def hitsIn (tr : List (Move Quiz Event)) : ℕ := tr.countP hitBy

/-- The number of cards on the screen and of those that can still be dealt in a game over `n`
paths. -/
def cardsLeft (n : ℕ) (s : Quiz) : ℕ := s.cards.length + 15 * (n - 1 - s.loopCount)

/-- **What the length of a game rests on whenever `task` is called.** -/
structure Open (names : List Str) (s : Quiz) : Prop where
  started : s.start = .next
  images : s.images = names
  pushed : s.pushed = []
  ended : s.ended = false
  inLoop : s.inLoop = false

/-- **What it rests on whenever the timer ticks.** -/
structure Timed (names : List Str) (s : Quiz) : Prop where
  started : s.start = .next
  images : s.images = names
  pushed : s.pushed = []
  inLoop : s.inLoop = false
  clock : Clock s

/-- What a move costs in ticks. -/
def tickCost (m : Move Quiz Event) : ℕ := if m.event.isTick = true then 1 else 0

section

variable {U : CaseMap} {names : List Str} {s s' : Quiz} {rnd : Rand} {n : ℕ}

theorem sum_tickCost (tr : List (Move Quiz Event)) : (tr.map tickCost).sum = ticksIn tr :=
  sum_map_ite _ tr

theorem Called.isOpen (h : Called names s) : Open names s :=
  ⟨h.started, h.images, h.pushed, h.ended, h.inLoop⟩

theorem Core.timed (h : Core names s) (hclock : Clock s) (hp : s.pushed = [])
    (hi : s.inLoop = false) : Timed names s :=
  ⟨h.started, h.images, hp, hi, hclock⟩

/-- The time of a logo is used up. -/
theorem Timed.isOpen (h : Timed names s) (ht : s.timeinmin = 0) :
    Open names { s with loaded := false } := by
  refine ⟨h.started, h.images, h.pushed, ?_, h.inLoop⟩
  by_contra he
  have hpos := h.clock (by simpa using he) h.pushed
  omega

theorem timeLeft_of_away (n : ℕ) (hs : s.start = .next) (h : s.pushed ≠ [] ∨ s.inLoop = true) :
    timeLeft n s = 0 := by
  rw [timeLeft, if_neg (by simp [hs]), if_pos h]

theorem timeLeft_of_ended (n : ℕ) (hs : s.start = .next) (hp : s.pushed = [])
    (hi : s.inLoop = false) (he : s.ended = true) : timeLeft n s = 1 := by
  rw [timeLeft, if_neg (by simp [hs]), if_neg (by simp [hp, hi]), if_pos he]

theorem timeLeft_of_open (n : ℕ) (hs : s.start = .next) (hp : s.pushed = [])
    (hi : s.inLoop = false) (he : s.ended = false) :
    timeLeft n s = 31 * (n - 1 - s.loopCount) + s.timeinmin + 1 := by
  rw [timeLeft, if_neg (by simp [hs]), if_neg (by simp [hp, hi]), if_neg (by simp [he])]

/-- **A call of `task` over a safe list**: it is still drawing, it deals a logo while some are left
to be dealt, or it ends the game. -/
theorem TaskResult.of_safe (hsafe : Safe names) (hc : Open names s) {o : Outcome Cut Quiz}
    (hr : TaskResult U rnd s o) :
    o.state.inLoop = true ∨
      (o.state.inLoop = false ∧ o.state.ended = false ∧ s.loopCount < names.length - 1 ∧
        o.state.loopCount = s.loopCount + 1) ∨
      (o.state.inLoop = false ∧ o.state.ended = true ∧ ¬ s.loopCount < names.length - 1) := by
  cases hr with
  | drawing => exact Or.inl rfl
  | unread hk hlt hp ht =>
      rw [hc.images] at hlt hp
      obtain ⟨t, ht', -⟩ := hsafe.dealable hlt hp
      exact absurd (ht.symm.trans ht') (by simp)
  | misfit hk hlt hp ht hlen =>
      rw [hc.images] at hlt hp
      obtain ⟨t', ht', hlen'⟩ := hsafe.dealable hlt hp
      obtain rfl := Option.some_inj.1 (ht.symm.trans ht')
      omega
  | dealt hk hlt hp ht hlen =>
      rw [hc.images] at hlt
      exact Or.inr (Or.inl ⟨hc.inLoop, hc.ended, hlt, rfl⟩)
  | ending hk hlt =>
      rw [hc.images] at hlt
      exact Or.inr (Or.inr ⟨hc.inLoop, rfl, hlt⟩)

/-- What is left after a call of `task` that finds or sets thirty seconds on the clock: the time of
the logos that were to be dealt, or the tick with which the screen is left. -/
theorem TaskResult.timeLeft_eq (hsafe : Safe names) (hc : Open names s) {o : Outcome Cut Quiz}
    (hr : TaskResult U rnd s o) (s' : Quiz) (hs : s'.start = o.state.start)
    (hs' : s'.pushed = o.state.pushed) (hi : s'.inLoop = o.state.inLoop)
    (he : s'.ended = o.state.ended) (hl : s'.loopCount = o.state.loopCount)
    (ht : s'.timeinmin = 30) :
    (s'.inLoop = true ∧ timeLeft names.length s' = 0) ∨
      (s'.ended = false ∧ s'.inLoop = false ∧ s.loopCount < names.length - 1 ∧
        timeLeft names.length s' = 31 * (names.length - 1 - s.loopCount)) ∨
      (s'.ended = true ∧ ¬ s.loopCount < names.length - 1 ∧ timeLeft names.length s' = 1) := by
  have hs : s'.start = .next := hs.trans (hr.framed.start.trans hc.started)
  have hp : s'.pushed = [] := hs'.trans (hr.framed.pushed.trans hc.pushed)
  rcases hr.of_safe hsafe hc with hin | ⟨hin, hend, hlt, hloop⟩ | ⟨hin, hend, hlt⟩
  · exact Or.inl ⟨hi.trans hin, timeLeft_of_away _ hs (Or.inr (hi.trans hin))⟩
  · refine Or.inr (Or.inl ⟨he.trans hend, hi.trans hin, hlt, ?_⟩)
    rw [timeLeft_of_open _ hs hp (hi.trans hin) (he.trans hend), hl, hloop, ht]
    omega
  · exact Or.inr (Or.inr
      ⟨he.trans hend, hlt, timeLeft_of_ended _ hs hp (hi.trans hin) (he.trans hend)⟩)

/-- A logo is solved: what is left is at most what was left before. -/
theorem Called.timeLeft_credited (hsafe : Safe names) (hc : Called names s.credited)
    {o : Outcome Cut Quiz} (hr : TaskResult U rnd s.credited o) (hs : s.start = .next)
    (hp : s.pushed = []) (hi : s.inLoop = false) (he : s.ended = false) :
    timeLeft names.length o.state ≤ timeLeft names.length s := by
  have hpre := timeLeft_of_open names.length hs hp hi he
  have hloop : s.credited.loopCount = s.loopCount := rfl
  rcases hr.timeLeft_eq hsafe hc.isOpen o.state rfl rfl rfl rfl rfl hr.framed.timeinmin with
    ⟨-, h⟩ | ⟨-, -, -, h⟩ | ⟨-, -, h⟩
  · omega
  · rw [hloop] at h
    omega
  · omega

/-- A call of `task` that runs to its end has left the redraw loop. -/
theorem TaskResult.inLoop_of_done (hr : TaskResult U rnd s (.done s')) : s'.inLoop = s.inLoop := by
  cases hr <;> rfl

/-- Only a live timer ticks. -/
theorem Effect.live_of_tick (he : Effect U names s (.tick rnd) s') : s.timers ≠ [] := by
  cases he <;> assumption

/-- **What a tick takes from the time that is left**: one, unless it never gets out of the redraw
loop. -/
theorem Timed.timeLeft (hsafe : Safe names) (h : Timed names s)
    (he : Effect U names s (.tick rnd) s') :
    1 + timeLeft names.length s' ≤ timeLeft names.length s ∧
      (s'.inLoop = false → 1 + timeLeft names.length s' = timeLeft names.length s) := by
  cases he with
  | count hl ht hend =>
      have hpre := timeLeft_of_open names.length h.started h.pushed h.inLoop hend
      have hpost :=
        timeLeft_of_open (s := s.counted) names.length h.started h.pushed h.inLoop hend
      have heq : 1 + Quiz.timeLeft names.length s.counted = Quiz.timeLeft names.length s := by
        rw [hpre, hpost]
        change 1 + (31 * (names.length - 1 - s.loopCount) + (s.timeinmin - 1) + 1) = _
        omega
      exact ⟨heq.le, fun _ => heq⟩
  | finish hl ht hend =>
      have hpre := timeLeft_of_ended names.length h.started h.pushed h.inLoop hend
      have hpost : Quiz.timeLeft names.length s.counted.left = 0 :=
        timeLeft_of_away _ h.started (Or.inl (by simp [Quiz.left]))
      rw [hpre, hpost]
      exact ⟨le_rfl, fun _ => rfl⟩
  | expireCut hl ht hr =>
      have hopen := h.isOpen ht
      have hpre := timeLeft_of_open names.length h.started h.pushed h.inLoop hopen.ended
      -- over a safe list the call is cut short in the redraw loop only
      rcases hr.of_safe hsafe hopen with hin | ⟨hin, -, hlt, hloop⟩ | ⟨-, hend, -⟩
      · have hpost : Quiz.timeLeft names.length s' = 0 :=
          timeLeft_of_away _ (hr.framed.start.trans h.started) (Or.inr hin)
        rw [hpre, hpost]
        refine ⟨?_, fun hi' => absurd (hin.symm.trans hi') (by simp)⟩
        omega
      · obtain ⟨k, p, t, heq, -⟩ := hr.exists_dealt hloop
        exact absurd heq (by simp)
      · exact absurd (hopen.ended.symm.trans (hr.ended_of_stop.symm.trans hend)) (by simp)
  | @expire _ s₁ hl ht hr hend =>
      have hopen := h.isOpen ht
      have hpre := timeLeft_of_open names.length h.started h.pushed h.inLoop hopen.ended
      rcases hr.timeLeft_eq hsafe hopen { s₁ with timeinmin := 30 } rfl rfl rfl rfl rfl rfl with
        ⟨hin, hpost⟩ | ⟨-, -, -, hpost⟩ | ⟨hend', -⟩
      · rw [hpre, hpost]
        refine ⟨?_, fun hi' => absurd (hin.symm.trans hi') (by simp)⟩
        omega
      · have heq : 1 + Quiz.timeLeft names.length { s₁ with timeinmin := 30 } =
            Quiz.timeLeft names.length s := by
          rw [hpre, hpost]
          change 1 + 31 * (names.length - 1 - s.loopCount) = _
          omega
        exact ⟨heq.le, fun _ => heq⟩
      · exact absurd (hend.symm.trans hend') (by simp)
  | @expireEnd _ s₁ hl ht hr hend =>
      have hopen := h.isOpen ht
      have hpre := timeLeft_of_open names.length h.started h.pushed h.inLoop hopen.ended
      have hpost : Quiz.timeLeft names.length { s₁ with timeinmin := 30 }.left = 0 :=
        timeLeft_of_away _ (hr.framed.start.trans h.started) (Or.inl (by simp [Quiz.left]))
      rcases hr.of_safe hsafe hopen with hin | ⟨-, hend', -, -⟩ | ⟨-, -, hlt⟩
      · have hout : s₁.inLoop = false := hr.inLoop_of_done.trans hopen.inLoop
        exact absurd (hout.symm.trans hin) (by simp)
      · exact absurd (hend.symm.trans hend') (by simp)
      · have hlast : names.length - 1 - s.loopCount = 0 := by
          change ¬ s.loopCount < names.length - 1 at hlt
          omega
        rw [hpre, hpost, hlast, ht]
        exact ⟨le_rfl, fun _ => rfl⟩

/-- **What a move takes from the time that is left**: a tick takes one, unless it never gets out of
the redraw loop, and a tap that gives no point takes nothing. -/
theorem Effect.timeLeft (hsafe : Safe names) {e : Event} (h : Core names s) (hclock : Clock s)
    (hi : s.inLoop = false) (he : Effect U names s e s') :
    tickCost ⟨s, e, s'⟩ + timeLeft names.length s' ≤ timeLeft names.length s ∧
      (s'.inLoop = false → s'.obtScore = s.obtScore →
        tickCost ⟨s, e, s'⟩ + timeLeft names.length s' = timeLeft names.length s) := by
  -- a point is given in a move that solves a logo
  have hpoint : ∀ (s₁ : Quiz) {o : Outcome Cut Quiz} {rnd : Rand},
      TaskResult U rnd s₁.credited o → ¬ o.state.obtScore = s₁.obtScore := by
    intro s₁ o rnd hr heq
    have hscore : o.state.obtScore = s₁.obtScore + 1 := hr.framed.obtScore
    omega
  cases e with
  | start rnd =>
      cases he with
      | start hstart _ => exact absurd (hstart.symm.trans h.started) (by simp)
  | tap ρ i rnd =>
      cases he with
      | idle _ => exact ⟨(Nat.zero_add _).le, fun _ _ => Nat.zero_add _⟩
      | hit _ _ _ => exact ⟨(Nat.zero_add _).le, fun _ _ => Nat.zero_add _⟩
      | @solved _ _ _ c o hcard _ _ hr =>
          have hend := h.ended_of_card hcard
          have hp := h.pushed_nil hend
          refine ⟨?_, fun _ hs => absurd hs (hpoint (s.played c ρ) hr)⟩
          rw [tickCost, if_neg (by simp [Event.isTick]), Nat.zero_add]
          exact Called.timeLeft_credited (s := s.played c ρ) hsafe
            ((h.played hend c ρ).called_credited hend hi) hr h.started hp hi hend
      | @gift _ _ c o hcard _ _ hr =>
          have hcard' : (s.row .r1)[_]? = some c := hcard
          have hend := h.ended_of_card hcard'
          have hp := h.pushed_nil hend
          refine ⟨?_, fun _ hs => absurd hs (hpoint { s with j := [] } hr)⟩
          rw [tickCost, if_neg (by simp [Event.isTick]), Nat.zero_add]
          exact Called.timeLeft_credited (s := { s with j := [] }) hsafe
            (h.idle.called_credited hend hi) hr h.started hp hi hend
  | tick rnd =>
      have hp := h.pushed_nil_of_live he.live_of_tick
      obtain ⟨hle, heq⟩ := (h.timed hclock hp hi).timeLeft hsafe he
      exact ⟨hle, fun hi' _ => heq hi'⟩

/-! ### The length of a game -/

/-- The whole time is left after Start, except that a handler may be inside the redraw loop. -/
theorem TaskResult.timeLeft_start (hsafe : Safe names) {o : Outcome Cut Quiz}
    (hr : TaskResult U rnd (({} : Quiz).begun names) o) :
    timeLeft names.length o.state ≤ max 1 (31 * (names.length - 1)) ∧
      (o.state.inLoop = false →
        timeLeft names.length o.state = max 1 (31 * (names.length - 1))) := by
  have hloop : (({} : Quiz).begun names).loopCount = 0 := rfl
  rcases hr.timeLeft_eq hsafe (called_started names).isOpen o.state rfl rfl rfl rfl rfl
      hr.framed.timeinmin with ⟨hin, hzero⟩ | ⟨-, -, hlt, hall⟩ | ⟨-, hlt, hone⟩
  · exact ⟨hzero ▸ Nat.zero_le _, fun hout => absurd (hin.symm.trans hout) (by simp)⟩
  · rw [hloop] at hlt hall
    rw [hall]
    omega
  · rw [hloop] at hlt
    rw [hone]
    omega

/-- **The length of a game in ticks.** -/
theorem ticks_add_timeLeft (hn : 0 < names.length) (hsafe : Safe names)
    {tr : List (Move Quiz Event)} (h : Play U names tr s) :
    ticksIn tr + timeLeft names.length s ≤ max 1 (31 * (names.length - 1)) := by
  rw [← sum_tickCost]
  refine h.cost_le ?_
  intro tr s e s' hrun hs
  rcases core_of_play hn hrun with ⟨-, rfl⟩ | ⟨-, hcore, hclock⟩
  · obtain ⟨rnd, o, rfl, rfl, hr⟩ := start_of_fresh hn hs
    exact (Nat.zero_add _).le.trans (hr.timeLeft_start hsafe).1
  · exact (Effect.timeLeft hsafe hcore hclock (inLoop_of_step hs)
      (effect_of_step hn (Or.inr hcore) hs)).1

/-- A move leaves the score alone or raises it by one. -/
theorem Effect.score {e : Event} (he : Effect U names s e s') :
    s'.obtScore = s.obtScore ∨ s'.obtScore = s.obtScore + 1 := by
  cases he with
  | start _ hr => exact Or.inr hr.framed.obtScore
  | solved _ _ _ hr => exact Or.inr hr.framed.obtScore
  | gift _ _ _ hr => exact Or.inr hr.framed.obtScore
  | expireCut _ _ hr => exact Or.inl hr.framed.obtScore
  | expire _ _ hr _ => exact Or.inl hr.framed.obtScore
  | expireEnd _ _ hr _ => exact Or.inl hr.framed.obtScore
  | _ => exact Or.inl rfl

/-- **In a game without points no time is given away.** -/
theorem ticks_add_timeLeft_eq (hn : 0 < names.length) (hsafe : Safe names)
    {tr : List (Move Quiz Event)} (h : Play U names tr s) :
    (tr ≠ [] → 0 ≤ s.obtScore) ∧ (s.obtScore ≤ 0 → s.inLoop = false →
      ticksIn tr + timeLeft names.length s = max 1 (31 * (names.length - 1))) := by
  refine Run.invariant (I := fun tr s => (tr ≠ [] → 0 ≤ s.obtScore) ∧
    (s.obtScore ≤ 0 → s.inLoop = false →
      ticksIn tr + timeLeft names.length s = max 1 (31 * (names.length - 1)))) ?_ ?_ h
  · exact ⟨fun hne => absurd rfl hne, fun _ _ => Nat.zero_add _⟩
  · intro tr s e s' hrun ih hs
    rw [ticksIn_concat]
    rcases core_of_play hn hrun with ⟨rfl, rfl⟩ | ⟨hne, hcore, hclock⟩
    · obtain ⟨rnd, o, rfl, rfl, hr⟩ := start_of_fresh hn hs
      have hzero : o.state.obtScore = 0 := hr.framed.obtScore
      refine ⟨fun _ => hzero.ge, ?_⟩
      intro _ hi
      exact (Nat.zero_add _).trans ((hr.timeLeft_start hsafe).2 hi)
    · have he := effect_of_step hn (Or.inr hcore) hs
      have hpos := ih.1 hne
      have hscore := he.score
      refine ⟨fun _ => by omega, ?_⟩
      intro hle hi
      -- no point has been given so far, and this move gives none
      have hcost := (he.timeLeft hsafe hcore hclock (inLoop_of_step hs)).2 hi (by omega)
      have hall := ih.2 (by omega) (inLoop_of_step hs)
      change ticksIn tr + tickCost ⟨s, e, s'⟩ + timeLeft names.length s' = _
      omega

/-- Time is left until the screen has been left. -/
theorem timeLeft_eq_zero_iff (hs : s.start = .next) (hi : s.inLoop = false) :
    timeLeft n s = 0 ↔ s.pushed ≠ [] := by
  rw [timeLeft, if_neg (by simp [hs])]
  by_cases hp : s.pushed = []
  · rw [if_neg (by simp [hp, hi])]
    split <;> simp [hp]
  · rw [if_pos (Or.inl hp)]
    simp [hp]

/-- **The length of a game.**  Over a list on which no call of `task` throws, a game takes at most
thirty-one ticks for each path but one: after that many, and one where there is a single path, the
screen has been left or a handler is inside the redraw loop.  As long as no point is given nothing
is gained: the screen is left with the last of these ticks and not before. -/
theorem length_of_game (hn : 1 ≤ names.length) (hsafe : names.length = 1 ∨ ∀ p ∈ names, Dealable p)
    {tr : List (Move Quiz Event)} (h : Play U names tr s) (hne : tr ≠ []) :
    ticksIn tr ≤ max 1 (31 * (names.length - 1)) ∧
      (s.pushed = [] → s.inLoop = false → ticksIn tr < max 1 (31 * (names.length - 1))) ∧
      (s.obtScore = 0 → s.inLoop = false →
        (s.pushed ≠ [] ↔ ticksIn tr = max 1 (31 * (names.length - 1)))) := by
  have hle := ticks_add_timeLeft hn hsafe h
  rcases core_of_play hn h with ⟨hnil, -⟩ | ⟨-, hcore, -⟩
  · exact absurd hnil hne
  · refine ⟨by omega, ?_, ?_⟩
    · intro hp hi
      have hpos : timeLeft names.length s ≠ 0 := fun hzero =>
        (timeLeft_eq_zero_iff hcore.started hi).1 hzero hp
      omega
    · intro hscore hi
      have heq := (ticks_add_timeLeft_eq hn hsafe h).2 hscore.le hi
      rw [← timeLeft_eq_zero_iff (n := names.length) hcore.started hi]
      omega

/-- Two logos: the first one is solved, and one tick ends the game. -/
theorem length_of_game_logoPath :
    ∃ tr s, Play .ascii [logoPath, logoPath] tr s ∧ s.pushed = [⟨['1'], ['2']⟩] ∧
      ticksIn tr ≤ max 1 (31 * (2 - 1)) := by
  obtain ⟨tr, s, hrun, hne, hpushed⟩ := exists_play_solved
  have hsafe : Safe [logoPath, logoPath] := safe_of_wellFormed (by simpa using wellFormed_logoPath)
  exact ⟨tr, s, hrun, hpushed, (length_of_game (by decide) hsafe hrun hne).1⟩

/-! ### The timer brings the game to its end -/

/-- **A tick that finds an index to draw** does not end inside the redraw loop, and gives no
point. -/
theorem Timed.of_onlyDraws {k : ℕ} (h : Timed names s)
    (hfresh : s.ended = false → k < names.length ∧ k ∉ s.repeated)
    (he : Effect U names s (.tick (onlyDraws k)) s') :
    s'.inLoop = false ∧ s'.obtScore = s.obtScore := by
  have hdraw : ∀ {o : Outcome Cut Quiz}, s.timeinmin = 0 →
      TaskResult U (onlyDraws k) { s with loaded := false } o → o.state.inLoop = false := by
    intro o ht hr
    obtain ⟨hk, hnew⟩ := hfresh (h.isOpen ht).ended
    have hlt : k < s.images.length := h.images.symm ▸ hk
    exact (TaskResult.of_onlyDraws (s := { s with loaded := false }) hlt hnew hr).2.trans h.inLoop
  cases he with
  | count _ _ _ => exact ⟨h.inLoop, rfl⟩
  | finish _ _ _ => exact ⟨h.inLoop, rfl⟩
  | expireCut _ ht hr => exact ⟨hdraw ht hr, hr.framed.obtScore⟩
  | expire _ ht hr _ => exact ⟨hdraw ht hr, hr.framed.obtScore⟩
  | expireEnd _ ht hr _ => exact ⟨hdraw ht hr, hr.framed.obtScore⟩

/-- The states of a game from which the timer goes on alone, with the score `score`. -/
def Unwinding (U : CaseMap) (names : List Str) (score : ℤ) (s : Quiz) : Prop :=
  (∃ tr, tr ≠ [] ∧ Play U names tr s) ∧ s.inLoop = false ∧ s.obtScore = score

/-- With time left the timer can tick, and one tick takes one from it. -/
theorem Unwinding.tick (hn : 0 < names.length) (hsafe : Safe names) {score : ℤ}
    (h : Unwinding U names score s) (hpos : 0 < timeLeft names.length s) :
    ∃ e s', e.isTick = true ∧ step U names s e = some s' ∧ Unwinding U names score s' ∧
      timeLeft names.length s' + 1 = timeLeft names.length s := by
  obtain ⟨⟨tr, hne, hplay⟩, hi, hscore⟩ := h
  rcases core_of_play hn hplay with ⟨hnil, -⟩ | ⟨-, hcore, hclock⟩
  · exact absurd hnil hne
  · have hp : s.pushed = [] := by
      by_contra hp
      rw [(timeLeft_eq_zero_iff hcore.started hi).2 hp] at hpos
      omega
    -- an index is left to draw while the game is not over
    obtain ⟨k, hfresh⟩ : ∃ k, s.ended = false → k < names.length ∧ k ∉ s.repeated := by
      cases he : s.ended with
      | true => exact ⟨0, fun hf => absurd hf (by simp)⟩
      | false =>
          have heven := even_of_play hn hsafe hplay
          have hbound := heven.bound
          obtain ⟨k, hk, hnew⟩ := exists_fresh (l := s.repeated) (n := names.length)
            (by rw [heven.dealt he]; omega)
          exact ⟨k, fun _ => ⟨hk, hnew⟩⟩
    have hlive : s.timers ≠ [] := by
      obtain ⟨t, -, hts⟩ := hcore.live hp
      simp [hts]
    have hstep : step U names s (.tick (onlyDraws k)) =
        some (Quiz.tick U (onlyDraws k) s).state := if_pos ⟨hi, hlive⟩
    have he := effect_of_step hn (Or.inr hcore) hstep
    have htimed := hcore.timed hclock hp hi
    obtain ⟨hi', hscore'⟩ := htimed.of_onlyDraws hfresh he
    have hcost := (htimed.timeLeft hsafe he).2 hi'
    refine ⟨_, _, rfl, hstep, ⟨⟨_, by simp, hplay.snoc hstep⟩, hi', hscore'.trans hscore⟩, ?_⟩
    rw [Nat.add_comm]
    exact hcost

/-- The ticks that are left lead to the result screen. -/
theorem Unwinding.exists_result (hn : 0 < names.length) (hsafe : Safe names) {score : ℤ}
    (h : Unwinding U names score s) :
    ∃ tr' s', Run (step U names) s tr' s' ∧ (∀ m ∈ tr', m.event.isTick = true) ∧
      tr'.length = timeLeft names.length s ∧
      s'.pushed = [⟨intToString score, intToString names.length⟩] := by
  obtain ⟨tr', s', hrun, ⟨⟨tr, hne, hplay⟩, hi, hscore⟩, hzero, hev, hlen⟩ :=
    exists_run_of_countdown (I := Unwinding U names score)
      (P := fun e : Event => e.isTick = true) (fun _ hs hpos => hs.tick hn hsafe hpos) h
  refine ⟨tr', s', hrun, hev, hlen, ?_⟩
  rcases core_of_play hn hplay with ⟨hnil, -⟩ | ⟨-, hcore, -⟩
  · exact absurd hnil hne
  · obtain ⟨-, -, hpushed⟩ := hcore.gone ((timeLeft_eq_zero_iff hcore.started hi).1 hzero)
    rw [hpushed, hscore, hcore.total]

/-- **The timer alone brings every game to its end.**  Over a list on which no call of `task`
throws, from every state of every game in which no handler is inside the redraw loop, exactly as
many ticks as are left lead to the result screen, if nothing more is tapped and the random source
finds an index; the screen is left with the score reached so far. -/
theorem exists_ticks_to_result (hn : 1 ≤ names.length)
    (hsafe : names.length = 1 ∨ ∀ p ∈ names, Dealable p) {tr : List (Move Quiz Event)}
    (h : Play U names tr s) (hne : tr ≠ []) (hi : s.inLoop = false) :
    ∃ tr' s', Run (step U names) s tr' s' ∧ (∀ m ∈ tr', m.event.isTick = true) ∧
      tr'.length = timeLeft names.length s ∧
      s'.pushed = [⟨intToString s.obtScore, intToString names.length⟩] :=
  Unwinding.exists_result hn hsafe ⟨⟨tr, hne, h⟩, hi, rfl⟩

/-- Two logos: Start deals the first one, and thirty-one ticks later the score `0` out of `2` is
shown. -/
theorem exists_ticks_to_result_logoPath :
    ∃ tr s tr' s', Play .ascii [logoPath, logoPath] tr s ∧
      Run (step .ascii [logoPath, logoPath]) s tr' s' ∧ tr'.length = 31 ∧
      s'.pushed = [⟨['0'], ['2']⟩] := by
  have hstart : step .ascii [logoPath, logoPath] {} (.start (onlyDraws 0)) =
      some (pressStart .ascii [logoPath, logoPath] (onlyDraws 0) {}).state := rfl
  have hsafe : Safe [logoPath, logoPath] := safe_of_wellFormed (by simpa using wellFormed_logoPath)
  obtain ⟨tr', s', hrun, -, hlen, hpushed⟩ :=
    exists_ticks_to_result (by decide) hsafe (Run.single hstart) (by simp) (by decide)
  exact ⟨_, _, tr', s', Run.single hstart, hrun, hlen.trans (by decide), hpushed⟩

/-! ### Any list of paths -/

/-- **A call of `task` over any list**: it is still drawing, or it has drawn one of the indices that
were left. -/
theorem TaskResult.drawn_or (hc : Called names s) {o : Outcome Cut Quiz}
    (hr : TaskResult U rnd s o) :
    o.state.inLoop = true ∨
      (o.state.repeated.length = s.repeated.length + 1 ∧ s.repeated.length < names.length) := by
  have hdraw : ∀ {k : ℕ}, Fresh rnd s k → (s.repeated ++ [k]).length = s.repeated.length + 1 ∧
      s.repeated.length < names.length := by
    intro k hk
    obtain ⟨hnd, hlt⟩ := hc.draw hk
    have hlen : (s.repeated ++ [k]).length = s.repeated.length + 1 := by
      rw [List.length_append, List.length_singleton]
    have hle := length_le_of_lt hnd hlt
    rw [hlen] at hle
    exact ⟨hlen, hle⟩
  cases hr with
  | drawing => exact Or.inl rfl
  | unread hk => exact Or.inr (hdraw hk)
  | misfit hk => exact Or.inr (hdraw hk)
  | dealt hk => exact Or.inr (hdraw hk)
  | ending hk => exact Or.inr (hdraw hk)

/-- What can be left after a call of `task`. -/
theorem TaskResult.drawTime_le (hc : Called names s) {o : Outcome Cut Quiz}
    (hr : TaskResult U rnd s o) (s' : Quiz) (hs : s'.start = o.state.start)
    (hi : s'.inLoop = o.state.inLoop) (hrep : s'.repeated = o.state.repeated)
    (ht : s'.timeinmin ≤ 30) :
    drawTime names.length s' ≤ 31 * (names.length - s.repeated.length) := by
  rw [drawTime, if_neg (by simp [hs, hr.framed.start, hc.started])]
  rcases hr.drawn_or hc with hin | ⟨hlen, hlt⟩
  · rw [if_pos (Or.inr (hi.trans hin))]
    exact Nat.zero_le _
  · split
    · exact Nat.zero_le _
    · rw [hrep, hlen]
      omega

/-- **What a move takes from the time that can be left**, whatever the paths look like. -/
theorem Effect.drawTime {e : Event} (h : Core names s) (hclock : Clock s) (hi : s.inLoop = false)
    (he : Effect U names s e s') :
    tickCost ⟨s, e, s'⟩ + drawTime names.length s' ≤ drawTime names.length s := by
  have hpre : s.pushed = [] → Quiz.drawTime names.length s =
      31 * (names.length - s.repeated.length) + s.timeinmin + 1 := by
    intro hp
    rw [Quiz.drawTime, if_neg (by simp [h.started]), if_neg (by simp [hp, hi])]
  -- a tick that calls `task` finds the clock at zero
  have hexpire : ∀ {o : Outcome Cut Quiz} {rnd : Rand} (s'' : Quiz), s.timers ≠ [] →
      s.timeinmin = 0 → TaskResult U rnd { s with loaded := false } o →
      s''.start = o.state.start → s''.inLoop = o.state.inLoop →
      s''.repeated = o.state.repeated → s''.timeinmin ≤ 30 →
      1 + Quiz.drawTime names.length s'' ≤ Quiz.drawTime names.length s := by
    intro o rnd s'' hl ht hr hs hin hrep hle
    have hpost := hr.drawTime_le (h.called_expired hclock hl ht hi) s'' hs hin hrep hle
    have hpre' := hpre (h.pushed_nil_of_live hl)
    change _ ≤ 31 * (names.length - s.repeated.length) at hpost
    omega
  cases he with
  | start hstart _ => exact absurd (hstart.symm.trans h.started) (by simp)
  | idle _ => exact (Nat.zero_add _).le
  | hit _ _ _ => exact (Nat.zero_add _).le
  | @solved ρ _ _ c o hcard _ _ hr =>
      have hend := h.ended_of_card hcard
      have hcalled := (h.played hend c ρ).called_credited hend hi
      have hpost := hr.drawTime_le hcalled o.state rfl rfl rfl hr.framed.timeinmin.le
      have hpre' := hpre (h.pushed_nil hend)
      change 0 + _ ≤ _
      change _ ≤ 31 * (names.length - s.repeated.length) at hpost
      omega
  | @gift _ _ c o hcard _ _ hr =>
      have hcard' : (s.row .r1)[_]? = some c := hcard
      have hend := h.ended_of_card hcard'
      have hpost := hr.drawTime_le (h.idle.called_credited hend hi) o.state rfl rfl rfl
        hr.framed.timeinmin.le
      have hpre' := hpre (h.pushed_nil hend)
      change 0 + _ ≤ _
      change _ ≤ 31 * (names.length - s.repeated.length) at hpost
      omega
  | count hl ht _ =>
      have hp := h.pushed_nil_of_live hl
      rw [hpre hp, Quiz.drawTime, if_neg (by simp [Quiz.counted, h.started]),
        if_neg (by simp [Quiz.counted, hp, hi])]
      change 1 + (31 * (names.length - s.repeated.length) + (s.timeinmin - 1) + 1) ≤ _
      omega
  | finish hl ht _ =>
      rw [hpre (h.pushed_nil_of_live hl), Quiz.drawTime,
        if_neg (by simp [Quiz.left, Quiz.cancelled, Quiz.counted, h.started]),
        if_pos (Or.inl (by simp [Quiz.left]))]
      change 1 + 0 ≤ _
      omega
  | expireCut hl ht hr =>
      have htime : s'.timeinmin = 0 := hr.framed.timeinmin.trans ht
      exact hexpire s' hl ht hr rfl rfl rfl (by omega)
  | @expire _ s₁ hl ht hr _ => exact hexpire { s₁ with timeinmin := 30 } hl ht hr rfl rfl rfl le_rfl
  | @expireEnd _ s₁ hl ht hr _ =>
      exact hexpire { s₁ with timeinmin := 30 }.left hl ht hr rfl rfl rfl le_rfl

/-- Three rows of at most five cards. -/
theorem TaskResult.cardsLeft_le (hc : Called names s) {o : Outcome Cut Quiz}
    (hr : TaskResult U rnd s o) :
    cardsLeft names.length o.state ≤ 15 * (names.length - 1 - s.loopCount) := by
  have hnone : ∀ {s' : Quiz}, s'.cards = [] → s'.loopCount = s.loopCount →
      cardsLeft names.length s' ≤ 15 * (names.length - 1 - s.loopCount) := by
    intro s' hcards hloop
    rw [cardsLeft, hcards, hloop]
    exact (Nat.zero_add _).le
  cases hr with
  | drawing => exact hnone rfl rfl
  | unread => exact hnone rfl rfl
  | misfit => exact hnone rfl rfl
  | ending => exact hnone rfl rfl
  | @dealt k p t hk hlt hp ht hlen =>
      rw [hc.images] at hlt
      have hcards : (s.dealt U rnd k p t).cards.length ≤ 5 + 5 + 5 := by
        rw [cards, List.length_append, List.length_append]
        exact Nat.add_le_add (Nat.add_le_add (List.length_take_le _ _) (List.length_take_le _ _))
          (List.length_take_le _ _)
      rw [cardsLeft]
      change (s.dealt U rnd k p t).cards.length + 15 * (names.length - 1 - (s.loopCount + 1)) ≤ _
      omega

/-- The card that has been played is gone. -/
theorem length_cards_played {ρ : Row} {i : ℕ} {c : Str} (hc : (s.row ρ)[i]? = some c) :
    (s.played c ρ).cards.length + 1 = s.cards.length := by
  have hmem : c ∈ s.row ρ := List.mem_of_getElem? hc
  have hpos := List.length_pos_of_mem hmem
  cases ρ with
  | r1 =>
      have hlen : (s.r1.erase c).length = s.r1.length - 1 := List.length_erase_of_mem hmem
      change 0 < s.r1.length at hpos
      simp only [cards, played, List.length_append, hlen, if_true, reduceCtorEq, if_false]
      omega
  | r2 =>
      have hlen : (s.r2.erase c).length = s.r2.length - 1 := List.length_erase_of_mem hmem
      change 0 < s.r2.length at hpos
      simp only [cards, played, List.length_append, hlen, if_true, reduceCtorEq, if_false]
      omega
  | r3 =>
      have hlen : (s.r3.erase c).length = s.r3.length - 1 := List.length_erase_of_mem hmem
      change 0 < s.r3.length at hpos
      simp only [cards, played, List.length_append, hlen, if_true, reduceCtorEq, if_false]
      omega

/-- **A tap on a letter of the answer takes a card away, and no other move brings one back** that
was not to be dealt. -/
theorem Effect.cardsLeft {e : Event} (h : Core names s) (hclock : Clock s) (hi : s.inLoop = false)
    (he : Effect U names s e s') :
    (if hitBy ⟨s, e, s'⟩ = true then 1 else 0) + cardsLeft names.length s' ≤
      cardsLeft names.length s := by
  have hcost : ∀ m : Move Quiz Event, (if hitBy m = true then 1 else 0) ≤ 1 := by
    intro m
    split <;> omega
  have htick : ∀ (rnd : Rand) (s'' : Quiz), hitBy ⟨s, .tick rnd, s''⟩ = false := fun _ _ => rfl
  have hexpire : ∀ {o : Outcome Cut Quiz} {rnd : Rand}, s.timers ≠ [] → s.timeinmin = 0 →
      TaskResult U rnd { s with loaded := false } o →
      Quiz.cardsLeft names.length o.state ≤ Quiz.cardsLeft names.length s := by
    intro o rnd hl ht hr
    exact (hr.cardsLeft_le (h.called_expired hclock hl ht hi)).trans (Nat.le_add_left _ _)
  cases he with
  | start hstart _ => exact absurd (hstart.symm.trans h.started) (by simp)
  | @idle ρ i rnd hidle =>
      have hmiss : hitBy ⟨s, .tap ρ i rnd, { s with j := [] }⟩ = false := by
        rcases hidle with hc | ⟨c, hc, hmem, -⟩
        · simp [hitBy, tappedBy, hc]
        · simp [hitBy, tappedBy, hc, hmem]
      rw [if_neg (by simp [hmiss])]
      exact (Nat.zero_add _).le
  | @hit ρ i rnd c hc _ _ =>
      have hlen := length_cards_played hc
      have hone := hcost ⟨s, .tap ρ i rnd, s.played c ρ⟩
      rw [Quiz.cardsLeft, Quiz.cardsLeft]
      change _ + (_ + 15 * (names.length - 1 - s.loopCount)) ≤ _
      omega
  | @solved ρ i rnd c o hc _ _ hr =>
      have hend := h.ended_of_card hc
      have hpost := hr.cardsLeft_le ((h.played hend c ρ).called_credited hend hi)
      have hlen := length_cards_played hc
      have hone := hcost ⟨s, .tap ρ i rnd, o.state⟩
      rw [Quiz.cardsLeft.eq_def _ s]
      change _ ≤ 15 * (names.length - 1 - s.loopCount) at hpost
      omega
  | @gift i rnd c o hc hmem _ hr =>
      have hc' : (s.row .r1)[i]? = some c := hc
      have hend := h.ended_of_card hc'
      have hpost := hr.cardsLeft_le (h.idle.called_credited hend hi)
      have hmiss : hitBy ⟨s, .tap .r1 i rnd, o.state⟩ = false := by
        simp [hitBy, tappedBy, hc', hmem]
      rw [if_neg (by simp [hmiss]), Nat.zero_add]
      exact hpost.trans (Nat.le_add_left _ _)
  | count _ _ _ => exact (Nat.zero_add _).le
  | finish _ _ _ => exact (Nat.zero_add _).le
  | expireCut hl ht hr =>
      rw [if_neg (by simp [htick]), Nat.zero_add]
      exact hexpire hl ht hr
  | expire hl ht hr _ =>
      rw [if_neg (by simp [htick]), Nat.zero_add]
      exact hexpire hl ht hr
  | expireEnd hl ht hr _ =>
      rw [if_neg (by simp [htick]), Nat.zero_add]
      exact hexpire hl ht hr

/-- **The taps that show a letter are bounded by the cards.**  In every run, whatever the paths look
like and whatever the random sources answer, the taps on letters of the answer and the cards that
are still on the screen together are at most fifteen for each logo dealt so far, and fewer logos are
dealt than there are paths. -/
theorem hits_add_cards (hn : 1 ≤ names.length) {tr : List (Move Quiz Event)}
    (h : Play U names tr s) :
    hitsIn tr + s.cards.length ≤ 15 * s.loopCount ∧ s.loopCount ≤ names.length - 1 := by
  have hle : hitsIn tr + cardsLeft names.length s ≤ 15 * (names.length - 1) := by
    rw [hitsIn, ← sum_map_ite]
    refine (h.cost_le (φ := cardsLeft names.length) ?_).trans_eq (Nat.zero_add _)
    intro tr s e s' hrun hs
    rcases core_of_play hn hrun with ⟨-, rfl⟩ | ⟨-, hcore, hclock⟩
    · obtain ⟨rnd, o, rfl, rfl, hr⟩ := start_of_fresh hn hs
      exact (Nat.zero_add _).le.trans
        ((hr.cardsLeft_le (called_started names)).trans (Nat.le_add_left _ _))
    · exact (effect_of_step hn (Or.inr hcore) hs).cardsLeft hcore hclock (inLoop_of_step hs)
  have hloop : s.loopCount ≤ names.length - 1 := by
    rcases core_of_play hn h with ⟨-, rfl⟩ | ⟨-, hcore, -⟩
    · exact Nat.zero_le _
    · exact hcore.loop.2
  rw [cardsLeft] at hle
  exact ⟨by omega, hloop⟩

/-- Two logos: one tap has shown the letter of the first one. -/
theorem hits_add_cards_logoPath :
    ∃ tr s, Play .ascii [logoPath, logoPath] tr s ∧ s.pushed = [⟨['1'], ['2']⟩] ∧
      hitsIn tr + s.cards.length ≤ 15 * s.loopCount := by
  obtain ⟨tr, s, hrun, -, hpushed⟩ := exists_play_solved
  exact ⟨tr, s, hrun, hpushed, (hits_add_cards (by decide) hrun).1⟩

end

end Quiz

end LogoGuess
