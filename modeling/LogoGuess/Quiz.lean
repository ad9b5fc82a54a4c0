/-
**The quiz screen.**

This module transcribes the state class `_QuizState` of `lib/Quiz.dart`: its fields, the method
`task` that draws and deals the next logo, the periodic timer that `getstart` creates, and the
handlers of the buttons and of the letter cards.  Every method is a function from the fields it
finds to the fields it leaves, in the order of its statements; a statement that throws cuts the
handler short and keeps what was written before it.

Three things outside the class are made explicit.  The random sources answer through a value of
`LogoGuess.Rand`.  The timers that have been created and not cancelled, the arguments pushed with
the route `/thanks` and whether the widget is mounted are part of the state.  And the redraw loop
of `task` is run on the answers of `random.nextInt` it is given: if all of them have been drawn
before, the loop is still running when they are used up, and the handler is cut short there.

Main definitions:

* `LogoGuess.Quiz` — the fields of `_QuizState`, the timers and the pushed routes;
* `LogoGuess.Quiz.task` — clearing the fields, drawing an unused index and dealing its logo;
* `LogoGuess.Quiz.getstart`, `LogoGuess.Quiz.tick` — creating the timer, and its callback;
* `LogoGuess.Quiz.onPressed`, `LogoGuess.Quiz.onPressedDone` — the buttons;
* `LogoGuess.Quiz.onTapR1`, `LogoGuess.Quiz.onTapR2`, `LogoGuess.Quiz.onTapR3` — the cards;
* `LogoGuess.Quiz.step` — what an event does to a quiz on which Start is pressed once.
-/

import LogoGuess.EventLoop
import LogoGuess.DartString

set_option relaxedAutoImplicit false
set_option autoImplicit false

namespace LogoGuess

open Dart EventLoop

/-! ### The data -/

/-- The caption of the button below the logo. -/
inductive Caption where
  | start
  | next
  deriving DecidableEq

/-- Why a handler was cut short. -/
inductive Cut where
  /-- An index or a substring bound is out of range, or `random.nextInt` is called with `0`. -/
  | rangeError
  /-- `randomAlpha` is asked for a negative number of letters. -/
  | negativeLength
  /-- A method is called on `null`. -/
  | noSuchMethod
  /-- `setState` is called on a widget that is no longer mounted. -/
  | disposed
  /-- The redraw loop of `task` has used up the answers of `random.nextInt`. -/
  | drawing
  deriving DecidableEq

/-- The arguments of the route `/thanks`. -/
structure Score where
  obt : Str
  tot : Str
  deriving DecidableEq

/-- What the random sources answer while one handler runs. -/
structure Rand where
  /-- The answers of `random.nextInt(max)`, to be read modulo `max`. -/
  nextInt : List ℕ
  /-- The answer of `randomAlpha(k)`. -/
  randomAlpha : ℕ → Str
  /-- The effect of `shuffle` on a list of letters. -/
  shuffle : List Str → List Str

/-- A call of `task`, as it finds the fields the redraw loop and the end of the game depend on. -/
structure Call where
  repeated : List ℕ
  ended : Bool
  deriving DecidableEq

/-- **The state of the quiz screen**: the fields of `_QuizState` that its methods use, with the
values they are declared with.  The fields `repeat` and `end` of the source are `repeated` and
`ended` here. -/
structure Quiz where
  start : Caption := .start
  title : Str := []
  images : List Str := []
  visible : Bool := true
  timerVisible : Bool := false
  loaded : Bool := false
  text : List Str := []
  totalScore : ℕ := 0
  r : Str := []
  j : List ℕ := []
  r1 : List Str := []
  r2 : List Str := []
  r3 : List Str := []
  correct : List Str := []
  randomalphabets : List Str := []
  firstpic : Str := ['q', 'u', 'i', 'z', '.', 'j', 'p', 'g']
  picCount : ℕ := 0
  loopCount : ℕ := 0
  count : ℕ := 0
  sub : ℕ := 1
  obtScore : ℤ := -1
  timeinmin : ℕ := 30
  timer : Option ℕ := none
  percent : ℚ := 1
  ended : Bool := false
  repeated : List ℕ := []
  /-- Whether the widget is mounted. -/
  mounted : Bool := true
  /-- The periodic timers that have been created and not cancelled. -/
  timers : List ℕ := []
  /-- How many timers have been created; this is the name of the next one. -/
  created : ℕ := 0
  /-- The arguments of the pushes of `/thanks`, in order. -/
  pushed : List Score := []
  /-- The calls of `task` so far. -/
  calls : List Call := []
  /-- Whether the last handler is still inside the redraw loop. -/
  inLoop : Bool := false

namespace Quiz

/-! ### The method `task` -/

/-- The assignments at the head of `task`. -/
def clear (s : Quiz) : Quiz :=
  { s with
    sub := 1
    percent := 1
    visible := false
    text := []
    r1 := []
    r2 := []
    r3 := []
    j := []
    correct := []
    randomalphabets := []
    calls := s.calls ++ [⟨s.repeated, s.ended⟩] }

/-- The draw and the loop that redraws while the index has been drawn before. -/
def redraw (s : Quiz) : List ℕ → Outcome Cut Quiz
  | [] => .stop .drawing { s with inLoop := true }
  | k :: ks =>
      let s := { s with picCount := k % s.images.length }
      if s.picCount ∈ s.repeated then redraw s ks else .done s

/-- The loop over the title, which ends at the first `-`. -/
def spell (U : CaseMap) : Str → Quiz → Quiz
  | [], s => s
  | c :: cs, s =>
      if c = '-' then s
      else
        spell U cs
          { s with
            randomalphabets := s.randomalphabets ++ [U.toUpperCase c]
            text := s.text ++ [[]]
            correct := s.correct ++ [U.toUpperCase c] }

/-- The loop that adds the random letters. -/
def fill (U : CaseMap) : Str → Quiz → Quiz
  | [], s => s
  | c :: cs, s =>
      fill U cs { s with randomalphabets := s.randomalphabets ++ [U.toUpperCase c] }

/-- The loop that distributes the letters over the rows; `y` is its counter. -/
def split : ℕ → List Str → Quiz → Quiz
  | _, [], s => s
  | y, a :: as, s =>
      split (y + 1) as
        { s with
          r1 := if y < 5 then s.r1 ++ [a] else s.r1
          r2 := if 5 ≤ y ∧ y < 10 then s.r2 ++ [a] else s.r2
          r3 := if 10 ≤ y ∧ y < 15 then s.r3 ++ [a] else s.r3 }

/-- The letters and the rows of a logo whose title is known. -/
def dealTitle (U : CaseMap) (rnd : Rand) (title : Str) (s : Quiz) : Outcome Cut Quiz :=
  let s := spell U title { s with title := title }
  -- `randomAlpha` throws on a negative length
  if 15 < s.randomalphabets.length then .stop .negativeLength s
  else
    let s := { s with r := rnd.randomAlpha (15 - s.randomalphabets.length) }
    let s := fill U s.r s
    let s := { s with randomalphabets := rnd.shuffle s.randomalphabets }
    let s := split 0 s.randomalphabets s
    .done { s with loopCount := s.loopCount + 1 }

/-- The part of `task` after the draw. -/
def deal (U : CaseMap) (rnd : Rand) (s : Quiz) : Outcome Cut Quiz :=
  let s := { s with repeated := s.repeated ++ [s.picCount] }
  if s.loopCount < s.images.length - 1 then
    let s := { s with count := s.count + 1 }
    match s.images[s.picCount]? with
    | none => .stop .rangeError s
    | some firstpic =>
        let s := { s with firstpic := firstpic, title := firstpic.reverse }
        match substring s.title 4 (indexOf '/' s.title) with
        | none => .stop .rangeError s
        | some title => dealTitle U rnd title.reverse s
  else .done { s with ended := true }

/-- **The method `task`.** -/
def task (U : CaseMap) (rnd : Rand) (s : Quiz) : Outcome Cut Quiz :=
  let s := s.clear
  -- `random.nextInt(0)` throws
  if s.images.length = 0 then .stop .rangeError s
  else (s.redraw rnd.nextInt).bind (deal U rnd)

/-! ### The timer -/

/-- `setState`: the closure runs only on a mounted widget. -/
def setState (body : Quiz → Outcome Cut Quiz) (s : Quiz) : Outcome Cut Quiz :=
  if s.mounted then body s else .stop .disposed s

/-- `getstart`: the countdown restarts and a new periodic timer replaces the old one. -/
def getstart (s : Quiz) : Quiz :=
  if s.mounted then
    { s with
      timeinmin := 30
      timer := some s.created
      timers := s.timers ++ [s.created]
      created := s.created + 1 }
  else s

/-- `_timer.cancel()`. -/
def cancel (s : Quiz) : Outcome Cut Quiz :=
  match s.timer with
  | none => .stop .noSuchMethod s
  | some t => .done { s with timers := s.timers.filter (· ≠ t) }

/-- The first `setState` of the timer callback: count down, or deal the next logo. -/
def countdown (U : CaseMap) (rnd : Rand) (s : Quiz) : Outcome Cut Quiz :=
  if 0 < s.timeinmin then
    .done
      { s with
        percent := ((s.timeinmin : ℚ) - 1) * (33333 / 10000) / 100
        timeinmin := s.timeinmin - 1 }
  else (task U rnd { s with loaded := false }).bind fun s => .done { s with timeinmin := 30 }

/-- The second `setState` of the timer callback: leave the screen when the game is over. -/
def leave (s : Quiz) : Outcome Cut Quiz :=
  if s.ended then
    s.cancel.bind fun s =>
      .done
        { s with
          pushed := s.pushed ++ [⟨intToString s.obtScore, intToString s.totalScore⟩] }
  else .done s

/-- **The timer callback.** -/
def tick (U : CaseMap) (rnd : Rand) (s : Quiz) : Outcome Cut Quiz :=
  (if s.mounted then setState (countdown U rnd) s else .done s).bind (setState leave)

/-! ### The buttons -/

/-- The statements shared by the button and by a solved logo, up to the call of `task`. -/
def advance (s : Quiz) : Quiz :=
  getstart
    { s with
      start := .next
      loaded := false
      timerVisible := true
      obtScore := s.obtScore + 1 }

/-- The handler of the Start/Next button from its `setState` on. -/
def onPressed (U : CaseMap) (rnd : Rand) : Quiz → Outcome Cut Quiz :=
  setState fun s =>
    (if s.start = .next then s.cancel else .done s).bind fun s => task U rnd s.advance

/-- `getIm`, before its first suspension. -/
def getImBegin (s : Quiz) : Quiz := { s with images := [] }

/-- `getIm`, after the stored list of paths has been decoded. -/
def getImEnd (names : List Str) (s : Quiz) : Quiz :=
  { s with images := names, totalScore := names.length }

/-- A press on Start that is carried out to its end: the list of paths is loaded and the handler
resumes. -/
def pressStart (U : CaseMap) (names : List Str) (rnd : Rand) (s : Quiz) : Outcome Cut Quiz :=
  onPressed U rnd (s.getImBegin.getImEnd names)

/-- The handler of the Done button. -/
def onPressedDone : Quiz → Outcome Cut Quiz :=
  setState fun s =>
    let s := { s with obtScore := s.obtScore + 1 }
    cancel { s with
      pushed := s.pushed ++ [⟨intToString s.obtScore, intToString s.totalScore⟩] }

/-- Whether the Start/Next button is on the screen. -/
def nextEnabled (s : Quiz) : Bool :=
  (s.start = .start ∨ (s.count : ℤ) ≤ (s.images.length : ℤ) - 1) && s.visible

/-- Whether the Done button is on the screen. -/
def doneEnabled (s : Quiz) : Bool :=
  (s.count = s.images.length ∧ s.images.length ≠ 0) && s.visible

/-! ### The cards -/

/-- The three rows of cards. -/
inductive Row where
  | r1
  | r2
  | r3
  deriving DecidableEq

/-- The cards of a row. -/
def row (s : Quiz) : Row → List Str
  | .r1 => s.r1
  | .r2 => s.r2
  | .r3 => s.r3

/-- Replacing the cards of a row. -/
def setRow (s : Quiz) (cards : List Str) (ρ : Row) : Quiz :=
  { s with
    r1 := if ρ = .r1 then cards else s.r1
    r2 := if ρ = .r2 then cards else s.r2
    r3 := if ρ = .r3 then cards else s.r3 }

/-- The loop that collects in `j` the positions at which the answer has the letter `c`; `x` is its
counter. -/
def positions (c : Str) : ℕ → List Str → List ℕ → List ℕ
  | _, [], j => j
  | x, a :: as, j => positions c (x + 1) as (if a = c then j ++ [x] else j)

/-- The loop that writes the letter `c` at the collected positions. -/
def write (c : Str) : List ℕ → Quiz → Outcome Cut Quiz
  | [], s => .done s
  | x :: xs, s =>
      if x < s.text.length then write c xs { s with text := s.text.set x c }
      else .stop .rangeError s

/-- The two loops of a card handler, and the removal of the card's letter from its row. -/
def play (c : Str) (ρ : Row) (s : Quiz) : Outcome Cut Quiz :=
  let s := { s with j := positions c 0 s.correct s.j }
  (write c s.j s).bind fun s => .done (s.setRow ((s.row ρ).erase c) ρ)

/-- The branch of a card handler that is taken when the logo is solved. -/
def solve (U : CaseMap) (rnd : Rand) (s : Quiz) : Outcome Cut Quiz :=
  (cancel { s with visible := true }).bind fun s => task U rnd s.advance

/-- The completion test of a card handler. -/
def complete (U : CaseMap) (rnd : Rand) (s : Quiz) : Outcome Cut Quiz :=
  if s.correct = s.text then solve U rnd s else .done s

/-- The handler of the `i`-th card of the first row.  The completion test stands after the test
whether the letter occurs. -/
def onTapR1 (U : CaseMap) (rnd : Rand) (i : ℕ) : Quiz → Outcome Cut Quiz :=
  setState fun s =>
    let s := { s with j := [] }
    match s.r1[i]? with
    | none => .stop .rangeError s
    | some c =>
        (if c ∈ s.correct then play c .r1 s else .done s).bind (complete U rnd)

/-- The handler of the `i`-th card of a row, as it is written twice: the completion test stands
inside the test whether the letter occurs. -/
def onTapRow (ρ : Row) (U : CaseMap) (rnd : Rand) (i : ℕ) : Quiz → Outcome Cut Quiz :=
  setState fun s =>
    let s := { s with j := [] }
    match (s.row ρ)[i]? with
    | none => .stop .rangeError s
    | some c =>
        if c ∈ s.correct then (play c ρ s).bind (complete U rnd) else .done s

/-- The handler of the `i`-th card of the second row. -/
def onTapR2 : CaseMap → Rand → ℕ → Quiz → Outcome Cut Quiz := onTapRow .r2

/-- The handler of the `i`-th card of the third row. -/
def onTapR3 : CaseMap → Rand → ℕ → Quiz → Outcome Cut Quiz := onTapRow .r3

/-- The handler of the `i`-th card of a row. -/
def onTap (U : CaseMap) (rnd : Rand) (ρ : Row) (i : ℕ) : Quiz → Outcome Cut Quiz :=
  match ρ with
  | .r1 => onTapR1 U rnd i
  | .r2 => onTapR2 U rnd i
  | .r3 => onTapR3 U rnd i

/-! ### A quiz on which Start is pressed once -/

/-- What can happen to the quiz screen, with the answers of the random sources. -/
inductive Event where
  /-- A press on Start, carried out to its end. -/
  | start (rnd : Rand)
  /-- A tap on the card at position `i` of a row. -/
  | tap (ρ : Row) (i : ℕ) (rnd : Rand)
  /-- A tick of a timer that has not been cancelled. -/
  | tick (rnd : Rand)

/-- **One event of a quiz over the paths `names`.**  Start is pressed first and only once; cards
can be tapped after it, and the timer ticks while one is live.  While a handler is inside the
redraw loop nothing else happens. -/
def step (U : CaseMap) (names : List Str) (s : Quiz) : Event → Option Quiz
  | .start rnd =>
      if s.inLoop = false ∧ s.start = .start then some (pressStart U names rnd s).state else none
  | .tap ρ i rnd =>
      if s.inLoop = false ∧ s.start = .next then some (onTap U rnd ρ i s).state else none
  | .tick rnd =>
      if s.inLoop = false ∧ s.timers ≠ [] then some (tick U rnd s).state else none

/-- **The runs of the quiz**: Start is pressed on a fresh screen, and cards are tapped and the timer
ticks in any order after that. -/
abbrev Play (U : CaseMap) (names : List Str) : List (Move Quiz Event) → Quiz → Prop :=
  Run (step U names) {}

end Quiz

end LogoGuess
