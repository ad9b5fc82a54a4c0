/-
**Pressing Start more than once.**

The handler of the Start button is asynchronous: it asks whether the caption is still `Start`,
waits for `getIm` to load the list of paths, and goes on.  The button stays on the screen in the
meantime, so several handlers may be waiting, each of them at one of the three `await`s.  The module
`LogoGuess.Quiz` treats a press as one event; here it is taken apart.

The list of paths may also be gone.  A handler of the Help button, which was pressed before the quiz
was opened and has been suspended since, overwrites the stored text with the empty one, which
`json.decode` rejects: a handler of the Start button that reads it ends with an exception.

Main definitions:

* `LogoGuess.Phase`, `LogoGuess.Session` — where a handler is waiting, and the quiz screen together
  with the waiting handlers;
* `LogoGuess.Session.step` — presses, resumptions in any order, taps, ticks, unmounting and the loss
  of the stored list;
* `LogoGuess.Session.StartOnce` — `k` presses have the effect of one.

Main results:

* `LogoGuess.Session.sole_of_run` — after a single press the session is a run of `LogoGuess.Quiz`;
* `LogoGuess.Session.exists_second_call` — the second handler to go on calls `task` once more;
* `LogoGuess.Session.startOnce_iff` — **several presses have the effect of one exactly when there
  is only one**.
-/

import LogoGuess.QuizScore
import Mathlib.Algebra.GroupWithZero.Nat

set_option relaxedAutoImplicit false
set_option autoImplicit false

namespace LogoGuess

open Dart EventLoop

/-- The `await` at which a handler of the Start button is suspended. -/
inductive Phase where
  /-- `await SharedPreferences.getInstance()` in `getIm`. -/
  | getInstance
  /-- `await prefs.getString("names")` in `getIm`, with the list of paths. -/
  | getString
  /-- The same `await`, with a text that `json.decode` rejects. -/
  | getBlank
  /-- `await getIm()` in the handler. -/
  | getIm
  deriving DecidableEq

/-- The quiz screen with the suspended handlers of its button, in the order of their presses. -/
structure Session where
  quiz : Quiz := {}
  pending : List Phase := []
  /-- Whether the list of paths is stored, and not a text that `json.decode` rejects. -/
  stored : Bool := true

namespace Session

/-- What can happen to the screen, with the answers of the random sources. -/
inductive Event where
  /-- A press on the Start/Next button. -/
  | press (rnd : Rand)
  /-- The `i`-th suspended handler goes on to its next `await`, or to its end. -/
  | resume (i : ℕ) (rnd : Rand)
  /-- A tap on the card at position `i` of a row. -/
  | tap (ρ : Quiz.Row) (i : ℕ) (rnd : Rand)
  /-- A tick of a timer that has not been cancelled. -/
  | tick (rnd : Rand)
  /-- Another route replaces the screen. -/
  | unmount
  /-- The stored text becomes one that `json.decode` rejects. -/
  | blank

/-- **One event of a session over the paths `names`.** -/
def step (U : CaseMap) (names : List Str) (s : Session) : Event → Option Session
  | .press rnd =>
      if s.quiz.inLoop = false ∧ s.quiz.mounted = true ∧ s.quiz.nextEnabled = true then
        if s.quiz.start = .start then
          some { s with quiz := s.quiz.getImBegin, pending := s.pending ++ [.getInstance] }
        else some { s with quiz := (Quiz.onPressed U rnd s.quiz).state }
      else none
  | .resume i rnd =>
      if s.quiz.inLoop = false then
        match s.pending[i]? with
        | none => none
        -- the text is read here
        | some .getInstance =>
            let ph := if s.stored = true then .getString else .getBlank
            some { s with pending := s.pending.set i ph }
        | some .getString =>
            some { s with quiz := s.quiz.getImEnd names, pending := s.pending.set i .getIm }
        -- `json.decode` throws, and the handler ends with the exception
        | some .getBlank => some { s with pending := s.pending.eraseIdx i }
        | some .getIm =>
            some
              { s with
                quiz := (Quiz.onPressed U rnd s.quiz).state
                pending := s.pending.eraseIdx i }
      else none
  | .tap ρ i rnd =>
      if s.quiz.mounted = true then
        (Quiz.step U names s.quiz (.tap ρ i rnd)).map fun q => { s with quiz := q }
      else none
  | .tick rnd => (Quiz.step U names s.quiz (.tick rnd)).map fun q => { s with quiz := q }
  | .unmount =>
      if s.quiz.inLoop = false ∧ s.quiz.mounted = true then
        some { s with quiz := { s.quiz with mounted := false } }
      else none
  | .blank => if s.quiz.inLoop = false then some { s with stored := false } else none

/-! ### What several presses should amount to -/

/-- The events after the presses: handlers go on, cards are tapped and the timer ticks. -/
def Event.playing : Event → Bool
  | .resume _ _ | .tap _ _ _ | .tick _ => true
  | .press _ | .unmount | .blank => false

/-- How often a handler of the button calls `task` in a move. -/
def calledBy (m : Move Session Event) : ℕ :=
  match m.event with
  | .resume _ _ => m.post.quiz.calls.length - m.pre.quiz.calls.length
  | _ => 0

/-- How often the handlers of the button call `task` in a run. -/
def startCalls (tr : List (Move Session Event)) : ℕ := (tr.map calledBy).sum

/-- The logo that a move solves. -/
def solvedBy (m : Move Session Event) : Option ℕ :=
  match m.event with
  | .tap ρ i rnd => Quiz.solvedBy ⟨m.pre.quiz, .tap ρ i rnd, m.post.quiz⟩
  | _ => none

/-- The logos solved by taps in a run. -/
def solvedIn (tr : List (Move Session Event)) : List ℕ := tr.filterMap solvedBy

/-- **The effect of one press**: the handlers call `task` once, there is always an index to draw,
the score counts the solved logos, and the game is one that a single press leads to. -/
structure Single (U : CaseMap) (names : List Str) (tr : List (Move Session Event)) (s : Session) :
    Prop where
  atMostOnce : startCalls tr ≤ 1
  once : s.pending = [] → startCalls tr = 1
  free : ∀ c ∈ s.quiz.calls, ∃ k < names.length, k ∉ c.repeated
  score : s.quiz.start = .next → s.quiz.obtScore = (solvedIn tr).length
  game : s.pending = [] → ∃ tr', Quiz.Play U names tr' s.quiz

/-- **Start is effective once**: whatever happens after `k` presses, the effect is that of one. -/
def StartOnce (U : CaseMap) (names : List Str) (k : ℕ) : Prop :=
  ∀ rnd s₀ tr s, exec (step U names) {} (List.replicate k (.press rnd)) = some s₀ →
    Run (step U names) s₀ tr s → (∀ m ∈ tr, m.event.playing = true) → Single U names tr s

section

variable {U : CaseMap} {names : List Str} {s s' : Session} {tr : List (Move Session Event)}

theorem startCalls_concat (tr : List (Move Session Event)) (m : Move Session Event) :
    startCalls (tr ++ [m]) = startCalls tr + calledBy m := by
  simp [startCalls]

theorem solvedIn_concat (tr : List (Move Session Event)) (m : Move Session Event) :
    solvedIn (tr ++ [m]) = solvedIn tr ++ (solvedBy m).toList :=
  filterMap_concat solvedBy tr m

/-- The presses: every handler waits for the preferences. -/
theorem exec_press (U : CaseMap) (names : List Str) (rnd : Rand) (k : ℕ) :
    ∀ p, exec (step U names) ⟨{}, p, true⟩ (List.replicate k (.press rnd)) =
      some ⟨{}, p ++ List.replicate k .getInstance, true⟩ := by
  induction k with
  | zero => simp [exec]
  | succ k ih =>
      intro p
      have hstep : step U names ⟨{}, p, true⟩ (.press rnd) =
          some ⟨{}, p ++ [.getInstance], true⟩ := rfl
      rw [List.replicate_succ, exec, hstep, Option.bind_some, ih, List.replicate_succ]
      simp

/-! ### A single press -/

/-- **The states after a single press**: the handler is waiting, or it has gone on and the session
is a run of the quiz. -/
inductive Sole (U : CaseMap) (names : List Str) (tr : List (Move Session Event)) :
    Session → Prop where
  | waiting {ph : Phase} (hph : ph = .getInstance ∨ ph = .getString) (hcalls : startCalls tr = 0)
      (hs : solvedIn tr = []) : Sole U names tr ⟨{}, [ph], true⟩
  | loaded (hcalls : startCalls tr = 0) (hs : solvedIn tr = []) :
      Sole U names tr ⟨({} : Quiz).getImEnd names, [.getIm], true⟩
  | going {q : Quiz} {tr' : List (Move Quiz Quiz.Event)} (hcalls : startCalls tr = 1)
      (hplay : Quiz.Play U names tr' q) (hne : tr' ≠ [])
      (hs : Quiz.solvedIn tr' = solvedIn tr) : Sole U names tr ⟨q, [], true⟩

/-- The handler goes on to its end. -/
theorem sole_of_getIm (hn : 0 < names.length) (hcalls : startCalls tr = 0)
    (hs : solvedIn tr = []) (rnd : Rand) :
    Sole U names
      (tr ++ [⟨⟨({} : Quiz).getImEnd names, [.getIm], true⟩, .resume 0 rnd,
        ⟨(Quiz.onPressed U rnd (({} : Quiz).getImEnd names)).state, [], true⟩⟩])
      ⟨(Quiz.onPressed U rnd (({} : Quiz).getImEnd names)).state, [], true⟩ := by
  have hstep : Quiz.step U names {} (.start rnd) =
      some (Quiz.onPressed U rnd (({} : Quiz).getImEnd names)).state := by
    rw [Quiz.step]
    exact if_pos ⟨rfl, rfl⟩
  obtain ⟨rnd', o, -, ho, hr⟩ := Quiz.start_of_fresh hn hstep
  refine .going ?_ (Run.single hstep) (by simp) ?_
  · have hlog : o.state.calls.length = 1 := by
      rw [hr.framed.calls]
      rfl
    rw [startCalls_concat, hcalls, calledBy, ho]
    simp only [hlog]
    rfl
  · rw [solvedIn_concat, hs]
    rfl

/-- A card is tapped or the timer ticks while the quiz is played. -/
theorem sole_of_quiz {q : Quiz} {tr' : List (Move Quiz Quiz.Event)} (hcalls : startCalls tr = 1)
    (hplay : Quiz.Play U names tr' q) (hs : Quiz.solvedIn tr' = solvedIn tr) {e : Event}
    {e' : Quiz.Event} {q' : Quiz} (hstep : Quiz.step U names q e' = some q')
    (hcalled : calledBy ⟨⟨q, [], true⟩, e, ⟨q', [], true⟩⟩ = 0)
    (hsolved : solvedBy ⟨⟨q, [], true⟩, e, ⟨q', [], true⟩⟩ = Quiz.solvedBy ⟨q, e', q'⟩) :
    Sole U names (tr ++ [⟨⟨q, [], true⟩, e, ⟨q', [], true⟩⟩]) ⟨q', [], true⟩ := by
  refine .going ?_ (hplay.snoc hstep) (by simp) ?_
  · rw [startCalls_concat, hcalls, hcalled]
  · rw [solvedIn_concat, hsolved, Quiz.solvedIn, filterMap_concat]
    exact congrArg (· ++ _) hs

/-- **After a single press the session is a run of the quiz.** -/
theorem Sole.step (hn : 0 < names.length) (h : Sole U names tr s) {e : Event}
    (he : e.playing = true) (hs : step U names s e = some s') :
    Sole U names (tr ++ [⟨s, e, s'⟩]) s' := by
  cases h with
  | @waiting ph hph hcalls hsolved =>
      have hcalls' : ∀ {i : ℕ} {rnd : Rand} {s' : Session}, s'.quiz.calls = [] →
          startCalls (tr ++ [⟨⟨{}, [ph], true⟩, .resume i rnd, s'⟩]) = 0 := by
        intro i rnd s' hnil
        rw [startCalls_concat, hcalls, calledBy, hnil]
        rfl
      have hsolved' : ∀ {i : ℕ} {rnd : Rand} {s' : Session},
          solvedIn (tr ++ [⟨⟨{}, [ph], true⟩, .resume i rnd, s'⟩]) = [] := by
        intro i rnd s'
        rw [solvedIn_concat, hsolved]
        rfl
      cases e with
      | press rnd => exact absurd he (by simp [Event.playing])
      | unmount => exact absurd he (by simp [Event.playing])
      | blank => exact absurd he (by simp [Event.playing])
      | tap ρ i rnd => simp [Session.step, Quiz.step] at hs
      | tick rnd => simp [Session.step, Quiz.step] at hs
      | resume i rnd =>
          cases i with
          | succ i => simp [Session.step] at hs
          | zero =>
              rcases hph with rfl | rfl
              · obtain rfl : _ = s' := Option.some_inj.1 hs
                exact .waiting (Or.inr rfl) (hcalls' rfl) hsolved'
              · obtain rfl : _ = s' := Option.some_inj.1 hs
                exact .loaded (hcalls' rfl) hsolved'
  | loaded hcalls hsolved =>
      cases e with
      | press rnd => exact absurd he (by simp [Event.playing])
      | unmount => exact absurd he (by simp [Event.playing])
      | blank => exact absurd he (by simp [Event.playing])
      | tap ρ i rnd => simp [Session.step, Quiz.step, Quiz.getImEnd] at hs
      | tick rnd => simp [Session.step, Quiz.step, Quiz.getImEnd] at hs
      | resume i rnd =>
          cases i with
          | succ i => simp [Session.step] at hs
          | zero =>
              obtain rfl : _ = s' := Option.some_inj.1 hs
              exact sole_of_getIm hn hcalls hsolved rnd
  | @going q tr' hcalls hplay hne hsolved =>
      cases e with
      | press rnd => exact absurd he (by simp [Event.playing])
      | unmount => exact absurd he (by simp [Event.playing])
      | blank => exact absurd he (by simp [Event.playing])
      | resume i rnd => simp [Session.step] at hs
      | tap ρ i rnd =>
          obtain ⟨-, hmap⟩ := Option.ite_none_right_eq_some.1 hs
          obtain ⟨q', hq, rfl⟩ := Option.map_eq_some_iff.1 hmap
          exact sole_of_quiz hcalls hplay hsolved hq rfl rfl
      | tick rnd =>
          obtain ⟨q', hq, rfl⟩ := Option.map_eq_some_iff.1 hs
          exact sole_of_quiz hcalls hplay hsolved hq rfl rfl

theorem sole_of_run (hn : 0 < names.length)
    (h : Run (step U names) ⟨{}, [.getInstance], true⟩ tr s)
    (he : ∀ m ∈ tr, m.event.playing = true) : Sole U names tr s := by
  refine Run.invariant
    (I := fun tr s => (∀ m ∈ tr, m.event.playing = true) → Sole U names tr s) ?_ ?_ h he
  · exact fun _ => .waiting (Or.inl rfl) rfl rfl
  · intro tr s e s' _ ih hs he
    exact (ih fun m hm => he m (List.mem_append_left _ hm)).step hn
      (he ⟨s, e, s'⟩ (by simp)) hs

/-- The effect of one press. -/
theorem Sole.single (hn : 0 < names.length) (hw : ∀ p ∈ names, WellFormed p)
    (h : Sole U names tr s) : Single U names tr s := by
  cases h with
  | waiting _ hcalls _ =>
      exact ⟨by omega, fun hnil => absurd hnil (by simp), by simp,
        fun hstart => absurd hstart (by simp), fun hnil => absurd hnil (by simp)⟩
  | loaded hcalls _ =>
      exact ⟨by omega, fun hnil => absurd hnil (by simp),
        by simp [Quiz.getImEnd], fun hstart => absurd hstart (by simp [Quiz.getImEnd]),
        fun hnil => absurd hnil (by simp)⟩
  | @going q tr' hcalls hplay hne hsolved =>
      have hsafe : Quiz.Safe names := Quiz.safe_of_wellFormed hw
      obtain ⟨-, g, -, hm, hg, -⟩ := Quiz.game_of_play hn hw hplay hne
      refine ⟨hcalls.le, fun _ => hcalls, ?_, ?_, fun _ => ⟨tr', hplay⟩⟩
      · intro c hc
        exact (Quiz.calls_of_play hn hsafe hplay c hc).1
      · intro _
        rw [← hsolved, ← hg]
        exact hm.score

/-! ### A second press -/

/-- The first handler in the queue goes on from its first `await` to its end, before anything else
happens. -/
theorem exists_resume (U : CaseMap) (names : List Str) {q : Quiz} (hi : q.inLoop = false)
    (ps : List Phase) (rnd : Rand) :
    ∃ tr, Run (step U names) ⟨q, .getInstance :: ps, true⟩ tr
        ⟨(Quiz.onPressed U rnd (q.getImEnd names)).state, ps, true⟩ ∧
      (∀ m ∈ tr, m.event.playing = true) ∧
      startCalls tr =
        (Quiz.onPressed U rnd (q.getImEnd names)).state.calls.length - q.calls.length := by
  have h₁ : step U names ⟨q, .getInstance :: ps, true⟩ (.resume 0 rnd) =
      some ⟨q, .getString :: ps, true⟩ := if_pos hi
  have h₂ : step U names ⟨q, .getString :: ps, true⟩ (.resume 0 rnd) =
      some ⟨q.getImEnd names, .getIm :: ps, true⟩ := if_pos hi
  have h₃ : step U names ⟨q.getImEnd names, .getIm :: ps, true⟩ (.resume 0 rnd) =
      some ⟨(Quiz.onPressed U rnd (q.getImEnd names)).state, ps, true⟩ := if_pos hi
  refine ⟨_, ((Run.single h₁).snoc h₂).snoc h₃, ?_, ?_⟩
  · simp [Event.playing]
  · have hload : (q.getImEnd names).calls = q.calls := rfl
    simp [startCalls, calledBy, hload]

/-- A handler that goes on while the quiz is played calls `task`. -/
theorem calls_onPressed (hn : 0 < names.length) {q : Quiz} (h : Quiz.Core names q) (rnd : Rand) :
    (Quiz.onPressed U rnd (q.getImEnd names)).state.calls.length = q.calls.length + 1 := by
  have hm : (q.getImEnd names).mounted = true := h.mounted
  have hstart : (q.getImEnd names).start = .next := h.started
  have hcancel : (q.getImEnd names).cancel = .done (q.getImEnd names).cancelled :=
    Quiz.cancel_of_isSome h.timer
  have hm' : (q.getImEnd names).cancelled.mounted = true := h.mounted
  rw [Quiz.onPressed, Quiz.setState_of_mounted hm]
  simp only [hstart, if_true, hcancel, Outcome.done_bind]
  rw [Quiz.advance_of_mounted hm', (Quiz.taskResult U rnd _).framed.calls, List.length_append]
  · rfl
  · exact hn

/-- **The second handler calls `task` once more.** -/
theorem exists_second_call (U : CaseMap) (hn : 0 < names.length) (ps : List Phase) :
    ∃ tr s, Run (step U names) ⟨{}, .getInstance :: .getInstance :: ps, true⟩ tr s ∧
      (∀ m ∈ tr, m.event.playing = true) ∧ startCalls tr = 2 := by
  obtain ⟨tr₁, hrun₁, hplay₁, hcalls₁⟩ :=
    exists_resume U names (q := {}) rfl (.getInstance :: ps) (Quiz.onlyDraws 0)
  have hstep : Quiz.step U names {} (.start (Quiz.onlyDraws 0)) =
      some (Quiz.onPressed U (Quiz.onlyDraws 0) (({} : Quiz).getImEnd names)).state := by
    rw [Quiz.step]
    exact if_pos ⟨rfl, rfl⟩
  obtain ⟨rnd, o, he, ho, hr⟩ := Quiz.start_of_fresh hn hstep
  obtain rfl : Quiz.onlyDraws 0 = rnd := Quiz.Event.start.inj he
  have hcore : Quiz.Core names o.state := (Quiz.called_started names).core hr
  -- the first handler leaves the redraw loop, so the second one can go on
  have hi : o.state.inLoop = false := by
    cases hr with
    | drawing hall => exact absurd (hall 0 (List.mem_singleton_self 0)) List.not_mem_nil
    | unread => rfl
    | misfit => rfl
    | dealt => rfl
    | ending => rfl
  have hlog : o.state.calls.length = 1 := by
    rw [hr.framed.calls]
    rfl
  rw [ho] at hrun₁ hcalls₁
  obtain ⟨tr₂, hrun₂, hplay₂, hcalls₂⟩ := exists_resume U names hi ps (Quiz.onlyDraws 0)
  refine ⟨tr₁ ++ tr₂, _, hrun₁.append hrun₂, ?_, ?_⟩
  · intro m hm
    rcases List.mem_append.1 hm with hm | hm
    · exact hplay₁ m hm
    · exact hplay₂ m hm
  · have hsum : startCalls (tr₁ ++ tr₂) = startCalls tr₁ + startCalls tr₂ := by
      simp [startCalls]
    have hsecond := calls_onPressed (U := U) hn hcore (Quiz.onlyDraws 0)
    rw [hsum, hcalls₁, hcalls₂, hsecond, hlog]
    rfl

/-! ### Exactly when Start is effective once -/

/-- **Several presses have the effect of one exactly when there is only one.** -/
theorem startOnce_iff (U : CaseMap) (hn : 1 ≤ names.length) (hw : ∀ p ∈ names, WellFormed p)
    {k : ℕ} (hk : 1 ≤ k) : StartOnce U names k ↔ k = 1 := by
  constructor
  · intro honce
    by_contra hne
    obtain ⟨j, rfl⟩ : ∃ j, k = j + 2 := ⟨k - 2, by omega⟩
    have hpress := exec_press U names (Quiz.onlyDraws 0) (j + 2) []
    rw [List.nil_append, List.replicate_succ, List.replicate_succ] at hpress
    obtain ⟨tr, s, hrun, hplay, hcalls⟩ :=
      exists_second_call U hn (List.replicate j Phase.getInstance)
    have hle := (honce _ _ _ _ hpress hrun hplay).atMostOnce
    omega
  · rintro rfl rnd s₀ tr s hpress hrun hplay
    obtain rfl := Option.some_inj.1 ((exec_press U names rnd 1 []).symm.trans hpress)
    exact (sole_of_run hn hrun hplay).single hn hw

/-- Over two logos one press is effective once, and two presses are not. -/
theorem startOnce_iff_logoPath :
    StartOnce .ascii [logoPath, logoPath] 1 ∧ ¬ StartOnce .ascii [logoPath, logoPath] 2 := by
  have hw : ∀ p ∈ [logoPath, logoPath], WellFormed p := by simpa using wellFormed_logoPath
  refine ⟨(startOnce_iff .ascii (by decide) hw (by decide)).2 rfl, ?_⟩
  intro honce
  exact absurd ((startOnce_iff .ascii (by decide) hw (by decide)).1 honce) (by decide)

/-- One logo and two presses: the handler that goes on second calls `task` when the only index has
been drawn, and never leaves the redraw loop. -/
theorem not_startOnce_logoPath : ¬ StartOnce .ascii [logoPath] 2 := by
  intro honce
  have hpress := exec_press .ascii [logoPath] (Quiz.onlyDraws 0) 2 []
  have hexec : (exec (step .ascii [logoPath]) ⟨{}, [.getInstance, .getInstance], true⟩
      (List.replicate 6 (.resume 0 (Quiz.onlyDraws 0)))).map
        (fun s => s.quiz.calls.map Call.repeated) = some [[], [0]] := by
    decide
  obtain ⟨tr, s, hrun, hcalls, hev⟩ := exists_run_of_exec hexec
  have hplay : ∀ m ∈ tr, m.event.playing = true :=
    forall_event (P := fun e => e.playing = true) hev (by simp [Event.playing])
  have hmem : [0] ∈ s.quiz.calls.map Call.repeated := by
    rw [hcalls]
    decide
  obtain ⟨c, hc, hrep⟩ := List.mem_map.1 hmem
  obtain ⟨k, hk, hnew⟩ := (honce _ _ _ _ hpress hrun hplay).free c hc
  have hk' : k < 1 := hk
  have hzero : k ≠ 0 := by simpa [hrep] using hnew
  omega

end

end Session

end LogoGuess
