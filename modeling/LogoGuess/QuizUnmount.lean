/-
**Leaving the quiz screen.**

The drawer replaces the quiz screen by another route at any time.  The screen is unmounted then, but
its timer is not cancelled and the suspended handlers of its button are not dropped: both come back
later and call `setState`.  Only the first `setState` of the timer callback asks whether the screen
is still mounted, and of the handlers only those that end with the exception of `json.decode` do not
come to theirs.

Main definitions:

* `LogoGuess.Session.handler` — the handler that an event runs;
* `LogoGuess.Session.Disposed` — a move whose handler calls `setState` on an unmounted screen;
* `LogoGuess.Session.Doomed`, `LogoGuess.Session.Quiet` — a suspended handler will end with an
  exception; no timer is live and all suspended handlers will;
* `LogoGuess.Quiz.Alive` — a handler that has left the screen mounted and has not been disposed of.

Main results:

* `LogoGuess.Session.alive_of_handler` — on a mounted screen no handler is disposed of;
* `LogoGuess.Session.exists_disposed`, `LogoGuess.Session.disposed_tick` — a suspended handler that
  is not doomed calls `setState` in the end, and a live timer with its next tick;
* `LogoGuess.Session.not_disposed_iff` — **`setState` is not called after the screen has been
  unmounted exactly when it is unmounted in a quiet state**.
-/

import LogoGuess.QuizTap

set_option relaxedAutoImplicit false
set_option autoImplicit false

namespace LogoGuess

open Dart EventLoop

/-! ### Handlers on a mounted screen -/

namespace Quiz

/-- **The handler has left the screen mounted** and has not been disposed of. -/
def Alive (o : Outcome Cut Quiz) : Prop :=
  o.Ends (fun s => s.mounted = true) fun e s => e ≠ .disposed ∧ s.mounted = true

section

variable {U : CaseMap} {s : Quiz} {rnd : Rand}

theorem Alive.bind {o : Outcome Cut Quiz} {f : Quiz → Outcome Cut Quiz} (ho : Alive o)
    (hf : ∀ s, s.mounted = true → Alive (f s)) : Alive (o.bind f) :=
  Outcome.Ends.bind ho hf

theorem Alive.mounted {o : Outcome Cut Quiz} (h : Alive o) : o.state.mounted = true := by
  cases o with
  | done s => exact h
  | stop e s => exact h.2

theorem Alive.ne_disposed {o : Outcome Cut Quiz} (h : Alive o) (t : Quiz) :
    o ≠ .stop .disposed t := by
  rintro rfl
  exact h.1 rfl

theorem alive_setState {body : Quiz → Outcome Cut Quiz} (hm : s.mounted = true)
    (h : Alive (body s)) : Alive (setState body s) := by
  rw [setState_of_mounted hm]
  exact h

theorem alive_cancel (hm : s.mounted = true) : Alive s.cancel := by
  rw [cancel]
  cases s.timer with
  | none => exact ⟨by simp, hm⟩
  | some t => exact hm

theorem TaskResult.alive {o : Outcome Cut Quiz} (hr : TaskResult U rnd s o)
    (hm : s.mounted = true) : Alive o := by
  cases hr with
  | drawing => exact ⟨by simp, hm⟩
  | unread => exact ⟨by simp, hm⟩
  | misfit => exact ⟨by simp, hm⟩
  | dealt => exact hm
  | ending => exact hm

theorem alive_task (U : CaseMap) (rnd : Rand) (hm : s.mounted = true) :
    Alive (task U rnd s) := by
  by_cases hn : 0 < s.images.length
  · exact (taskResult U rnd hn).alive hm
  · rw [task_of_empty U rnd hn]
    exact ⟨by simp, hm⟩

theorem alive_onPressed (U : CaseMap) (rnd : Rand) (hm : s.mounted = true) :
    Alive (onPressed U rnd s) := by
  refine alive_setState hm (Alive.bind ?_ ?_)
  · by_cases hs : s.start = .next
    · rw [if_pos hs]
      exact alive_cancel hm
    · rw [if_neg hs]
      exact hm
  · intro s hm
    refine alive_task U rnd ?_
    rw [advance_of_mounted hm]
    exact hm

theorem Sound.alive_onTap (h : Sound s) (U : CaseMap) (rnd : Rand) (hm : s.mounted = true)
    (ht : s.timer.isSome) (ρ : Row) (i : ℕ) : Alive (Quiz.onTap U rnd ρ i s) := by
  cases hc : (s.row ρ)[i]? with
  | none =>
      rw [onTap_of_none U rnd hm hc]
      exact ⟨by simp, hm⟩
  | some c =>
      have hm' : (s.touched c ρ).mounted = true := (touched_mounted s c ρ).trans hm
      rw [onTap_eq_act U rnd hm h.len hc]
      by_cases hcomp : Completes s ρ c
      · rw [act_of_completes U rnd hm ht hcomp]
        exact alive_task U rnd hm'
      · rw [act_of_open U rnd hcomp]
        exact hm'

theorem alive_leave (hm : s.mounted = true) : Alive (leave s) := by
  rw [leave]
  by_cases he : s.ended = true
  · rw [if_pos he]
    exact (alive_cancel hm).bind fun _ hm => hm
  · rw [if_neg he]
    exact hm

theorem alive_tick (U : CaseMap) (rnd : Rand) (hm : s.mounted = true) : Alive (tick U rnd s) := by
  rw [tick, if_pos hm]
  refine (alive_setState hm ?_).bind fun s hm => alive_setState hm (alive_leave hm)
  rw [countdown]
  by_cases hpos : 0 < s.timeinmin
  · rw [if_pos hpos]
    exact hm
  · rw [if_neg hpos]
    exact (alive_task (s := { s with loaded := false }) U rnd hm).bind fun _ hm => hm

/-! ### Handlers on an unmounted screen -/

/-- The `setState` of the button is called without a question, too. -/
theorem onPressed_of_unmounted (U : CaseMap) (rnd : Rand) (hm : s.mounted = false) :
    onPressed U rnd s = .stop .disposed s := by
  have hm' : ¬ s.mounted = true := by simp [hm]
  rw [onPressed, setState, if_neg hm']

end

end Quiz

/-! ### Runs in which the screen is left -/

namespace Session

/-- The handler that an event runs, from its last suspension on.  A press on Start and a handler
that goes on to its next `await` or ends in `getIm` do not come to a `setState`. -/
def handler (U : CaseMap) (s : Session) : Event → Option (Outcome Cut Quiz)
  | .press rnd => if s.quiz.start = .start then none else some (Quiz.onPressed U rnd s.quiz)
  | .resume i rnd =>
      if s.pending[i]? = some .getIm then some (Quiz.onPressed U rnd s.quiz) else none
  | .tap ρ i rnd => some (Quiz.onTap U rnd ρ i s.quiz)
  | .tick rnd => some (Quiz.tick U rnd s.quiz)
  | .unmount | .blank => none

/-- **A move whose handler calls `setState` after the screen has been unmounted.** -/
def Disposed (U : CaseMap) (m : Move Session Event) : Prop :=
  ∃ t, handler U m.pre m.event = some (.stop .disposed t)

/-- A handler that is suspended at `ph` **will end in `getIm`**: it has read a text that
`json.decode` rejects, or it is going to read one. -/
def Doomed (stored : Bool) (ph : Phase) : Prop :=
  ph = .getBlank ∨ ph = .getInstance ∧ stored = false

/-- **Nothing comes back**: no timer is live, and every suspended handler will end in `getIm`. -/
def Quiet (s : Session) : Prop := s.quiz.timers = [] ∧ ∀ ph ∈ s.pending, Doomed s.stored ph

section

variable {U : CaseMap} {names : List Str} {s s' : Session} {tr : List (Move Session Event)}

/-- What a handler leaves is the screen after its event. -/
theorem quiz_of_handler {e : Event} {o : Outcome Cut Quiz} (hs : step U names s e = some s')
    (ho : handler U s e = some o) : s'.quiz = o.state := by
  cases e with
  | press rnd =>
      obtain ⟨-, hs⟩ := Option.ite_none_right_eq_some.1 hs
      obtain ⟨hstart, ho⟩ := Option.ite_none_left_eq_some.1 ho
      rw [if_neg hstart] at hs
      rw [← Option.some_inj.1 hs, ← Option.some_inj.1 ho]
  | resume i rnd =>
      obtain ⟨-, hs⟩ := Option.ite_none_right_eq_some.1 hs
      obtain ⟨hp, rfl⟩ := of_guard ho
      obtain rfl : _ = s' := by simpa [hp] using hs
      rfl
  | tap ρ i rnd =>
      obtain ⟨-, hmap⟩ := Option.ite_none_right_eq_some.1 hs
      obtain ⟨q', hq, rfl⟩ := Option.map_eq_some_iff.1 hmap
      rw [← (of_guard hq).2, ← Option.some_inj.1 ho]
  | tick rnd =>
      obtain ⟨q', hq, rfl⟩ := Option.map_eq_some_iff.1 hs
      rw [← (of_guard hq).2, ← Option.some_inj.1 ho]
  | unmount => exact absurd ho (by simp [handler])
  | blank => exact absurd ho (by simp [handler])

/-- **On a mounted screen no handler is disposed of**, and all leave it mounted. -/
theorem alive_of_handler {e : Event} {o : Outcome Cut Quiz} (hsound : s.quiz.Sound)
    (hm : s.quiz.mounted = true) (hs : step U names s e = some s')
    (ho : handler U s e = some o) : Quiz.Alive o := by
  cases e with
  | press rnd =>
      obtain ⟨-, ho⟩ := Option.ite_none_left_eq_some.1 ho
      rw [← Option.some_inj.1 ho]
      exact Quiz.alive_onPressed U rnd hm
  | resume i rnd =>
      obtain ⟨-, rfl⟩ := of_guard ho
      exact Quiz.alive_onPressed U rnd hm
  | tap ρ i rnd =>
      obtain ⟨-, hmap⟩ := Option.ite_none_right_eq_some.1 hs
      obtain ⟨q', hq, -⟩ := Option.map_eq_some_iff.1 hmap
      have ht := hsound.timer_of_started (of_guard hq).1.2
      rw [← Option.some_inj.1 ho]
      exact hsound.alive_onTap U rnd hm ht ρ i
  | tick rnd =>
      rw [← Option.some_inj.1 ho]
      exact Quiz.alive_tick U rnd hm
  | unmount => exact absurd ho (by simp [handler])
  | blank => exact absurd ho (by simp [handler])

theorem not_disposed_of_mounted {e : Event} (hsound : s.quiz.Sound) (hm : s.quiz.mounted = true)
    (hs : step U names s e = some s') : ¬ Disposed U ⟨s, e, s'⟩ := by
  rintro ⟨t, ho⟩
  exact (alive_of_handler hsound hm hs ho).ne_disposed t rfl

/-- The screen stays mounted until it is left. -/
theorem mounted_of_step {e : Event} (hsound : s.quiz.Sound) (hm : s.quiz.mounted = true)
    (he : e ≠ .unmount) (hs : step U names s e = some s') : s'.quiz.mounted = true := by
  cases ho : handler U s e with
  | some o =>
      rw [quiz_of_handler hs ho]
      exact (alive_of_handler hsound hm hs ho).mounted
  | none =>
      cases e with
      | press rnd =>
          obtain ⟨-, hs⟩ := Option.ite_none_right_eq_some.1 hs
          have hstart : s.quiz.start = .start := by
            by_contra hne
            rw [handler, if_neg hne] at ho
            exact absurd ho (by simp)
          rw [if_pos hstart] at hs
          rw [← Option.some_inj.1 hs]
          exact hm
      | resume i rnd =>
          obtain ⟨-, hs⟩ := Option.ite_none_right_eq_some.1 hs
          cases hp : s.pending[i]? with
          | none => simp [hp] at hs
          | some ph =>
              cases ph with
              | getInstance =>
                  obtain rfl : _ = s' := by simpa [hp] using hs
                  exact hm
              | getString =>
                  obtain rfl : _ = s' := by simpa [hp] using hs
                  exact hm
              | getBlank =>
                  obtain rfl : _ = s' := by simpa [hp] using hs
                  exact hm
              | getIm => simp [handler, hp] at ho
      | tap ρ i rnd => exact absurd ho (by simp [handler])
      | tick rnd => exact absurd ho (by simp [handler])
      | unmount => exact absurd rfl he
      | blank =>
          obtain ⟨-, rfl⟩ := of_guard hs
          exact hm

theorem Doomed.lost {stored : Bool} {ph : Phase} (h : Doomed stored ph) : Doomed false ph :=
  h.imp_right fun h => ⟨h.1, rfl⟩

/-- **Once a quiet screen has been left**, it stays quiet, and no handler comes to a `setState`. -/
theorem quiet_of_step {e : Event} (hm : s.quiz.mounted = false) (hq : Quiet s)
    (hs : step U names s e = some s') :
    (s'.quiz.mounted = false ∧ Quiet s') ∧ ¬ Disposed U ⟨s, e, s'⟩ := by
  obtain ⟨htimers, hpending⟩ := hq
  cases e with
  | press rnd => simp [step, hm] at hs
  | resume i rnd =>
      obtain ⟨-, hs⟩ := Option.ite_none_right_eq_some.1 hs
      cases hp : s.pending[i]? with
      | none => simp [hp] at hs
      | some ph =>
          rcases hpending ph (List.mem_of_getElem? hp) with rfl | ⟨rfl, hstored⟩
          · -- the handler ends
            obtain rfl : _ = s' := by simpa [hp] using hs
            refine ⟨⟨hm, htimers, fun ph hmem => hpending ph (List.mem_of_mem_eraseIdx hmem)⟩, ?_⟩
            rintro ⟨t, ho⟩
            simp [handler, hp] at ho
          · -- the handler reads the text
            obtain rfl : _ = s' := by simpa [hp, hstored] using hs
            refine ⟨⟨hm, htimers, ?_⟩, ?_⟩
            · intro ph hmem
              rcases List.mem_or_eq_of_mem_set hmem with hmem | rfl
              · exact (hpending ph hmem).lost
              · exact Or.inl rfl
            · rintro ⟨t, ho⟩
              simp [handler, hp] at ho
  | tap ρ i rnd => simp [step, hm] at hs
  | tick rnd => simp [step, Quiz.step, htimers] at hs
  | unmount => simp [step, hm] at hs
  | blank =>
      obtain ⟨-, rfl⟩ := of_guard hs
      refine ⟨⟨hm, htimers, fun ph hmem => (hpending ph hmem).lost⟩, ?_⟩
      rintro ⟨t, ho⟩
      simp [handler] at ho

/-- A quiet screen that has been left stays so in every run. -/
theorem not_disposed_of_quiet (hm : s.quiz.mounted = false) (hq : Quiet s)
    {tr' : List (Move Session Event)} (h : Run (step U names) s tr' s') :
    ∀ m ∈ tr', ¬ Disposed U m := by
  refine (Run.invariant (I := fun tr' s' => (s'.quiz.mounted = false ∧ Quiet s') ∧
    ∀ m ∈ tr', ¬ Disposed U m) ⟨⟨hm, hq⟩, by simp⟩ ?_ h).2
  rintro tr' s e s' - ⟨⟨hm, hq⟩, hnone⟩ hs
  obtain ⟨hstill, hlast⟩ := quiet_of_step hm hq hs
  refine ⟨hstill, ?_⟩
  intro m hmem
  rcases List.mem_append.1 hmem with hmem | hmem
  · exact hnone m hmem
  · rw [List.mem_singleton.1 hmem]
    exact hlast

/-- **A run in which the screen is left only when it is quiet.** -/
theorem not_disposed_of_run (h : Run (step U names) {} tr s)
    (hquiet : ∀ m ∈ tr, m.event = .unmount → Quiet m.pre) : ∀ m ∈ tr, ¬ Disposed U m := by
  refine (Run.invariant (I := fun tr s => (∀ m ∈ tr, m.event = .unmount → Quiet m.pre) →
    (s.quiz.mounted = true ∨ s.quiz.mounted = false ∧ Quiet s) ∧
      ∀ m ∈ tr, ¬ Disposed U m) ?_ ?_ h hquiet).2
  · exact fun _ => ⟨Or.inl rfl, by simp⟩
  · intro tr s e s' hrun ih hs hquiet
    have hsound := sound_of_run hrun
    obtain ⟨hstill, hnone⟩ := ih fun m hm => hquiet m (List.mem_append_left _ hm)
    have hlast : (s'.quiz.mounted = true ∨ s'.quiz.mounted = false ∧ Quiet s') ∧
        ¬ Disposed U ⟨s, e, s'⟩ := by
      rcases hstill with hm | ⟨hm, hq⟩
      · refine ⟨?_, not_disposed_of_mounted hsound hm hs⟩
        by_cases he : e = .unmount
        · have hq : Quiet s := hquiet ⟨s, e, s'⟩ (by simp) he
          subst he
          obtain ⟨-, rfl⟩ := of_guard hs
          exact Or.inr ⟨rfl, hq⟩
        · exact Or.inl (mounted_of_step hsound hm he hs)
      · obtain ⟨hgone, hnot⟩ := quiet_of_step hm hq hs
        exact ⟨Or.inr hgone, hnot⟩
    refine ⟨hlast.1, ?_⟩
    intro m hmem
    rcases List.mem_append.1 hmem with hmem | hmem
    · exact hnone m hmem
    · rw [List.mem_singleton.1 hmem]
      exact hlast.2

/-- **A suspended handler that is not doomed calls `setState` in the end.** -/
theorem exists_disposed (U : CaseMap) (names : List Str) {q : Quiz} {b : Bool}
    (hi : q.inLoop = false) (hm : q.mounted = false) {ps : List Phase} {i : ℕ} {ph : Phase}
    (hp : ps[i]? = some ph) (hd : ¬ Doomed b ph) :
    ∃ tr s, Run (step U names) ⟨q, ps, b⟩ tr s ∧ ∃ m ∈ tr, Disposed U m := by
  have hset : ∀ ph' : Phase, (ps.set i ph')[i]? = some ph' := by
    intro ph'
    rw [List.getElem?_set_self (List.getElem?_eq_some_iff.1 hp).1]
  have hlast : ∀ {q : Quiz} {ps : List Phase}, q.inLoop = false → q.mounted = false →
      ps[i]? = some .getIm → ∃ tr s, Run (step U names) ⟨q, ps, b⟩ tr s ∧
        ∃ m ∈ tr, Disposed U m := by
    intro q ps hi hm hp
    have hstep : step U names ⟨q, ps, b⟩ (.resume i (Quiz.onlyDraws 0)) =
        some ⟨(Quiz.onPressed U (Quiz.onlyDraws 0) q).state, ps.eraseIdx i, b⟩ := by
      simp [step, hi, hp]
    refine ⟨_, _, Run.single hstep, _, List.mem_singleton_self _, q, ?_⟩
    rw [handler, if_pos hp, Quiz.onPressed_of_unmounted U _ hm]
  have hmore : ∀ {s s' : Session} {e : Event}, step U names s e = some s' →
      (∃ tr s₁, Run (step U names) s' tr s₁ ∧ ∃ m ∈ tr, Disposed U m) →
      ∃ tr s₁, Run (step U names) s tr s₁ ∧ ∃ m ∈ tr, Disposed U m := by
    rintro s s' e hs ⟨tr, s₁, hrun, m, hmem, hd⟩
    exact ⟨_, s₁, (Run.single hs).append hrun, m, List.mem_append_right _ hmem, hd⟩
  have hload : ∀ {ps : List Phase}, ps[i]? = some .getString →
      step U names ⟨q, ps, b⟩ (.resume i (Quiz.onlyDraws 0)) =
        some ⟨q.getImEnd names, ps.set i .getIm, b⟩ := by
    intro ps hp
    simp [step, hi, hp]
  cases ph with
  | getIm => exact hlast hi hm hp
  | getString => exact hmore (hload hp) (hlast hi hm (hset .getIm))
  | getBlank => exact absurd (Or.inl rfl) hd
  | getInstance =>
      -- the list is still stored
      obtain rfl : b = true := by
        by_contra hb
        exact hd (Or.inr ⟨rfl, by simpa using hb⟩)
      have hbegin : step U names ⟨q, ps, true⟩ (.resume i (Quiz.onlyDraws 0)) =
          some ⟨q, ps.set i .getString, true⟩ := by
        simp [step, hi, hp]
      refine hmore hbegin (hmore (hload (hset .getString)) (hlast hi hm ?_))
      rw [List.set_set]
      exact hset .getIm

/-- **A live timer calls `setState` with its next tick.** -/
theorem disposed_tick (U : CaseMap) (names : List Str) (hi : s.quiz.inLoop = false)
    (hm : s.quiz.mounted = false) (hl : s.quiz.timers ≠ []) (rnd : Rand) :
    ∃ s', step U names s (.tick rnd) = some s' ∧ Disposed U ⟨s, .tick rnd, s'⟩ := by
  have hquiz : Quiz.step U names s.quiz (.tick rnd) = some (Quiz.tick U rnd s.quiz).state :=
    if_pos ⟨hi, hl⟩
  refine ⟨{ s with quiz := (Quiz.tick U rnd s.quiz).state }, ?_, s.quiz, ?_⟩
  · rw [step, hquiz, Option.map_some]
  · change some (Quiz.tick U rnd s.quiz) = _
    rw [Quiz.tick_of_unmounted U rnd hm]

/-- **Leaving a screen that is not quiet.**  Some way to go on calls `setState` on it. -/
theorem exists_disposed_of_not_quiet (U : CaseMap) (names : List Str)
    (hi : s.quiz.inLoop = false) (hm : s.quiz.mounted = false) (hq : ¬ Quiet s) :
    ∃ tr s', Run (step U names) s tr s' ∧ ∃ m ∈ tr, Disposed U m := by
  by_cases hl : s.quiz.timers = []
  · have hnot : ¬ ∀ ph ∈ s.pending, Doomed s.stored ph := fun hall => hq ⟨hl, hall⟩
    push Not at hnot
    obtain ⟨ph, hmem, hd⟩ := hnot
    obtain ⟨i, hp⟩ := List.mem_iff_getElem?.1 hmem
    exact exists_disposed U names hi hm hp hd
  · obtain ⟨s', hs, hd⟩ := disposed_tick U names hi hm hl (Quiz.onlyDraws 0)
    exact ⟨_, s', Run.single hs, _, List.mem_singleton_self _, hd⟩

/-- **When `setState` is called on a screen that has been left.**  In a run in which the screen is
left only while no timer is live and all suspended handlers will end in `getIm`, `setState` is never
called after that.  And whenever the screen is left in a state that a session can reach, it is not
called in any way to go on exactly when that state was quiet. -/
theorem not_disposed_iff (h : Run (step U names) {} tr s) :
    ((∀ m ∈ tr, m.event = .unmount → Quiet m.pre) → ∀ m ∈ tr, ¬ Disposed U m) ∧
      ∀ s₁, step U names s .unmount = some s₁ →
        ((∀ tr' s', Run (step U names) s₁ tr' s' → ∀ m ∈ tr', ¬ Disposed U m) ↔ Quiet s) := by
  refine ⟨not_disposed_of_run h, ?_⟩
  intro s₁ hs
  obtain ⟨⟨hi, -⟩, rfl⟩ := of_guard hs
  constructor
  · intro hnone
    by_contra hq
    obtain ⟨tr', s', hrun, m, hmem, hd⟩ := exists_disposed_of_not_quiet U names
      (s := { s with quiz := { s.quiz with mounted := false } }) hi rfl hq
    exact hnone tr' s' hrun m hmem hd
  · intro hq tr' s' hrun
    exact not_disposed_of_quiet (s := { s with quiz := { s.quiz with mounted := false } }) rfl hq
      hrun

end

/-- Start is pressed twice and two logos are played to the result, while the second press waits;
then Help overwrites the list. -/
def playedToResult : List Event :=
  .press (Quiz.onlyDraws 0) :: .press (Quiz.onlyDraws 0) ::
    (List.replicate 3 (.resume 0 (Quiz.onlyDraws 0)) ++
      [.tap .r1 0 (Quiz.onlyDraws 1), .tick (Quiz.onlyDraws 0), .blank])

/-- The screen is left when the result has been shown and the waiting press will find no list:
`setState` is not called before that and in no way to go on. -/
theorem not_disposed_iff_logoPath :
    ∃ tr s s₁, Run (step .ascii [logoPath, logoPath]) {} (tr ++ [⟨s, .unmount, s₁⟩]) s₁ ∧
      s.quiz.pushed = [⟨['1'], ['2']⟩] ∧ s.pending = [.getInstance] ∧
      (∀ m ∈ tr ++ [⟨s, .unmount, s₁⟩], ¬ Disposed .ascii m) ∧
      ∀ tr' s', Run (step .ascii [logoPath, logoPath]) s₁ tr' s' →
        ∀ m ∈ tr', ¬ Disposed .ascii m := by
  have hexec : (exec (step .ascii [logoPath, logoPath]) {} playedToResult).map
      (fun s => ((s.quiz.inLoop, s.quiz.mounted, s.quiz.timers), s.quiz.pushed,
        s.pending, s.stored)) =
      some ((false, true, []), [⟨['1'], ['2']⟩], [.getInstance], false) := by
    decide
  obtain ⟨tr, s, hrun, hfields, hev⟩ := exists_run_of_exec hexec
  simp only [Prod.mk.injEq] at hfields
  obtain ⟨⟨hi, hm, htimers⟩, hpushed, hpending, hstored⟩ := hfields
  have hquiet : Quiet s := ⟨htimers, by simp [hpending, hstored, Doomed]⟩
  obtain ⟨s₁, hs⟩ : ∃ s₁, step .ascii [logoPath, logoPath] s .unmount = some s₁ :=
    ⟨_, if_pos ⟨hi, hm⟩⟩
  have hnot : ∀ m ∈ tr, m.event ≠ .unmount :=
    forall_event (P := (· ≠ .unmount)) hev (by simp [playedToResult])
  have hleft : ∀ m ∈ tr ++ [(⟨s, .unmount, s₁⟩ : Move Session Event)],
      m.event = .unmount → Quiet m.pre := by
    intro m hmem he
    rcases List.mem_append.1 hmem with hmem | hmem
    · exact absurd he (hnot m hmem)
    · rw [List.mem_singleton.1 hmem]
      exact hquiet
  exact ⟨tr, s, s₁, hrun.snoc hs, hpushed, hpending,
    (not_disposed_iff (hrun.snoc hs)).1 hleft, ((not_disposed_iff hrun).2 s₁ hs).2 hquiet⟩

/-- The press on Start is carried out and the screen is left: the next tick of the timer calls
`setState`. -/
theorem disposed_logoPath :
    ∃ tr s m, Run (step .ascii [logoPath, logoPath]) {} (tr ++ [m]) s ∧
      tr.map Move.event = .press (Quiz.onlyDraws 0) ::
        (List.replicate 3 (.resume 0 (Quiz.onlyDraws 0)) ++ [.unmount]) ∧
      m.event = .tick (Quiz.onlyDraws 0) ∧ Disposed .ascii m := by
  have hexec : (exec (step .ascii [logoPath, logoPath]) {}
      (.press (Quiz.onlyDraws 0) ::
        (List.replicate 3 (.resume 0 (Quiz.onlyDraws 0)) ++ [.unmount]))).map
        (fun s => (s.quiz.inLoop, s.quiz.mounted, s.quiz.timers)) = some (false, false, [0]) := by
    decide
  obtain ⟨tr, s, hrun, hfields, hev⟩ := exists_run_of_exec hexec
  simp only [Prod.mk.injEq] at hfields
  obtain ⟨hi, hm, htimers⟩ := hfields
  have hl : s.quiz.timers ≠ [] := by simp [htimers]
  obtain ⟨s', hs, hd⟩ :=
    disposed_tick .ascii [logoPath, logoPath] hi hm hl (Quiz.onlyDraws 0)
  exact ⟨tr, s', ⟨s, _, s'⟩, hrun.snoc hs, hev, rfl, hd⟩

end Session

end LogoGuess
