/-
**What a session can still come to.**

A handler that calls `task` after all indices have been drawn never returns, and nothing else
happens after that.  Over a list no path of which makes `task` throw there is one way to get there:
a handler of the button that is carried out when the game is over, between the last draw and the
tick with which the screen is left, or on a screen that has been left but is still mounted.  The
cards and the timer never lead there, whatever has been pressed and in whatever order the handlers
have gone on.

The other way round, as long as the screen is mounted and no handler is inside the redraw loop, the
session can be brought to its result: the list of paths is loaded by a handler that is still
waiting, a handler is carried out if none has been so far, and the timer does the rest.

Main definitions:

* `LogoGuess.Quiz.Drained` — all indices have been drawn;
* `LogoGuess.Quiz.Paced` — the counters and the clock are in step, in every session;
* `LogoGuess.Session.Loading` — a list that has been dropped will be loaded again;
* `LogoGuess.Frame.Hangs` — whatever is drawn, the handler of an event does not return;
* `LogoGuess.Frame.Started` — the timer can bring the session to its end.

Main results:

* `LogoGuess.Quiz.task_hangs_iff` — exactly when a call of `task` does not return;
* `LogoGuess.Frame.hangs_iff` — **only the button can hang, and exactly when the game is over**;
* `LogoGuess.Frame.exists_ticks_of_started` — the timer alone brings a session to its end;
* `LogoGuess.Frame.exists_result_of_mounted` — **every session can be brought to its end**.
-/

import LogoGuess.QuizLength
import LogoGuess.QuizSession

set_option relaxedAutoImplicit false
set_option autoImplicit false

namespace LogoGuess

open Dart EventLoop Guessing

namespace Quiz

/-! ### A call that does not return -/

/-- **All indices have been drawn.** -/
def Drained (s : Quiz) : Prop := 0 < s.images.length ∧ ∀ k < s.images.length, k ∈ s.repeated

/-- **What holds between two events of a session over a safe list.** -/
structure Paced (s : Quiz) : Prop where
  /-- Every drawn logo has been dealt, except the last one. -/
  even : s.repeated.length = s.loopCount + if s.ended then 1 else 0
  clock : Clock s
  /-- Until a handler of the button is carried out the button is there. -/
  shown : s.start = .start → s.visible = true

section

variable {U : CaseMap} {names : List Str} {s s' : Quiz} {rnd : Rand}

/-- **A call of `task` does not return exactly when all indices have been drawn.** -/
theorem task_hangs_iff (U : CaseMap) (hi : s.inLoop = false) :
    (∀ rnd, (task U rnd s).state.inLoop = true) ↔ Drained s := by
  constructor
  · intro h
    by_cases hn : 0 < s.images.length
    · refine ⟨hn, ?_⟩
      intro k hk
      by_contra hnew
      have hout := ((taskResult U (onlyDraws k) hn).of_onlyDraws hk hnew).2.trans hi
      exact absurd (hout.symm.trans (h _)) (by simp)
    · have hout := h (onlyDraws 0)
      rw [task_of_empty U _ hn] at hout
      exact absurd (hi.symm.trans hout) (by simp)
  · intro h rnd
    have hr := taskResult U rnd h.1
    have hnone : ∀ {k : ℕ}, ¬ Fresh rnd s k := fun hk => hk.new (h.2 _ hk.lt)
    generalize task U rnd s = o at hr
    cases hr with
    | drawing => rfl
    | unread hk => exact absurd hk hnone
    | misfit hk => exact absurd hk hnone
    | dealt hk => exact absurd hk hnone
    | ending hk => exact absurd hk hnone

/-- A call of `task` that can return does so with some draw. -/
theorem exists_task_returns (U : CaseMap) (hi : s.inLoop = false) (h : ¬ Drained s) :
    ∃ rnd, (task U rnd s).state.inLoop = false := by
  by_contra hall
  push Not at hall
  exact h ((task_hangs_iff U hi).1 fun rnd => by simpa using hall rnd)

/-! ### Counters and clock in every session -/

/-- **A call of `task` over a safe list keeps the counters in step.** -/
theorem AtCall.even_task (hsafe : Safe names) (h : AtCall names s)
    (heven : s.repeated.length = s.loopCount + if s.ended then 1 else 0) (U : CaseMap)
    (rnd : Rand) :
    (task U rnd s).state.repeated.length =
      (task U rnd s).state.loopCount + if (task U rnd s).state.ended then 1 else 0 := by
  by_cases hn : 0 < s.images.length
  · have himg := h.images_eq hn
    have hr := taskResult U rnd hn
    have hlen : ∀ k, (s.repeated ++ [k]).length = s.repeated.length + 1 := fun k => by
      rw [List.length_append, List.length_singleton]
    generalize task U rnd s = o at hr
    cases hr with
    | drawing => exact heven
    | unread hk hlt hp ht =>
        rw [himg] at hlt hp
        obtain ⟨t, ht', -⟩ := hsafe.dealable hlt hp
        exact absurd (ht.symm.trans ht') (by simp)
    | misfit hk hlt hp ht hlen =>
        rw [himg] at hlt hp
        obtain ⟨t', ht', hlen'⟩ := hsafe.dealable hlt hp
        obtain rfl := Option.some_inj.1 (ht.symm.trans ht')
        omega
    | @dealt k p t hk hlt hp ht hlt' =>
        change (s.repeated ++ [k]).length = s.loopCount + 1 + if s.ended then 1 else 0
        rw [hlen, heven]
        omega
    | @ending k hk hlt =>
        have hend := (h.open_of_fresh hk).1
        rw [if_neg (by simp [hend])] at heven
        change (s.repeated ++ [k]).length = s.loopCount + 1
        rw [hlen, heven]
  · rw [task_of_empty U rnd hn]
    exact heven

/-- A call of `task` with time on the clock. -/
theorem AtCall.paced_task (hsafe : Safe names) (h : AtCall names s)
    (heven : s.repeated.length = s.loopCount + if s.ended then 1 else 0)
    (ht : 0 < s.timeinmin) (U : CaseMap) (rnd : Rand) : Paced (task U rnd s).state where
  even := h.even_task hsafe heven U rnd
  clock _ _ := by
    rw [(task_framed U rnd s).timeinmin]
    exact ht
  shown hs := by
    rw [(task_framed U rnd s).start, h.started] at hs
    exact absurd hs (by simp)

/-- The call of `task` when the time of a logo is used up. -/
theorem Steady.even_expired (hsafe : Safe names) (h : Steady names s)
    (heven : s.repeated.length = s.loopCount + if s.ended then 1 else 0) (hl : s.timers ≠ [])
    (hi : s.inLoop = false) {o : Outcome Cut Quiz}
    (ho : task U rnd { s with loaded := false } = o) :
    (o.state.repeated.length = o.state.loopCount + if o.state.ended then 1 else 0) ∧
      o.state.start = .next ∧ Framed { s with loaded := false } o.state := by
  subst ho
  have hcall := h.expired hl hi
  have hframed := task_framed U rnd { s with loaded := false }
  exact ⟨hcall.even_task hsafe heven U rnd, hframed.start.trans hcall.started, hframed⟩

/-- A call of `task` that is cut short does not end the game. -/
theorem ended_of_task_stop {e : Cut} (h : task U rnd s = .stop e s') : s'.ended = s.ended := by
  by_cases hn : 0 < s.images.length
  · have hr := taskResult U rnd hn
    rw [h] at hr
    exact hr.ended_of_stop
  · rw [task_of_empty U rnd hn] at h
    obtain ⟨-, rfl⟩ := Outcome.stop.inj h
    rfl

theorem Paced.touched (h : Paced s) (c : Str) (ρ : Row) : Paced (s.touched c ρ) := by
  obtain ⟨j, text, r1, r2, r3, heq⟩ := touched_eq s c ρ
  rw [heq]
  exact { h with }

/-- **Every reaction keeps the pace.** -/
theorem Reacts.paced (hsafe : Safe names) (hsteady : Steady names s) (h : Paced s)
    (hi : s.inLoop = false) (hr : Reacts U names s s') : Paced s' := by
  cases hr with
  | same => exact h
  | begin _ => exact { h with }
  | load => exact { h with }
  | unmount => exact { h with }
  | miss => exact { h with }
  | touch _ => exact h.touched _ _
  | @press rnd => exact (hsteady.credited hi).paced_task hsafe h.even (Nat.succ_pos 29) U rnd
  | @solve ρ c rnd hc =>
      have hcall := (hsteady.touched hc).credited ((touched_inLoop s c ρ).trans hi)
      exact hcall.paced_task hsafe (h.touched c ρ).even (Nat.succ_pos 29) U rnd
  | count hpos he => exact ⟨h.even, fun ho => absurd (he.symm.trans ho) (by simp), h.shown⟩
  | finish _ _ _ =>
      exact ⟨h.even, fun _ hp => absurd hp (by simp [Quiz.left]), h.shown⟩
  | expireCut hl ht =>
      obtain ⟨heven, hstart, hframed⟩ := hsteady.even_expired hsafe h.even hl hi ht
      refine ⟨heven, ?_, fun hs => absurd (hstart.symm.trans hs) (by simp)⟩
      intro he hp
      have hpos := h.clock ((ended_of_task_stop ht).symm.trans he) (hframed.pushed.symm.trans hp)
      exact hframed.timeinmin ▸ hpos
  | expire hl ht _ =>
      obtain ⟨heven, hstart, -⟩ := hsteady.even_expired hsafe h.even hl hi ht
      exact ⟨heven, fun _ _ => Nat.succ_pos 29, fun hs => absurd (hstart.symm.trans hs) (by simp)⟩
  | expireEnd hl ht _ =>
      obtain ⟨heven, hstart, -⟩ := hsteady.even_expired hsafe h.even hl hi ht
      exact ⟨heven, fun _ hp => absurd hp (by simp [Quiz.left]),
        fun hs => absurd (hstart.symm.trans hs) (by simp)⟩

/-- **Over a safe list all indices have been drawn exactly when the game is over.** -/
theorem Paced.drained_iff (h : Paced s) (hsteady : Steady names s) :
    Drained s ↔ s.ended = true := by
  constructor
  · rintro ⟨hn, hall⟩
    by_contra he
    have himg := hsteady.images.resolve_left (List.length_pos_iff.1 hn)
    have heven := h.even
    have hloop := hsteady.loop.2
    rw [if_neg he] at heven
    rw [himg] at hn
    obtain ⟨k, hk, hnew⟩ := exists_fresh (l := s.repeated) (n := names.length) (by omega)
    exact hnew (hall k (himg ▸ hk))
  · intro he
    obtain ⟨himg, hlen, -⟩ := hsteady.finished he
    have hloop := hsteady.loop.1
    rw [if_pos he] at hloop
    have hperm := perm_range hsteady.nodup hsteady.lt hlen
    rw [Drained, himg]
    exact ⟨by omega, fun k hk => hperm.mem_iff.2 (List.mem_range.2 hk)⟩

/-! ### The handlers -/

/-- **The handler of the button does not return exactly when the game is over.** -/
theorem Paced.onPressed_hangs_iff (h : Paced s) (hsteady : Steady names s) (hsound : Sound s)
    (U : CaseMap) (hi : s.inLoop = false) (hm : s.mounted = true) :
    (∀ rnd, (onPressed U rnd s).state.inLoop = true) ↔ s.ended = true := by
  simp only [hsteady.onPressed_eq hsound U _ hm]
  rw [task_hangs_iff U (s := s.credited) hi, ← h.drained_iff hsteady]
  rfl

/-- Before the end the handler of the button can return. -/
theorem Paced.exists_onPressed_returns (h : Paced s) (hsteady : Steady names s) (hsound : Sound s)
    (U : CaseMap) (hi : s.inLoop = false) (hm : s.mounted = true) (he : s.ended = false) :
    ∃ rnd, (onPressed U rnd s).state.inLoop = false := by
  by_contra hall
  push Not at hall
  have hend := (h.onPressed_hangs_iff hsteady hsound U hi hm).1 fun rnd => by simpa using hall rnd
  exact absurd (he.symm.trans hend) (by simp)

/-- The handler of the button keeps the list of paths. -/
theorem Steady.onPressed_images (h : Steady names s) (hsound : Sound s) (U : CaseMap)
    (rnd : Rand) : (onPressed U rnd s).state.images = s.images := by
  by_cases hm : s.mounted = true
  · rw [h.onPressed_eq hsound U rnd hm]
    exact (task_framed U rnd s.credited).images
  · rw [onPressed_of_unmounted U rnd (by simpa using hm)]
    rfl

/-- The handler of a card can return. -/
theorem Paced.exists_onTap_returns (h : Paced s) (hsteady : Steady names s) (hsound : Sound s)
    (U : CaseMap) (hi : s.inLoop = false) (hm : s.mounted = true) (ρ : Row) (i : ℕ) :
    ∃ rnd, (onTap U rnd ρ i s).state.inLoop = false := by
  cases hc : (s.row ρ)[i]? with
  | none => exact ⟨onlyDraws 0, by rw [onTap_of_none U _ hm hc]; exact hi⟩
  | some c =>
      have hi' : (s.touched c ρ).inLoop = false := (touched_inLoop s c ρ).trans hi
      by_cases hcomp : Completes s ρ c
      · -- a card is tapped while the game is not over, so there is an index to draw
        have hopen := hsteady.open_of_card (List.mem_iff_getElem?.2 ⟨i, hc⟩)
        have hleft : ¬ Drained (s.touched c ρ).credited := by
          intro hd
          obtain ⟨j, text, r1, r2, r3, heq⟩ := touched_eq s c ρ
          rw [heq] at hd
          exact absurd (hopen.symm.trans ((h.drained_iff hsteady).1 hd)) (by simp)
        obtain ⟨rnd, hout⟩ := exists_task_returns U (s := (s.touched c ρ).credited) hi' hleft
        refine ⟨rnd, ?_⟩
        rw [onTap_eq_act U rnd hm hsound.len hc,
          act_of_completes U rnd hm (hsound.timer_of_card hc) hcomp]
        exact hout
      · refine ⟨onlyDraws 0, ?_⟩
        rw [onTap_eq_act U _ hm hsound.len hc, act_of_open U _ hcomp]
        exact hi'

/-- The timer callback can return. -/
theorem Paced.exists_tick_returns (h : Paced s) (hsteady : Steady names s) (hsound : Sound s)
    (U : CaseMap) (hi : s.inLoop = false) (hl : s.timers ≠ []) :
    ∃ rnd, (tick U rnd s).state.inLoop = false := by
  by_cases hm : s.mounted = true
  · have ht := hsound.timer_of_live hl
    by_cases hpos : 0 < s.timeinmin
    · refine ⟨onlyDraws 0, ?_⟩
      rcases tick_of_pos U (onlyDraws 0) hm ht hpos with heq | heq
      · rw [heq]
        exact hi
      · rw [heq]
        exact hi
    · -- a finished game has time left for the tick that leaves the screen
      have hleft : ¬ Drained { s with loaded := false } := fun hd =>
        hpos (h.clock ((h.drained_iff hsteady).1 hd) (hsteady.pushed_nil hl hi))
      obtain ⟨rnd, hout⟩ := exists_task_returns U (s := { s with loaded := false }) hi hleft
      obtain ⟨s₁, htick, hs₁⟩ := tick_cases U rnd hm ht
      have hin : s₁.inLoop = false := by
        rcases hs₁ with rfl | rfl | rfl
        · exact hi
        · exact hout
        · exact hout
      refine ⟨rnd, ?_⟩
      rcases htick with heq | heq
      · rw [heq]
        exact hin
      · rw [heq]
        exact hin
  · refine ⟨onlyDraws 0, ?_⟩
    rw [tick_of_unmounted U _ (by simpa using hm)]
    exact hi

/-- A tick keeps the caption and the list of paths. -/
theorem Effect.kept_of_tick (he : Effect U names s (.tick rnd) s') :
    s'.start = s.start ∧ s'.images = s.images := by
  cases he with
  | count _ _ _ => exact ⟨rfl, rfl⟩
  | finish _ _ _ => exact ⟨rfl, rfl⟩
  | expireCut _ _ hr => exact ⟨hr.framed.start, hr.framed.images⟩
  | expire _ _ hr _ => exact ⟨hr.framed.start, hr.framed.images⟩
  | expireEnd _ _ hr _ => exact ⟨hr.framed.start, hr.framed.images⟩

end

end Quiz

/-! ### Lists that are still to be loaded -/

namespace Session

/-- **A list that has been dropped will be loaded again**, while it is stored: as long as there is
none, nothing has been pressed, or some handler has still to decode the stored list. -/
structure Loading (s : Session) : Prop where
  /-- No handler has read another text. -/
  read : s.stored = true → ∀ ph ∈ s.pending, ph ≠ .getBlank
  load : s.stored = true → s.quiz.images = [] →
    (s.quiz.start = .start ∧ s.pending = []) ∨ ∃ ph ∈ s.pending, ph ≠ .getIm

section

variable {U : CaseMap} {names : List Str} {s s' : Session}

/-- After the first handler of the button the list is not dropped any more. -/
theorem reacts_images (hn : 0 < names.length) {q q' : Quiz} (hs : q.start = .next)
    (hr : Quiz.Reacts U names q q') (h : q'.images = []) : q.images = [] := by
  have htask : ∀ (q₁ : Quiz) {rnd : Rand} {o : Outcome Cut Quiz}, Quiz.task U rnd q₁ = o →
      o.state.images = [] → q₁.images = [] := by
    rintro q₁ rnd o rfl h
    exact (Quiz.task_framed U rnd q₁).images ▸ h
  cases hr with
  | same => exact h
  | begin hstart => exact absurd (hs.symm.trans hstart) (by simp)
  | load =>
      rw [show names = [] from h] at hn
      exact absurd hn (lt_irrefl _)
  | unmount => exact h
  | miss => exact h
  | touch _ => exact (Quiz.touched_images q _ _).symm.trans h
  | press => exact htask q.credited rfl h
  | @solve ρ c _ _ =>
      exact (Quiz.touched_images q c ρ).symm.trans (htask (q.touched c ρ).credited rfl h)
  | count _ _ => exact h
  | finish _ _ _ => exact h
  | expireCut _ ht => exact htask { q with loaded := false } ht h
  | expire _ ht _ => exact htask { q with loaded := false } ht h
  | expireEnd _ ht _ => exact htask { q with loaded := false } ht h

theorem Loading.reacts (hl : Loading s) (hn : 0 < names.length) (hs : s.quiz.start = .next)
    {q : Quiz} (hr : Quiz.Reacts U names s.quiz q) : Loading { s with quiz := q } where
  read := hl.read
  load hst himg :=
    Or.inr ((hl.load hst (reacts_images hn hs hr himg)).resolve_left (by simp [hs]))

theorem Loading.onPress (hl : Loading s) (hn : 0 < names.length) (h : s.quiz.Steady names)
    (hsound : s.quiz.Sound) (rnd : Rand) : Loading (s.onPress U rnd) := by
  have hr := reacts_onPress (U := U) h hsound rnd
  rw [Session.onPress] at hr ⊢
  by_cases hs : s.quiz.start = .start
  · rw [if_pos hs]
    refine ⟨?_, fun _ _ => Or.inr ⟨.getInstance, by simp, by simp⟩⟩
    intro hst ph hmem
    rcases List.mem_append.1 hmem with hmem | hmem
    · exact hl.read hst ph hmem
    · rw [List.mem_singleton.1 hmem]
      simp
  · rw [if_neg hs] at hr ⊢
    exact hl.reacts hn (Quiz.next_of_ne hs) hr

/-- **Every event of a session keeps a list to be loaded.** -/
theorem Loading.step (hl : Loading s) (hn : 0 < names.length) (h : s.quiz.Steady names)
    (hsound : s.quiz.Sound) {e : Event} (hs : step U names s e = some s') : Loading s' := by
  cases e with
  | press rnd =>
      obtain ⟨-, rfl⟩ := onPress_of_step hs
      exact hl.onPress hn h hsound rnd
  | resume i rnd =>
      obtain ⟨-, hs⟩ := Option.ite_none_right_eq_some.1 hs
      cases hp : s.pending[i]? with
      | none => simp [hp] at hs
      | some ph =>
          have hi : i < s.pending.length := (List.getElem?_eq_some_iff.1 hp).1
          have hset : ∀ {x : Phase}, x ≠ .getBlank → s.stored = true →
              ∀ ph ∈ s.pending.set i x, ph ≠ .getBlank := by
            intro x hx hst ph hmem
            rcases List.mem_or_eq_of_mem_set hmem with hmem | rfl
            · exact hl.read hst ph hmem
            · exact hx
          cases ph with
          | getInstance =>
              obtain rfl : _ = s' := by simpa [hp] using hs
              by_cases hst : s.stored = true
              · rw [if_pos hst]
                exact ⟨hset (by simp),
                  fun _ _ => Or.inr ⟨.getString, List.mem_set hi _, by simp⟩⟩
              · exact ⟨fun hst' => absurd hst' hst, fun hst' => absurd hst' hst⟩
          | getString =>
              obtain rfl : _ = s' := by simpa [hp] using hs
              refine ⟨hset (by simp), ?_⟩
              intro _ himg
              rw [show names = [] from himg] at hn
              exact absurd hn (lt_irrefl _)
          | getBlank =>
              obtain rfl : _ = s' := by simpa [hp] using hs
              have hlost : ¬ s.stored = true := fun hst =>
                hl.read hst .getBlank (List.mem_of_getElem? hp) rfl
              exact ⟨fun hst => absurd hst hlost, fun hst => absurd hst hlost⟩
          | getIm =>
              obtain rfl : _ = s' := by simpa [hp] using hs
              refine ⟨fun hst ph hmem => hl.read hst ph (List.mem_of_mem_eraseIdx hmem), ?_⟩
              intro hst himg
              -- another handler is still to decode the list
              obtain ⟨-, hnil⟩ | ⟨ph, hmem, hph⟩ :=
                hl.load hst ((h.onPressed_images hsound U rnd).symm.trans himg)
              · simp [hnil] at hi
              · obtain ⟨j, hj⟩ := List.mem_iff_getElem?.1 hmem
                refine Or.inr ⟨ph, List.mem_eraseIdx_iff_getElem?.2 ⟨j, ?_, hj⟩, hph⟩
                rintro rfl
                exact hph (Option.some_inj.1 (hj.symm.trans hp))
  | tap ρ i rnd =>
      obtain ⟨hm, hmap⟩ := Option.ite_none_right_eq_some.1 hs
      obtain ⟨q, hq, rfl⟩ := Option.map_eq_some_iff.1 hmap
      obtain ⟨⟨-, hstart⟩, rfl⟩ := of_guard hq
      exact hl.reacts hn hstart (hsound.reacts_onTap names U rnd hm ρ i)
  | tick rnd =>
      obtain ⟨q, hq, rfl⟩ := Option.map_eq_some_iff.1 hs
      obtain ⟨⟨-, hlive⟩, rfl⟩ := of_guard hq
      have hnext := Quiz.next_of_ne fun hstart => hlive (h.fresh hstart).1
      exact hl.reacts hn hnext (hsound.reacts_tick names U rnd hlive)
  | unmount =>
      obtain ⟨-, rfl⟩ := of_guard hs
      exact ⟨hl.read, hl.load⟩
  | blank =>
      obtain ⟨-, rfl⟩ := of_guard hs
      exact ⟨fun hst => absurd hst (by simp), fun hst => absurd hst (by simp)⟩

/-- A suspended handler that does not return is carried out. -/
theorem onPressed_of_resume {i : ℕ} {rnd : Rand} (hs : step U names s (.resume i rnd) = some s')
    (hin : s'.quiz.inLoop = true) :
    s.pending[i]? = some .getIm ∧ (Quiz.onPressed U rnd s.quiz).state.inLoop = true := by
  obtain ⟨hi, hs⟩ := Option.ite_none_right_eq_some.1 hs
  cases hp : s.pending[i]? with
  | none => simp [hp] at hs
  | some ph =>
      cases ph with
      | getInstance =>
          obtain rfl : _ = s' := by simpa [hp] using hs
          exact absurd (hi.symm.trans hin) (by simp)
      | getString =>
          obtain rfl : _ = s' := by simpa [hp] using hs
          exact absurd (hi.symm.trans hin) (by simp)
      | getBlank =>
          obtain rfl : _ = s' := by simpa [hp] using hs
          exact absurd (hi.symm.trans hin) (by simp)
      | getIm =>
          obtain rfl : _ = s' := by simpa [hp] using hs
          exact ⟨rfl, hin⟩

/-- The same event, with the answers `rnd` of the random sources. -/
def Event.answered (rnd : Rand) : Event → Event
  | .press _ => .press rnd
  | .resume i _ => .resume i rnd
  | .tap ρ i _ => .tap ρ i rnd
  | .tick _ => .tick rnd
  | .unmount => .unmount
  | .blank => .blank

end

end Session

/-! ### Exactly when a handler does not return -/

namespace Frame

/-- The same event, with the answers `rnd` of the random sources. -/
def Event.answered (rnd : Rand) : Event → Event
  | .build => .build
  | .event e => .event (e.answered rnd)

/-- **An event hangs**: it can happen, and whatever the random sources answer, its handler does not
leave the redraw loop. -/
def Hangs (U : CaseMap) (names : List Str) (f : Frame) (e : Event) : Prop :=
  ∀ rnd, ∃ f', step U names f (e.answered rnd) = some f' ∧ f'.session.quiz.inLoop = true

/-- A move carries out a handler of the button. -/
def carriedBy (m : Move Frame Event) : Bool := (sessionMove m).any Session.carriedBy

section

variable {U : CaseMap} {names : List Str} {f f' : Frame} {tr : List (Move Frame Event)}

/-- **Every session over a safe list keeps the pace.** -/
theorem paced_of_run (hsafe : Quiz.Safe names) (h : Run (step U names) {} tr f) :
    f.session.quiz.Paced := by
  refine Run.invariant (I := fun _ f => f.session.quiz.Paced)
    ⟨rfl, fun he => absurd he (by simp), fun _ => rfl⟩ ?_ h
  intro tr f e f' hrun ih hs
  have hsteady := steady_of_run hrun
  exact (reacts_of_step hsteady (sound_of_run hrun) hs).paced hsafe hsteady ih (step_cases hs).1

/-- **Every session keeps a list to be loaded.** -/
theorem loading_of_run (hn : 0 < names.length) (h : Run (step U names) {} tr f) :
    f.session.Loading := by
  refine Run.invariant (I := fun _ f => f.session.Loading)
    ⟨by simp, fun _ _ => Or.inl ⟨rfl, rfl⟩⟩ ?_ h
  intro tr f e f' hrun ih hs
  have hsteady := steady_of_run hrun
  have hsound := sound_of_run hrun
  obtain ⟨-, ⟨-, heq⟩ | ⟨rnd, -, -, heq⟩ | ⟨e', -, hstep⟩⟩ := step_cases hs
  · rw [heq]
    exact ih
  · rw [heq]
    exact ih.onPress hn hsteady hsound rnd
  · exact ih.step hn hsteady hsound hstep

/-- A press that hangs is carried out at once, when the game is over. -/
theorem Hangs.of_press (hsafe : Quiz.Safe names) (h : Run (step U names) {} tr f) {rnd : Rand}
    (hh : f.Hangs U names (.event (.press rnd))) :
    f.session.quiz.mounted = true ∧ f.session.quiz.start = .next ∧
      f.session.quiz.ended = true := by
  have hsteady := steady_of_run h
  obtain ⟨f', hs, hin⟩ := hh rnd
  obtain ⟨⟨hi, hm, -⟩, rfl⟩ := of_guard hs
  have hstart : ¬ f.session.quiz.start = .start := by
    intro hstart
    change (f.session.onPress U rnd).quiz.inLoop = true at hin
    rw [Session.onPress, if_pos hstart] at hin
    exact absurd (hi.symm.trans hin) (by simp)
  refine ⟨hm, Quiz.next_of_ne hstart, ?_⟩
  refine ((paced_of_run hsafe h).onPressed_hangs_iff hsteady (sound_of_run h) U hi hm).1 ?_
  intro rnd'
  obtain ⟨f', hs, hin⟩ := hh rnd'
  obtain ⟨-, rfl⟩ := of_guard hs
  change (f.session.onPress U rnd').quiz.inLoop = true at hin
  rw [Session.onPress, if_neg hstart] at hin
  exact hin

/-- A suspended handler that hangs is carried out, when the game is over. -/
theorem Hangs.of_resume (hsafe : Quiz.Safe names) (h : Run (step U names) {} tr f) {i : ℕ}
    {rnd : Rand} (hh : f.Hangs U names (.event (.resume i rnd))) :
    f.session.quiz.mounted = true ∧ f.session.pending[i]? = some .getIm ∧
      f.session.quiz.ended = true := by
  have hall : ∀ rnd', f.session.quiz.inLoop = false ∧ f.session.pending[i]? = some .getIm ∧
      (Quiz.onPressed U rnd' f.session.quiz).state.inLoop = true := by
    intro rnd'
    obtain ⟨f', hs, hin⟩ := hh rnd'
    obtain ⟨s, hstep, rfl⟩ := Option.map_eq_some_iff.1 hs
    exact ⟨Session.inLoop_of_step hstep, Session.onPressed_of_resume hstep hin⟩
  obtain ⟨hi, hp, -⟩ := hall rnd
  have hm : f.session.quiz.mounted = true := by
    by_contra hm
    have hin := (hall rnd).2.2
    rw [Quiz.onPressed_of_unmounted U rnd (by simpa using hm)] at hin
    exact absurd (hi.symm.trans hin) (by simp)
  exact ⟨hm, hp, ((paced_of_run hsafe h).onPressed_hangs_iff (steady_of_run h) (sound_of_run h) U
    hi hm).1 fun rnd' => (hall rnd').2.2⟩

/-- A tap does not hang. -/
theorem not_hangs_tap (hsafe : Quiz.Safe names) (h : Run (step U names) {} tr f) (ρ : Quiz.Row)
    (i : ℕ) (rnd : Rand) : ¬ f.Hangs U names (.event (.tap ρ i rnd)) := by
  intro hh
  have hquiz : ∀ rnd', f.session.quiz.inLoop = false ∧ f.session.quiz.mounted = true ∧
      (Quiz.onTap U rnd' ρ i f.session.quiz).state.inLoop = true := by
    intro rnd'
    obtain ⟨f', hs, hin⟩ := hh rnd'
    obtain ⟨s, hstep, rfl⟩ := Option.map_eq_some_iff.1 (Option.ite_none_right_eq_some.1 hs).2
    obtain ⟨hm, hmap⟩ := Option.ite_none_right_eq_some.1 hstep
    obtain ⟨q, hq, rfl⟩ := Option.map_eq_some_iff.1 hmap
    obtain ⟨⟨hi, -⟩, rfl⟩ := of_guard hq
    exact ⟨hi, hm, hin⟩
  obtain ⟨hi, hm, -⟩ := hquiz rnd
  obtain ⟨rnd', hout⟩ := (paced_of_run hsafe h).exists_onTap_returns (steady_of_run h)
    (sound_of_run h) U hi hm ρ i
  exact absurd (hout.symm.trans (hquiz rnd').2.2) (by simp)

/-- A tick does not hang. -/
theorem not_hangs_tick (hsafe : Quiz.Safe names) (h : Run (step U names) {} tr f) (rnd : Rand) :
    ¬ f.Hangs U names (.event (.tick rnd)) := by
  intro hh
  have hquiz : ∀ rnd', f.session.quiz.inLoop = false ∧ f.session.quiz.timers ≠ [] ∧
      (Quiz.tick U rnd' f.session.quiz).state.inLoop = true := by
    intro rnd'
    obtain ⟨f', hs, hin⟩ := hh rnd'
    obtain ⟨s, hstep, rfl⟩ := Option.map_eq_some_iff.1 hs
    obtain ⟨q, hq, rfl⟩ := Option.map_eq_some_iff.1 hstep
    obtain ⟨⟨hi, hl⟩, rfl⟩ := of_guard hq
    exact ⟨hi, hl, hin⟩
  obtain ⟨hi, hl, -⟩ := hquiz rnd
  obtain ⟨rnd', hout⟩ := (paced_of_run hsafe h).exists_tick_returns (steady_of_run h)
    (sound_of_run h) U hi hl
  exact absurd (hout.symm.trans (hquiz rnd').2.2) (by simp)

/-- **An event that hangs** carries out a handler of the button when the game is over. -/
theorem Hangs.carried (hsafe : Quiz.Safe names) (h : Run (step U names) {} tr f) {e : Event}
    (hh : f.Hangs U names e) :
    ∃ f', step U names f e = some f' ∧ carriedBy ⟨f, e, f'⟩ = true ∧
      f.session.quiz.ended = true := by
  cases e with
  | build =>
      obtain ⟨f', hs, hin⟩ := hh (Quiz.onlyDraws 0)
      obtain ⟨⟨hi, -⟩, rfl⟩ := of_guard hs
      exact absurd (hi.symm.trans hin) (by simp)
  | event e =>
      cases e with
      | press rnd =>
          obtain ⟨hm, hnext, hend⟩ := hh.of_press hsafe h
          obtain ⟨f', hs, -⟩ := hh rnd
          exact ⟨f', hs, by simp [carriedBy, sessionMove, Session.carriedBy, hm, hnext], hend⟩
      | resume i rnd =>
          obtain ⟨hm, hp, hend⟩ := hh.of_resume hsafe h
          obtain ⟨f', hs, -⟩ := hh rnd
          exact ⟨f', hs, by simp [carriedBy, sessionMove, Session.carriedBy, hm, hp], hend⟩
      | tap ρ i rnd => exact absurd hh (not_hangs_tap hsafe h ρ i rnd)
      | tick rnd => exact absurd hh (not_hangs_tick hsafe h rnd)
      | unmount =>
          obtain ⟨f', hs, hin⟩ := hh (Quiz.onlyDraws 0)
          obtain ⟨s, hstep, rfl⟩ := Option.map_eq_some_iff.1 hs
          obtain ⟨⟨hi, -⟩, rfl⟩ := of_guard hstep
          exact absurd (hi.symm.trans hin) (by simp)
      | blank =>
          obtain ⟨f', hs, hin⟩ := hh (Quiz.onlyDraws 0)
          obtain ⟨s, hstep, rfl⟩ := Option.map_eq_some_iff.1 hs
          obtain ⟨hi, rfl⟩ := of_guard hstep
          exact absurd (hi.symm.trans hin) (by simp)

/-- **A handler of the button that is carried out when the game is over hangs.** -/
theorem hangs_of_carried (hsafe : Quiz.Safe names) (h : Run (step U names) {} tr f) {e : Event}
    (hs : step U names f e = some f') (hc : carriedBy ⟨f, e, f'⟩ = true)
    (hend : f.session.quiz.ended = true) : f.Hangs U names e := by
  intro rnd'
  have hi := (step_cases hs).1
  have hhang : f.session.quiz.mounted = true →
      (Quiz.onPressed U rnd' f.session.quiz).state.inLoop = true := fun hm =>
    ((paced_of_run hsafe h).onPressed_hangs_iff (steady_of_run h) (sound_of_run h) U
      hi hm).2 hend rnd'
  cases e with
  | build => exact absurd hc (by simp [carriedBy, sessionMove])
  | event e =>
      cases e with
      | press rnd =>
          obtain ⟨hguard, rfl⟩ := of_guard hs
          have hnext : f.session.quiz.start = .next := by
            simpa [carriedBy, sessionMove, Session.carriedBy, hguard.2.1] using hc
          refine ⟨_, if_pos hguard, ?_⟩
          change (f.session.onPress U rnd').quiz.inLoop = true
          rw [Session.onPress, if_neg (by simp [hnext])]
          exact hhang hguard.2.1
      | resume i rnd =>
          obtain ⟨hm, hp⟩ : f.session.quiz.mounted = true ∧
              f.session.pending[i]? = some .getIm := by
            simpa [carriedBy, sessionMove, Session.carriedBy] using hc
          refine ⟨{ f with session := ⟨_, f.session.pending.eraseIdx i, f.session.stored⟩ }, ?_,
            hhang hm⟩
          change (Session.step U names f.session (.resume i rnd')).map _ = _
          rw [Session.step, if_pos hi, hp]
          rfl
      | tap ρ i rnd => exact absurd hc (by simp [carriedBy, sessionMove, Session.carriedBy])
      | tick rnd => exact absurd hc (by simp [carriedBy, sessionMove, Session.carriedBy])
      | unmount => exact absurd hc (by simp [carriedBy, sessionMove, Session.carriedBy])
      | blank => exact absurd hc (by simp [carriedBy, sessionMove, Session.carriedBy])

/-- **Only the button can hang, and exactly when the game is over.**  In every state of every
session over a list no path of which makes `task` throw, whatever has been pressed, tapped and
resumed in whatever order: an event hangs exactly when it can happen, carries out a handler of the
button and finds the game over.  The handlers of the cards and of the timer can always return. -/
theorem hangs_iff (hsafe : names.length = 1 ∨ ∀ p ∈ names, Dealable p)
    (h : Run (step U names) {} tr f) (e : Event) :
    f.Hangs U names e ↔ ∃ f', step U names f e = some f' ∧ carriedBy ⟨f, e, f'⟩ = true ∧
      f.session.quiz.ended = true := by
  constructor
  · exact fun hh => hh.carried hsafe h
  · rintro ⟨f', hs, hc, hend⟩
    exact hangs_of_carried hsafe h hs hc hend

end

/-- A single logo, and Start is pressed twice on the first frame: the first handler ends the game,
and the second one never returns. -/
theorem hangs_iff_logoPath :
    ∃ tr f, Run (step .ascii [logoPath]) {} tr f ∧ f.session.quiz.pushed = [] ∧
      f.Hangs .ascii [logoPath] (.event (.resume 0 (Quiz.onlyDraws 0))) := by
  have hexec : (exec (step .ascii [logoPath]) {}
      ([.event (.press (Quiz.onlyDraws 0)), .event (.press (Quiz.onlyDraws 0))] ++
        List.replicate 5 (.event (.resume 0 (Quiz.onlyDraws 0))))).map
        (fun f => ((f.session.quiz.inLoop, f.session.quiz.mounted, f.session.quiz.ended),
          f.session.quiz.pushed, f.session.pending)) =
      some ((false, true, true), [], [.getIm]) := by
    decide
  obtain ⟨tr, f, hrun, hfields, -⟩ := exists_run_of_exec hexec
  simp only [Prod.mk.injEq] at hfields
  obtain ⟨⟨hi, hm, hend⟩, hpushed, hp⟩ := hfields
  have hstep : step .ascii [logoPath] f (.event (.resume 0 (Quiz.onlyDraws 0))) =
      some { f with session := { f.session with
        quiz := (Quiz.onPressed .ascii (Quiz.onlyDraws 0) f.session.quiz).state
        pending := [] } } := by
    simp [step, Session.step, hi, hp]
  exact ⟨tr, f, hrun, hpushed, (hangs_iff (Or.inl rfl) hrun _).2
    ⟨_, hstep, by simp [carriedBy, sessionMove, Session.carriedBy, hm, hp], hend⟩⟩

/-! ### The timer brings a started session to its end -/

/-- **A session that the timer can bring to its end**: a handler of the button has been carried out,
the list of paths is there, and no handler is inside the redraw loop. -/
structure Started (U : CaseMap) (names : List Str) (f : Frame) : Prop where
  reached : ∃ tr, Run (step U names) {} tr f
  mounted : f.session.quiz.mounted = true
  inLoop : f.session.quiz.inLoop = false
  started : f.session.quiz.start = .next
  images : f.session.quiz.images = names

section

variable {U : CaseMap} {names : List Str} {f f' : Frame} {tr : List (Move Frame Event)}

/-- With time left the timer can tick, and one tick takes one from it. -/
theorem Started.tick (hn : 0 < names.length) (hsafe : Quiz.Safe names) (h : Started U names f)
    (hpos : 0 < Quiz.timeLeft names.length f.session.quiz) :
    ∃ e f', (∃ rnd, e = .event (.tick rnd)) ∧ step U names f e = some f' ∧ Started U names f' ∧
      f'.session.quiz.obtScore = f.session.quiz.obtScore ∧
      Quiz.timeLeft names.length f'.session.quiz + 1 =
        Quiz.timeLeft names.length f.session.quiz := by
  obtain ⟨tr, hrun⟩ := h.reached
  have hsteady := steady_of_run hrun
  have hpaced := paced_of_run hsafe hrun
  have hp : f.session.quiz.pushed = [] := by
    by_contra hp
    rw [(Quiz.timeLeft_eq_zero_iff h.started h.inLoop).2 hp] at hpos
    exact absurd hpos (lt_irrefl _)
  -- an index is left to draw while the game is not over
  obtain ⟨k, hfresh⟩ : ∃ k, f.session.quiz.ended = false →
      k < names.length ∧ k ∉ f.session.quiz.repeated := by
    cases he : f.session.quiz.ended with
    | true => exact ⟨0, fun hf => absurd hf (by simp)⟩
    | false =>
        have heven := hpaced.even
        have hloop := hsteady.loop.2
        rw [if_neg (by simp [he])] at heven
        obtain ⟨k, hk⟩ := exists_fresh (l := f.session.quiz.repeated) (n := names.length) (by omega)
        exact ⟨k, fun _ => hk⟩
  obtain ⟨t, ht, hts⟩ := hsteady.live h.started hp
  have hlive : f.session.quiz.timers ≠ [] := by simp [hts]
  have heff : Quiz.Effect U names f.session.quiz (.tick (Quiz.onlyDraws k))
      (Quiz.tick U (Quiz.onlyDraws k) f.session.quiz).state :=
    Quiz.tick_effect (h.images.symm ▸ hn) h.mounted (by simp [ht]) hlive _
  have htimed : Quiz.Timed names f.session.quiz :=
    ⟨h.started, h.images, hp, h.inLoop, hpaced.clock⟩
  obtain ⟨hin, hscore⟩ := htimed.of_onlyDraws hfresh heff
  obtain ⟨hstart, himg⟩ := heff.kept_of_tick
  have hquiz : Quiz.step U names f.session.quiz (.tick (Quiz.onlyDraws k)) =
      some (Quiz.tick U (Quiz.onlyDraws k) f.session.quiz).state := if_pos ⟨h.inLoop, hlive⟩
  have hstep : step U names f (.event (.tick (Quiz.onlyDraws k))) =
      some { f with session := { f.session with
        quiz := (Quiz.tick U (Quiz.onlyDraws k) f.session.quiz).state } } := by
    change (Session.step U names f.session (.tick _)).map _ = _
    rw [Session.step, hquiz]
    rfl
  refine ⟨_, _, ⟨_, rfl⟩, hstep, ⟨⟨_, hrun.snoc hstep⟩, ?_, hin, ?_, ?_⟩, hscore, ?_⟩
  · exact (Quiz.alive_tick U _ h.mounted).mounted
  · exact hstart.trans h.started
  · exact himg.trans h.images
  · rw [Nat.add_comm]
    exact (htimed.timeLeft hsafe heff).2 hin

/-- The ticks that are left lead to the result. -/
theorem Started.exists_ticks (hn : 0 < names.length) (hsafe : Quiz.Safe names)
    (h : Started U names f) :
    ∃ tr' f', Run (step U names) f tr' f' ∧ (∀ m ∈ tr', ∃ rnd, m.event = .event (.tick rnd)) ∧
      tr'.length = Quiz.timeLeft names.length f.session.quiz ∧ f'.session.quiz.mounted = true ∧
      f'.session.quiz.pushed =
        [⟨intToString f.session.quiz.obtScore, intToString names.length⟩] := by
  obtain ⟨tr', f', hrun, ⟨hf, hscore⟩, hzero, hev, hlen⟩ :=
    exists_run_of_countdown (P := fun e : Event => ∃ rnd, e = .event (.tick rnd))
      (I := fun f₁ => Started U names f₁ ∧
        f₁.session.quiz.obtScore = f.session.quiz.obtScore)
      (fun _ hs hpos => by
        obtain ⟨e, f₂, he, hstep, hf₂, hscore, hlt⟩ := hs.1.tick hn hsafe hpos
        exact ⟨e, f₂, he, hstep, ⟨hf₂, hscore.trans hs.2⟩, hlt⟩) ⟨h, rfl⟩
  obtain ⟨tr, hreached⟩ := hf.reached
  obtain ⟨-, obt, hpushed, ⟨-, rfl⟩ | ⟨hin, -⟩⟩ := (steady_of_run hreached).gone
    ((Quiz.timeLeft_eq_zero_iff hf.started hf.inLoop).1 hzero)
  · exact ⟨tr', f', hrun, hev, hlen, hf.mounted, by rw [hpushed, hscore]⟩
  · exact absurd (hf.inLoop.symm.trans hin) (by simp)

/-! ### Every session can be brought to its end -/

theorem step_resume {i : ℕ} {rnd : Rand} {s : Session}
    (hs : Session.step U names f.session (.resume i rnd) = some s) :
    step U names f (.event (.resume i rnd)) = some { f with session := s } := by
  change (Session.step U names f.session (.resume i rnd)).map _ = _
  rw [hs]
  rfl

/-- While the list is stored, a suspended handler can go on to its last `await`; on the way it
decodes the list, unless it has done so before. -/
theorem exists_loaded (U : CaseMap) (names : List Str) (hi : f.session.quiz.inLoop = false)
    (hst : f.session.stored = true) {i : ℕ} {ph : Phase} (hp : f.session.pending[i]? = some ph)
    (hread : ph ≠ .getBlank) :
    ∃ tr' f', Run (step U names) f tr' f' ∧ f'.session.pending[i]? = some .getIm ∧
      (f'.session.quiz = f.session.quiz.getImEnd names ∨
        ph = .getIm ∧ f'.session.quiz = f.session.quiz) := by
  obtain ⟨⟨q, ps, st⟩, b⟩ := f
  obtain rfl : st = true := hst
  have hlt : i < ps.length := (List.getElem?_eq_some_iff.1 hp).1
  have hdecode : ∀ ps' : List Phase, ps'[i]? = some .getString →
      step U names ⟨⟨q, ps', true⟩, b⟩ (.event (.resume i (Quiz.onlyDraws 0))) =
        some ⟨⟨q.getImEnd names, ps'.set i .getIm, true⟩, b⟩ := by
    intro ps' hp'
    exact step_resume (by rw [Session.step, if_pos hi, hp'])
  cases ph with
  | getIm => exact ⟨[], _, .nil, hp, Or.inr ⟨rfl, rfl⟩⟩
  | getString => exact ⟨_, _, Run.single (hdecode ps hp), by simp [hlt], Or.inl rfl⟩
  | getBlank => exact absurd rfl hread
  | getInstance =>
      have hbegin : step U names ⟨⟨q, ps, true⟩, b⟩ (.event (.resume i (Quiz.onlyDraws 0))) =
          some ⟨⟨q, ps.set i .getString, true⟩, b⟩ :=
        step_resume (by rw [Session.step, if_pos hi, hp]; rfl)
      exact ⟨_, _, (Run.single hbegin).snoc (hdecode _ (by simp [hlt])), by simp [hlt], Or.inl rfl⟩

/-- While no handler of the button has been carried out, one can be waiting. -/
theorem exists_pending (hsafe : Quiz.Safe names) (h : Run (step U names) {} tr f)
    (hm : f.session.quiz.mounted = true) (hi : f.session.quiz.inLoop = false)
    (hs : f.session.quiz.start = .start) :
    ∃ tr' f', Run (step U names) f tr' f' ∧ f'.session.quiz.mounted = true ∧
      f'.session.quiz.inLoop = false ∧ f'.session.quiz.start = .start ∧
      f'.session.pending ≠ [] ∧ f'.session.stored = f.session.stored := by
  by_cases hp : f.session.pending = []
  · have hbuild : step U names f .build = some { f with built := f.session.quiz } :=
      if_pos ⟨hi, hm⟩
    have hshown : f.session.quiz.nextEnabled = true := by
      simp [Quiz.nextEnabled, hs, (paced_of_run hsafe h).shown hs]
    have hpress : step U names { f with built := f.session.quiz }
        (.event (.press (Quiz.onlyDraws 0))) =
        some ⟨f.session.onPress U (Quiz.onlyDraws 0), f.session.quiz⟩ :=
      if_pos ⟨hi, hm, hshown⟩
    refine ⟨_, _, (Run.single hbuild).snoc hpress, ?_⟩
    rw [Session.onPress, if_pos hs]
    exact ⟨hm, hi, hs, by simp, rfl⟩
  · exact ⟨[], f, .nil, hm, hi, hs, hp, rfl⟩

/-- **Every session over a safe list can be started**, as long as the list is stored, the screen is
mounted and no handler is inside the redraw loop. -/
theorem exists_started (hn : 0 < names.length) (hsafe : Quiz.Safe names)
    (h : Run (step U names) {} tr f) (hst : f.session.stored = true)
    (hm : f.session.quiz.mounted = true) (hi : f.session.quiz.inLoop = false) :
    ∃ tr' f', Run (step U names) f tr' f' ∧ Started U names f' := by
  cases hs : f.session.quiz.start with
  | next =>
      by_cases himg : f.session.quiz.images = []
      · -- a handler that is still to decode the list does so
        have hload := loading_of_run hn h
        obtain ⟨hstart, -⟩ | ⟨ph, hmem, hph⟩ := hload.load hst himg
        · exact absurd (hs.symm.trans hstart) (by simp)
        obtain ⟨i, hp⟩ := List.mem_iff_getElem?.1 hmem
        obtain ⟨tr', f', hrun, -, heq | ⟨heq, -⟩⟩ :=
          exists_loaded U names hi hst hp (hload.read hst ph hmem)
        · exact ⟨tr', f', hrun, ⟨_, h.append hrun⟩, by rw [heq]; exact hm, by rw [heq]; exact hi,
            by rw [heq]; exact hs, by rw [heq]; rfl⟩
        · exact absurd heq hph
      · exact ⟨[], f, .nil, ⟨tr, h⟩, hm, hi, hs, (steady_of_run h).images.resolve_left himg⟩
  | start =>
      obtain ⟨tr₁, f₁, hrun₁, hm₁, hi₁, hs₁, hne, hst₁⟩ := exists_pending hsafe h hm hi hs
      rw [hst] at hst₁
      have h₁ := h.append hrun₁
      have hload := loading_of_run hn h₁
      -- a waiting handler with which the list is there when it goes on
      obtain ⟨i, ph, hp, hlist⟩ : ∃ (i : ℕ) (ph : Phase), f₁.session.pending[i]? = some ph ∧
          (ph = .getIm → f₁.session.quiz.images = names) := by
        by_cases himg : f₁.session.quiz.images = []
        · obtain ⟨-, hnil⟩ | ⟨ph, hmem, hph⟩ := hload.load hst₁ himg
          · exact absurd hnil hne
          · obtain ⟨i, hp⟩ := List.mem_iff_getElem?.1 hmem
            exact ⟨i, ph, hp, fun heq => absurd heq hph⟩
        · obtain ⟨ph, hmem⟩ := List.exists_mem_of_ne_nil _ hne
          obtain ⟨i, hp⟩ := List.mem_iff_getElem?.1 hmem
          exact ⟨i, ph, hp, fun _ => (steady_of_run h₁).images.resolve_left himg⟩
      obtain ⟨tr₂, f₂, hrun₂, hp₂, hq⟩ :=
        exists_loaded U names hi₁ hst₁ hp (hload.read hst₁ ph (List.mem_of_getElem? hp))
      have h₂ := h₁.append hrun₂
      obtain ⟨hm₂, hi₂, hs₂, himg₂⟩ : f₂.session.quiz.mounted = true ∧
          f₂.session.quiz.inLoop = false ∧ f₂.session.quiz.start = .start ∧
          f₂.session.quiz.images = names := by
        rcases hq with heq | ⟨hph, heq⟩
        · rw [heq]
          exact ⟨hm₁, hi₁, hs₁, rfl⟩
        · rw [heq]
          exact ⟨hm₁, hi₁, hs₁, hlist hph⟩
      -- it is carried out, with a draw that leaves the redraw loop
      have hsteady := steady_of_run h₂
      have hsound := sound_of_run h₂
      obtain ⟨rnd, hout⟩ := (paced_of_run hsafe h₂).exists_onPressed_returns hsteady hsound U hi₂
        hm₂ (hsteady.fresh hs₂).2.2.1
      have hstep : step U names f₂ (.event (.resume i rnd)) =
          some { f₂ with session := { f₂.session with
            quiz := (Quiz.onPressed U rnd f₂.session.quiz).state
            pending := f₂.session.pending.eraseIdx i } } :=
        step_resume (by rw [Session.step, if_pos hi₂, hp₂])
      refine ⟨_, _, (hrun₁.append hrun₂).snoc hstep, ⟨_, h₂.snoc hstep⟩,
        (Quiz.alive_onPressed U rnd hm₂).mounted, hout, ?_, ?_⟩
      · change (Quiz.onPressed U rnd f₂.session.quiz).state.start = .next
        rw [hsteady.onPressed_eq hsound U rnd hm₂]
        exact (Quiz.task_framed U rnd _).start
      · exact (hsteady.onPressed_images hsound U rnd).trans himg₂

/-- **The timer alone brings a session to its end.**  Over a list no path of which makes `task`
throw, in every session in which a handler of the button has been carried out and the list of paths
is there, while the screen is mounted and no handler is inside the redraw loop: exactly as many
ticks as are left lead to the result, with the score reached so far. -/
theorem exists_ticks_of_started (hn : 1 ≤ names.length)
    (hsafe : names.length = 1 ∨ ∀ p ∈ names, Dealable p) (h : Run (step U names) {} tr f)
    (hm : f.session.quiz.mounted = true) (hi : f.session.quiz.inLoop = false)
    (hs : f.session.quiz.start = .next) (himg : f.session.quiz.images ≠ []) :
    ∃ tr' f', Run (step U names) f tr' f' ∧ (∀ m ∈ tr', ∃ rnd, m.event = .event (.tick rnd)) ∧
      tr'.length = Quiz.timeLeft names.length f.session.quiz ∧
      f'.session.quiz.pushed =
        [⟨intToString f.session.quiz.obtScore, intToString names.length⟩] := by
  have hstarted : Started U names f :=
    ⟨⟨tr, h⟩, hm, hi, hs, (steady_of_run h).images.resolve_left himg⟩
  obtain ⟨tr', f', hrun, hev, hlen, -, hpushed⟩ := hstarted.exists_ticks hn hsafe
  exact ⟨tr', f', hrun, hev, hlen, hpushed⟩

/-- **Every session can be brought to its end.**  Over a list no path of which makes `task` throw,
from every state of every session, whatever has been pressed, tapped and resumed in whatever order:
as long as the list is stored, the screen is mounted and no handler is inside the redraw loop, there
is a way to go on after which the screen has been left with a result out of the number of paths. -/
theorem exists_result_of_mounted (hn : 1 ≤ names.length)
    (hsafe : names.length = 1 ∨ ∀ p ∈ names, Dealable p) (h : Run (step U names) {} tr f)
    (hst : f.session.stored = true) (hm : f.session.quiz.mounted = true)
    (hi : f.session.quiz.inLoop = false) :
    ∃ tr' f' obt, Run (step U names) f tr' f' ∧ f'.session.quiz.mounted = true ∧
      f'.session.quiz.pushed = [⟨obt, intToString names.length⟩] := by
  obtain ⟨tr₁, f₁, hrun₁, hstarted⟩ := exists_started hn hsafe h hst hm hi
  obtain ⟨tr₂, f₂, hrun₂, -, -, hm₂, hpushed⟩ := hstarted.exists_ticks hn hsafe
  exact ⟨tr₁ ++ tr₂, f₂, _, hrun₁.append hrun₂, hm₂, hpushed⟩

end

/-- Two logos.  Start is pressed twice on the first frame and both handlers are carried out, so the
second logo is never dealt: the next tick shows the score `1`. -/
theorem exists_ticks_of_started_logoPath :
    ∃ tr f tr' f', Run (step .ascii [logoPath, logoPath]) {} tr f ∧
      Run (step .ascii [logoPath, logoPath]) f tr' f' ∧ tr'.length = 1 ∧
      f'.session.quiz.pushed = [⟨['1'], ['2']⟩] := by
  have hexec : (exec (step .ascii [logoPath, logoPath]) {}
      ([.event (.press (Quiz.onlyDraws 0)), .event (.press (Quiz.onlyDraws 0))] ++
        List.replicate 3 (.event (.resume 0 (Quiz.onlyDraws 0))) ++
        List.replicate 3 (.event (.resume 0 (Quiz.onlyDraws 1))))).map
        (fun f => ((f.session.quiz.inLoop, f.session.quiz.mounted, f.session.quiz.start),
          f.session.quiz.images, f.session.quiz.obtScore,
          Quiz.timeLeft 2 f.session.quiz)) =
      some ((false, true, .next), [logoPath, logoPath], 1, 1) := by
    decide
  obtain ⟨tr, f, hrun, hfields, -⟩ := exists_run_of_exec hexec
  simp only [Prod.mk.injEq] at hfields
  obtain ⟨⟨hi, hm, hs⟩, himg, hscore, hleft⟩ := hfields
  have hsafe : Quiz.Safe [logoPath, logoPath] :=
    Quiz.safe_of_wellFormed (by simpa using wellFormed_logoPath)
  obtain ⟨tr', f', hrun', -, hlen, hpushed⟩ :=
    exists_ticks_of_started (by decide) hsafe hrun hm hi hs (by simp [himg])
  exact ⟨tr, f, tr', f', hrun, hrun', hlen.trans hleft, by rw [hpushed, hscore]; decide⟩

/-- Two logos.  Start is pressed twice on the first frame and the first handler goes on while the
second one has dropped the list of paths, so the press is lost; the session can be brought to its
end all the same. -/
theorem exists_result_of_mounted_logoPath :
    ∃ tr f tr' f' obt, Run (step .ascii [logoPath, logoPath]) {} tr f ∧
      f.session.quiz.start = .next ∧ f.session.quiz.images = [] ∧
      Run (step .ascii [logoPath, logoPath]) f tr' f' ∧
      f'.session.quiz.pushed = [⟨obt, ['2']⟩] := by
  have hexec : (exec (step .ascii [logoPath, logoPath]) {}
      ([.event (.press (Quiz.onlyDraws 0)), .event (.resume 0 (Quiz.onlyDraws 0)),
        .event (.resume 0 (Quiz.onlyDraws 0)), .event (.press (Quiz.onlyDraws 0)),
        .event (.resume 0 (Quiz.onlyDraws 0))])).map
        (fun f => ((f.session.quiz.inLoop, f.session.quiz.mounted), f.session.quiz.start,
          f.session.quiz.images, f.session.stored)) =
      some ((false, true), .next, [], true) := by
    decide
  obtain ⟨tr, f, hrun, hfields, -⟩ := exists_run_of_exec hexec
  simp only [Prod.mk.injEq] at hfields
  obtain ⟨⟨hi, hm⟩, hs, himg, hst⟩ := hfields
  have hsafe : Quiz.Safe [logoPath, logoPath] :=
    Quiz.safe_of_wellFormed (by simpa using wellFormed_logoPath)
  obtain ⟨tr', f', obt, hrun', -, hpushed⟩ :=
    exists_result_of_mounted (by decide) hsafe hrun hst hm hi
  exact ⟨tr, f, tr', f', obt, hrun, hs, himg, hrun', hpushed⟩

end Frame

end LogoGuess
