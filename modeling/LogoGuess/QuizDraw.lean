/-
**Drawing the logos.**

`task` draws an index that has not been drawn before and deals its logo, until the counter
`loop_count` says that all logos but one have been dealt; the index drawn then ends the game.  The
counter is advanced after the statements that can throw, so this works as intended as long as none
of them does.  That is the case when every path is dealable, and also when there is a single path,
which is never looked at.

Main definitions:

* `LogoGuess.Quiz.dealtIn` — the logos dealt in the moves of a run, in order;
* `LogoGuess.Quiz.Safe` — the lists of paths on which no call of `task` throws;
* `LogoGuess.Quiz.Even` — the counters are in step with the draws.

Main results:

* `LogoGuess.Quiz.even_of_play` — the counters stay in step in every run over a safe list;
* `LogoGuess.Quiz.draws_without_replacement` — **the draws of a game**: without repetition, always
  with an index left to draw, and ending with the last index.
-/

import LogoGuess.QuizInvariant

set_option relaxedAutoImplicit false
set_option autoImplicit false

namespace LogoGuess

namespace Quiz

open Dart EventLoop Guessing

/-! ### The counters -/

/-- The logo that a move puts on display: a move deals a logo when it advances `loop_count`. -/
def dealtBy (m : Move Quiz Event) : Option ℕ :=
  if m.post.loopCount = m.pre.loopCount + 1 then some m.post.picCount else none

/-- **The logos dealt in a run**, in order. -/
def dealtIn (tr : List (Move Quiz Event)) : List ℕ := tr.filterMap dealtBy

theorem dealtIn_concat (tr : List (Move Quiz Event)) (m : Move Quiz Event) :
    dealtIn (tr ++ [m]) = dealtIn tr ++ (dealtBy m).toList :=
  filterMap_concat dealtBy tr m

/-- A move that leaves `loop_count` alone deals nothing. -/
theorem dealtBy_eq_none {m : Move Quiz Event} (h : m.post.loopCount = m.pre.loopCount) :
    dealtBy m = none := by
  rw [dealtBy, if_neg (by omega)]

/-- A state that has not advanced `loop_count` is not one that has. -/
theorem absurd_of_loopCount {s s' : Quiz} {P : Prop} (h : s'.loopCount = s.loopCount)
    (hl : s'.loopCount = s.loopCount + 1) : P := by
  omega

/-- A call of `task` that advances `loop_count` has dealt a logo. -/
theorem TaskResult.exists_dealt {U : CaseMap} {rnd : Rand} {s : Quiz} {o : Outcome Cut Quiz}
    (hr : TaskResult U rnd s o) (hl : o.state.loopCount = s.loopCount + 1) :
    ∃ k p t, o = .done (s.dealt U rnd k p t) ∧ s.images[k]? = some p ∧ titleOf p = some t ∧
      (answer t).length ≤ 15 := by
  cases hr with
  | drawing => exact absurd_of_loopCount rfl hl
  | unread => exact absurd_of_loopCount rfl hl
  | misfit => exact absurd_of_loopCount rfl hl
  | ending => exact absurd_of_loopCount rfl hl
  | @dealt k p t hk hlt hp ht hlen => exact ⟨k, p, t, rfl, hp, ht, hlen⟩

/-- A list of paths on which no call of `task` throws: a single path is never looked at. -/
def Safe (names : List Str) : Prop := names.length = 1 ∨ ∀ p ∈ names, Dealable p

/-- **The counters are in step with the draws**; `d` is the list of the logos dealt so far. -/
structure Even (names : List Str) (d : List ℕ) (s : Quiz) : Prop where
  /-- Until the game is over every drawn logo has been dealt. -/
  dealt : s.ended = false → s.repeated = d
  /-- The last index ends the game and is not dealt. -/
  last : s.ended = true → ∃ k, s.repeated = d ++ [k] ∧ s.repeated.length = names.length
  loop : s.loopCount = d.length
  bound : d.length ≤ names.length - 1
  /-- Whenever `task` was called, not all indices had been drawn. -/
  free : ∀ c ∈ s.calls, c.repeated.length < names.length

section

variable {U : CaseMap} {names : List Str} {s s' : Quiz} {d : List ℕ}

/-- On a safe list a call of `task` that gets as far as looking at a path does not throw. -/
theorem Safe.dealable (h : Safe names) {k : ℕ} {p : Str} (hlt : s.loopCount < names.length - 1)
    (hp : names[k]? = some p) : ∃ t, titleOf p = some t ∧ (answer t).length ≤ 15 := by
  rcases h with h | h
  · omega
  · exact dealable_iff.1 (h p (List.mem_of_getElem? hp))

theorem safe_of_wellFormed (hw : ∀ p ∈ names, WellFormed p) : Safe names :=
  Or.inr fun p hp => (hw p hp).dealable

/-- **A call of `task` keeps the counters in step.** -/
theorem Even.task (hn : 0 < names.length) (hsafe : Safe names) (hc : Called names s)
    (h : Even names d s) {rnd : Rand} {o : Outcome Cut Quiz} (hr : TaskResult U rnd s o) :
    Even names (d ++ (dealtBy ⟨s, .tick rnd, o.state⟩).toList) o.state := by
  have hd : s.repeated = d := h.dealt hc.ended
  have hbound := h.bound
  have hloop := h.loop
  -- the new entry of the log was made with `d` as the list of drawn indices
  have hfree : ∀ c ∈ s.calls ++ [⟨s.repeated, s.ended⟩], c.repeated.length < names.length := by
    intro c hcall
    rcases List.mem_append.1 hcall with hcall | hcall
    · exact h.free c hcall
    · rw [List.mem_singleton.1 hcall, hd]
      change d.length < names.length
      omega
  cases hr with
  | @drawing k hall =>
      have hnone : dealtBy ⟨s, .tick rnd, { s.clear with picCount := k, inLoop := true }⟩ = none :=
        dealtBy_eq_none rfl
      simp only [Outcome.state_stop, hnone, Option.toList_none, List.append_nil]
      exact ⟨h.dealt, h.last, h.loop, h.bound, hfree⟩
  | unread hk hlt hp ht =>
      rw [hc.images] at hlt hp
      obtain ⟨t, ht', -⟩ := hsafe.dealable hlt hp
      exact absurd (ht.symm.trans ht') (by simp)
  | misfit hk hlt hp ht hlen =>
      rw [hc.images] at hlt hp
      obtain ⟨t', ht', hlen'⟩ := hsafe.dealable hlt hp
      obtain rfl := Option.some_inj.1 (ht.symm.trans ht')
      omega
  | @dealt k p t hk hlt hp ht hlen =>
      have hsome : dealtBy ⟨s, .tick rnd, s.dealt U rnd k p t⟩ = some k := if_pos rfl
      rw [hc.images] at hlt
      simp only [Outcome.state_done, hsome, Option.toList_some]
      refine ⟨?_, fun he => absurd (hc.ended.symm.trans he) (by simp), ?_, ?_, hfree⟩
      · intro _
        change s.repeated ++ [k] = d ++ [k]
        rw [hd]
      · change s.loopCount + 1 = (d ++ [k]).length
        simp [hloop]
      · simp only [List.length_append, List.length_singleton]
        omega
  | @ending k hk hlt =>
      have hnone : dealtBy ⟨s, .tick rnd, { s.drawn k with ended := true }⟩ = none :=
        dealtBy_eq_none rfl
      rw [hc.images] at hlt
      simp only [Outcome.state_done, hnone, Option.toList_none, List.append_nil]
      refine ⟨fun he => absurd he (by simp), fun _ => ⟨k, ?_, ?_⟩, h.loop, h.bound, hfree⟩
      · change s.repeated ++ [k] = d ++ [k]
        rw [hd]
      · change (s.repeated ++ [k]).length = names.length
        rw [hd, List.length_append, List.length_singleton]
        omega

/-- Resetting the clock and leaving the screen do not touch the counters. -/
theorem Even.reset (h : Even names d s) : Even names d { s with timeinmin := 30 } := { h with }

theorem Even.left (h : Even names d s) : Even names d s.left := { h with }

/-- **Every effect keeps the counters in step.** -/
theorem Effect.even (hn : 0 < names.length) (hsafe : Safe names) {e : Event} (h : Core names s)
    (hclock : Clock s) (hi : s.inLoop = false) (hd : Even names d s)
    (he : Effect U names s e s') : Even names (d ++ (dealtBy ⟨s, e, s'⟩).toList) s' := by
  have hsame : ∀ {s'' : Quiz}, s''.loopCount = s.loopCount → Even names d s'' →
      Even names (d ++ (dealtBy ⟨s, e, s''⟩).toList) s'' := by
    intro s'' hl hs''
    rwa [dealtBy_eq_none hl, Option.toList_none, List.append_nil]
  cases he with
  | start hstart _ => exact absurd (hstart.symm.trans h.started) (by simp)
  | idle _ => exact hsame rfl { hd with }
  | hit _ _ _ => exact hsame rfl { hd with }
  | @solved ρ _ _ c _ hcard _ _ hr =>
      have hend := h.ended_of_card hcard
      have hp : Even names d (s.played c ρ).credited := { hd with }
      exact hp.task hn hsafe ((h.played hend c ρ).called_credited hend hi) hr
  | @gift _ _ c _ hcard _ _ hr =>
      have hcard' : (s.row .r1)[_]? = some c := hcard
      have hp : Even names d { s with j := [] }.credited := { hd with }
      exact hp.task hn hsafe (h.idle.called_credited (h.ended_of_card hcard') hi) hr
  | count _ _ _ => exact hsame rfl { hd with }
  | finish _ _ _ => exact hsame rfl { hd with }
  | expireCut hl ht hr =>
      have hp : Even names d { s with loaded := false } := { hd with }
      exact hp.task hn hsafe (h.called_expired hclock hl ht hi) hr
  | expire hl ht hr hend =>
      have hp : Even names d { s with loaded := false } := { hd with }
      exact (hp.task hn hsafe (h.called_expired hclock hl ht hi) hr).reset
  | expireEnd hl ht hr hend =>
      have hp : Even names d { s with loaded := false } := { hd with }
      exact (hp.task hn hsafe (h.called_expired hclock hl ht hi) hr).reset.left

/-- On a fresh screen nothing has been drawn. -/
theorem even_begun (names : List Str) : Even names [] (({} : Quiz).begun names) where
  dealt _ := rfl
  last he := absurd he (by simp [begun])
  loop := rfl
  bound := Nat.zero_le _
  free _ hc := absurd hc List.not_mem_nil

/-- **The counters stay in step in every run over a safe list.** -/
theorem even_of_play (hn : 0 < names.length) (hsafe : Safe names) {tr : List (Move Quiz Event)}
    (h : Play U names tr s) : Even names (dealtIn tr) s := by
  refine Run.invariant (I := fun tr s => Even names (dealtIn tr) s) ?_ ?_ h
  · exact { even_begun names with }
  · intro tr s e s' hrun hd hs
    rw [dealtIn_concat]
    rcases core_of_play hn hrun with ⟨rfl, rfl⟩ | ⟨-, hcore, hclock⟩
    · obtain ⟨rnd, o, rfl, rfl, hr⟩ := start_of_fresh hn hs
      exact (even_begun names).task hn hsafe (called_started names) hr
    · exact Effect.even hn hsafe hcore hclock (inLoop_of_step hs) hd
        (effect_of_step hn (Or.inr hcore) hs)

/-! ### The draws of a game -/

/-- At every call of `task` some index is left to draw, and the game is not over. -/
theorem calls_of_play (hn : 0 < names.length) (hsafe : Safe names) {tr : List (Move Quiz Event)}
    (h : Play U names tr s) :
    ∀ c ∈ s.calls, (∃ k < names.length, k ∉ c.repeated) ∧ c.ended = false := by
  intro c hc
  refine ⟨exists_fresh ((even_of_play hn hsafe h).free c hc), ?_⟩
  rcases core_of_play hn h with ⟨-, rfl⟩ | ⟨-, hcore, -⟩
  · exact absurd hc List.not_mem_nil
  · exact hcore.callsOpen c hc

/-- **The draws of a game.**  In every state of every run: the drawn indices are pairwise distinct
and in range; whenever `task` was called some index was left to draw and the game was not over;
until the end `loop_count`, `count` and the number of draws agree and are below the number of
paths; the game is over exactly when `task` has been called once for every path and the last call
is not inside its redraw loop, and then every index has been drawn and all but one of them have
been dealt. -/
theorem draws_without_replacement (hn : 1 ≤ names.length) (hw : ∀ p ∈ names, WellFormed p)
    {tr : List (Move Quiz Event)} (h : Play U names tr s) :
    s.repeated.Nodup ∧ (∀ k ∈ s.repeated, k < names.length) ∧
      (∀ c ∈ s.calls, (∃ k < names.length, k ∉ c.repeated) ∧ c.ended = false) ∧
      (s.ended = false → s.loopCount = s.repeated.length ∧ s.count = s.repeated.length ∧
        s.repeated.length ≤ names.length - 1) ∧
      (s.ended = true ↔ s.calls.length = names.length ∧ s.inLoop = false) ∧
      (s.ended = true → s.repeated.Perm (List.range names.length) ∧ (dealtIn tr).Nodup ∧
        (dealtIn tr).length = names.length - 1 ∧ ∀ k ∈ dealtIn tr, k < names.length) := by
  have hsafe : Safe names := safe_of_wellFormed hw
  have heven := even_of_play hn hsafe h
  have hcalls := calls_of_play hn hsafe h
  have hbound := heven.bound
  rcases core_of_play hn h with ⟨rfl, rfl⟩ | ⟨-, hcore, -⟩
  · refine ⟨List.nodup_nil, by simp, hcalls, fun _ => ⟨rfl, rfl, Nat.zero_le _⟩, ?_, by simp⟩
    simp only [Bool.false_eq_true, List.length_nil, false_iff, not_and]
    omega
  · have hcount := hcore.count
    have hlog := hcore.calls
    refine ⟨hcore.nodup, hcore.lt, hcalls, ?_, ⟨?_, ?_⟩, ?_⟩
    · intro he
      rw [he] at hcount
      rw [heven.loop, heven.dealt he]
      rw [heven.dealt he] at hcount
      exact ⟨rfl, hcount, hbound⟩
    · intro he
      obtain ⟨-, -, -, hi⟩ := hcore.finished he
      obtain ⟨k, -, hlen⟩ := heven.last he
      rw [hi, hlen] at hlog
      exact ⟨hlog, hi⟩
    · intro hall
      by_contra he
      rw [hall.1, hall.2, heven.dealt (by simpa using he)] at hlog
      simp only [Bool.false_eq_true, if_false] at hlog
      omega
    · intro he
      obtain ⟨k, hk, hlen⟩ := heven.last he
      have hlen' : (dealtIn tr).length + 1 = names.length := by
        rw [← hlen, hk, List.length_append, List.length_singleton]
      refine ⟨perm_range hcore.nodup hcore.lt hlen, ?_, by omega, ?_⟩
      · exact (List.nodup_append.1 (hk ▸ hcore.nodup)).1
      · intro x hx
        exact hcore.lt x (by rw [hk]; exact List.mem_append_left _ hx)

/-- Two logos: Start deals the first one, and solving it ends the game. -/
theorem draws_without_replacement_logoPath :
    ∃ tr s, Play .ascii [logoPath, logoPath] tr s ∧ s.ended = true ∧
      s.repeated.Perm (List.range 2) := by
  have hexec : (exec (step .ascii [logoPath, logoPath]) {}
      [.start (onlyDraws 0), .tap .r1 0 (onlyDraws 1)]).map (·.ended) = some true := by
    decide
  obtain ⟨tr, s, hrun, hend, -⟩ := exists_run_of_exec hexec
  have h := draws_without_replacement (by decide) (by simpa using wellFormed_logoPath) hrun
  exact ⟨tr, s, hrun, hend, (h.2.2.2.2.2 hend).1⟩

end

end Quiz

end LogoGuess
