/-
**What becomes of a game in which `task` throws.**

A call of `task` records the drawn index before it takes the path apart, and advances `loop_count`
only after that.  So a logo on which the call throws is used up without being counted, and from
then on the game is ahead of its own counter: it never notices that the last index has been drawn,
and asks for another one when there is none.

Main definitions:

* `LogoGuess.Quiz.Recovers` — the game survives its throws: every call of `task` has an index to
  draw, and the end can be reached from every state.

Main results:

* `LogoGuess.Quiz.Going.exists_timeout` — from every state of a game that is not over, the timer
  leads to a call of `task`;
* `LogoGuess.Quiz.Going.exists_end` — over a safe list the end can be reached from every state;
* `LogoGuess.Quiz.Going.exists_full` — once a draw has gone uncounted, a call with every index
  drawn can be reached;
* `LogoGuess.Quiz.recovers_iff_safe` — **the game survives exactly over the lists on which nothing
  throws**.
-/

import LogoGuess.QuizDraw

set_option relaxedAutoImplicit false
set_option autoImplicit false

namespace LogoGuess

namespace Quiz

open Dart EventLoop Guessing

/-- **The game survives its throws**: in every run every call of `task` finds an index that has not
been drawn, and from every state between two events the end of the game can be reached. -/
def Recovers (U : CaseMap) (names : List Str) : Prop :=
  ∀ tr s, Play U names tr s → (∀ c ∈ s.calls, ∃ k < names.length, k ∉ c.repeated) ∧
    (tr ≠ [] → s.inLoop = false →
      ∃ tr' s', Run (step U names) s tr' s' ∧ s'.ended = true)

section

variable {U : CaseMap} {names : List Str} {s s' : Quiz} {tr : List (Move Quiz Event)}

/-! ### The timer leads to a call of `task` -/

/-- The state of a game that goes on: Start has been pressed, the game is not over and no handler
is inside the redraw loop. -/
structure Going (U : CaseMap) (names : List Str) (tr : List (Move Quiz Event)) (s : Quiz) :
    Prop where
  play : Play U names tr s
  started : tr ≠ []
  ended : s.ended = false
  inLoop : s.inLoop = false

theorem Going.core (hn : 0 < names.length) (h : Going U names tr s) :
    Core names s ∧ Clock s := by
  rcases core_of_play hn h.play with ⟨htr, -⟩ | ⟨-, hcore⟩
  · exact absurd htr h.started
  · exact hcore

/-- While the game goes on, the timer is live. -/
theorem Going.live (hn : 0 < names.length) (h : Going U names tr s) : s.timers ≠ [] := by
  exact (h.core hn).1.timers_ne_nil h.ended

theorem Going.tick (hn : 0 < names.length) (h : Going U names tr s) (rnd : Rand) :
    ∃ s', step U names s (.tick rnd) = some s' ∧ Effect U names s (.tick rnd) s' := by
  have hstep : step U names s (.tick rnd) = some (Quiz.tick U rnd s).state :=
    if_pos ⟨h.inLoop, h.live hn⟩
  exact ⟨_, hstep, effect_of_step hn (Or.inr (h.core hn).1) hstep⟩

/-- Counting down to zero: nothing else changes. -/
theorem Going.exists_zero (hn : 0 < names.length) (rnd : Rand) :
    ∀ {s : Quiz} {tr : List (Move Quiz Event)}, Going U names tr s →
      ∃ tr' s', Run (step U names) s tr' s' ∧ Going U names (tr ++ tr') s' ∧ s'.timeinmin = 0 ∧
        s'.repeated = s.repeated ∧ s'.loopCount = s.loopCount := by
  intro s
  induction hm : s.timeinmin generalizing s with
  | zero =>
      intro tr h
      exact ⟨[], s, .nil, by simpa using h, hm, rfl, rfl⟩
  | succ m ih =>
      intro tr h
      have hstep : step U names s (.tick rnd) = some s.counted :=
        (h.core hn).1.step_tick hn h.ended h.inLoop (by omega) rnd
      have hnext : Going U names (tr ++ [⟨s, .tick rnd, s.counted⟩]) s.counted :=
        ⟨h.play.snoc hstep, by simp, h.ended, h.inLoop⟩
      have hm' : s.counted.timeinmin = m := by
        change s.timeinmin - 1 = m
        omega
      obtain ⟨tr', s', hrun, hgo, hzero, hrep, hloop⟩ := ih hm' hnext
      refine ⟨_, s', (Run.single hstep).append hrun, ?_, hzero, hrep, hloop⟩
      rwa [← List.append_assoc]

/-- The timer has led from `s` to a call of `task` in `s₀`, which ended as `o`, and left `s'`. -/
structure TimedOut (U : CaseMap) (names : List Str) (rnd : Rand) (s s₀ : Quiz)
    (o : Outcome Cut Quiz) (s' : Quiz) : Prop where
  called : Called names s₀
  found : s₀.repeated = s.repeated ∧ s₀.loopCount = s.loopCount
  result : TaskResult U rnd s₀ o
  repeated : s'.repeated = o.state.repeated
  ended : s'.ended = o.state.ended
  inLoop : s'.inLoop = o.state.inLoop
  loop : s'.loopCount = o.state.loopCount
  calls : s'.calls = o.state.calls

/-- **The timer leads to a call of `task`**, whatever the random sources answer then. -/
theorem Going.exists_timeout (hn : 0 < names.length) (h : Going U names tr s) (rnd : Rand) :
    ∃ tr' s₀ o s', Run (step U names) s tr' s' ∧ Play U names (tr ++ tr') s' ∧
      TimedOut U names rnd s s₀ o s' := by
  obtain ⟨tr₁, s₁, hrun, hgo, hzero, hfound⟩ := h.exists_zero hn rnd
  obtain ⟨hcore, hclock⟩ := hgo.core hn
  have hcalled := hcore.called_expired hclock (hgo.live hn) hzero hgo.inLoop
  obtain ⟨s', hstep, he⟩ := hgo.tick hn rnd
  have hplay := hgo.play.snoc hstep
  rw [List.append_assoc] at hplay
  refine ⟨tr₁ ++ [⟨s₁, .tick rnd, s'⟩], { s₁ with loaded := false }, ?_⟩
  cases he with
  | count _ ht _ => omega
  | finish _ ht _ => omega
  | expireCut _ _ hr =>
      exact ⟨_, _, hrun.snoc hstep, hplay, hcalled, hfound, hr, rfl, rfl, rfl, rfl, rfl⟩
  | expire _ _ hr _ =>
      exact ⟨_, _, hrun.snoc hstep, hplay, hcalled, hfound, hr, rfl, rfl, rfl, rfl, rfl⟩
  | expireEnd _ _ hr _ =>
      exact ⟨_, _, hrun.snoc hstep, hplay, hcalled, hfound, hr, rfl, rfl, rfl, rfl, rfl⟩

/-- With sources that answer `k`, an index that has not been drawn, `task` leaves the redraw
loop. -/
theorem TaskResult.of_onlyDraws {k : ℕ} {o : Outcome Cut Quiz} (hk : k < s.images.length)
    (hnew : k ∉ s.repeated) (h : TaskResult U (onlyDraws k) s o) :
    o.state.repeated = s.repeated ++ [k] ∧ o.state.inLoop = s.inLoop := by
  have hrep : ∀ {x : ℕ}, Fresh (onlyDraws k) s x → s.repeated ++ [x] = s.repeated ++ [k] :=
    fun hx => by rw [hx.eq_of_onlyDraws hk]
  cases h with
  | drawing hall =>
      have hin := hall k (List.mem_singleton_self k)
      rw [Nat.mod_eq_of_lt hk] at hin
      exact absurd hin hnew
  | unread hx => exact ⟨hrep hx, rfl⟩
  | misfit hx => exact ⟨hrep hx, rfl⟩
  | dealt hx => exact ⟨hrep hx, rfl⟩
  | ending hx => exact ⟨hrep hx, rfl⟩

/-- **A timeout draws a given index**, if it has not been drawn before. -/
theorem Going.exists_draw (hn : 0 < names.length) (h : Going U names tr s) {k : ℕ}
    (hk : k < names.length) (hnew : k ∉ s.repeated) :
    ∃ tr' s₀ o s', Run (step U names) s tr' s' ∧ TimedOut U names (onlyDraws k) s s₀ o s' ∧
      s'.repeated = s.repeated ++ [k] ∧ (s'.ended = false → Going U names (tr ++ tr') s') := by
  obtain ⟨tr', s₀, o, s', hrun, hplay, ht⟩ := h.exists_timeout hn (onlyDraws k)
  obtain ⟨hrep, hin⟩ := ht.result.of_onlyDraws (by rw [ht.called.images]; exact hk)
    (by rw [ht.found.1]; exact hnew)
  refine ⟨tr', s₀, o, s', hrun, ht, by rw [ht.repeated, hrep, ht.found.1], ?_⟩
  intro he
  exact ⟨hplay, by simp [h.started], he, by rw [ht.inLoop, hin, ht.called.inLoop]⟩

/-! ### Without throws the end can be reached -/

theorem Going.exists_end (hn : 0 < names.length) (hsafe : Safe names) :
    ∀ {s : Quiz} {tr : List (Move Quiz Event)}, Going U names tr s →
      ∃ tr' s', Run (step U names) s tr' s' ∧ s'.ended = true := by
  intro s
  -- every timeout draws one more index
  induction hm : names.length - s.repeated.length using Nat.strong_induction_on generalizing s with
  | _ m ih =>
      intro tr h
      have heven := even_of_play hn hsafe h.play
      have hlt : s.repeated.length < names.length := by
        have := heven.bound
        rw [heven.dealt h.ended]
        omega
      obtain ⟨k, hk, hnew⟩ := exists_fresh hlt
      obtain ⟨tr₁, s₀, o, s₁, hrun, -, hrep, hgo⟩ := h.exists_draw hn hk hnew
      cases he : s₁.ended with
      | true => exact ⟨tr₁, s₁, hrun, he⟩
      | false =>
          have hlen : s₁.repeated.length = s.repeated.length + 1 := by
            rw [hrep, List.length_append, List.length_singleton]
          obtain ⟨tr₂, s₂, hrun₂, he₂⟩ := ih _ (by omega) rfl (hgo he)
          exact ⟨_, s₂, hrun.append hrun₂, he₂⟩

/-! ### With a throw the draws run out -/

/-- A game that is ahead of its counter does not end, and uses up all the indices. -/
theorem Going.exists_full (hn : 0 < names.length) :
    ∀ {s : Quiz} {tr : List (Move Quiz Event)}, Going U names tr s →
      s.loopCount < s.repeated.length →
      ∃ tr' s', Going U names tr' s' ∧ s'.repeated.length = names.length := by
  intro s
  induction hm : names.length - s.repeated.length using Nat.strong_induction_on generalizing s with
  | _ m ih =>
      intro tr h hlag
      have hcore := (h.core hn).1
      have hle : s.repeated.length ≤ names.length := by
        have hsub : s.repeated ⊆ List.range names.length :=
          fun k hk => List.mem_range.2 (hcore.lt k hk)
        simpa using hcore.nodup.length_le_of_subset hsub
      rcases Nat.eq_or_lt_of_le hle with heq | hlt
      · exact ⟨tr, s, h, heq⟩
      · obtain ⟨k, hk, hnew⟩ := exists_fresh hlt
        obtain ⟨tr₁, s₀, o, s₁, -, ht, hrep, hgo⟩ := h.exists_draw hn hk hnew
        have hlen : s₁.repeated.length = s.repeated.length + 1 := by
          rw [hrep, List.length_append, List.length_singleton]
        have hfound := ht.found.2
        have hended := ht.called.ended
        -- the counter is too small for the game to end
        have hgoes : o.state.ended = false ∧ o.state.loopCount ≤ s₀.loopCount + 1 := by
          cases ht.result with
          | drawing => exact ⟨hended, Nat.le_succ _⟩
          | unread => exact ⟨hended, Nat.le_succ _⟩
          | misfit => exact ⟨hended, Nat.le_succ _⟩
          | dealt => exact ⟨hended, Nat.le_refl _⟩
          | ending _ hloop =>
              rw [ht.called.images] at hloop
              omega
        have hlag' : s₁.loopCount < s₁.repeated.length := by
          have := hgoes.2
          rw [ht.loop]
          omega
        exact ih _ (by omega) rfl (hgo (by rw [ht.ended, hgoes.1])) hlag'

/-- The first call of `task` may draw a path that is not dealable: it is used up uncounted. -/
theorem exists_lagging (U : CaseMap) (hn : 0 < names.length) (hsafe : ¬ Safe names) :
    ∃ tr s, Going U names tr s ∧ s.loopCount < s.repeated.length := by
  rw [Safe, not_or] at hsafe
  obtain ⟨hone, hall⟩ := hsafe
  push Not at hall
  obtain ⟨p, hp, hbad⟩ := hall
  obtain ⟨k, hk⟩ := List.mem_iff_getElem?.1 hp
  have hlt : k < names.length := (List.getElem?_eq_some_iff.1 hk).1
  have hstep : step U names {} (.start (onlyDraws k)) =
      some (pressStart U names (onlyDraws k) {}).state := by
    rw [step]
    exact if_pos ⟨rfl, rfl⟩
  obtain ⟨rnd, o, hev, hs, hr⟩ := start_of_fresh hn hstep
  obtain rfl : onlyDraws k = rnd := Event.start.inj hev
  have hlag : o.state.ended = false ∧ o.state.inLoop = false ∧
      o.state.loopCount < o.state.repeated.length := by
    cases hr with
    | drawing hall => exact absurd (hall k (List.mem_singleton_self k)) List.not_mem_nil
    | unread => exact ⟨rfl, rfl, Nat.zero_lt_one⟩
    | misfit => exact ⟨rfl, rfl, Nat.zero_lt_one⟩
    | dealt hx _ hp' ht hlen =>
        -- the only index that can be drawn is that of the bad path
        rw [hx.eq_of_onlyDraws hlt] at hp'
        obtain rfl := Option.some_inj.1 (hk.symm.trans hp')
        exact absurd (dealable_iff.2 ⟨_, ht, hlen⟩) hbad
    | ending _ hloop =>
        have hzero : ¬ 0 < names.length - 1 := hloop
        omega
  rw [hs] at hstep
  exact ⟨_, _, ⟨Run.single hstep, by simp, hlag.1, hlag.2.1⟩, hlag.2.2⟩

/-! ### Exactly when the game survives -/

/-- **The game survives its throws exactly when there are none to survive**: when the list has a
single path or when every path is dealable. -/
theorem recovers_iff_safe (U : CaseMap) (hn : 1 ≤ names.length) :
    Recovers U names ↔ names.length = 1 ∨ ∀ p ∈ names, Dealable p := by
  constructor
  · intro hrec
    by_contra hsafe
    obtain ⟨tr, s, h, hlag⟩ := exists_lagging U hn hsafe
    obtain ⟨tr₁, s₁, h₁, hfull⟩ := h.exists_full hn hlag
    -- one more timeout calls `task` when every index has been drawn
    obtain ⟨tr₂, s₀, o, s₂, -, hplay, ht⟩ := h₁.exists_timeout hn (onlyDraws 0)
    have hcall : (⟨s₀.repeated, s₀.ended⟩ : Call) ∈ s₂.calls := by
      rw [ht.calls, ht.result.framed.calls]
      exact List.mem_append_right _ (List.mem_singleton_self _)
    obtain ⟨k, hk, hnew⟩ := (hrec _ _ hplay).1 _ hcall
    have hcore := (h₁.core hn).1
    have hperm := perm_range hcore.nodup hcore.lt hfull
    rw [ht.found.1] at hnew
    exact hnew (hperm.mem_iff.2 (List.mem_range.2 hk))
  · intro hsafe tr s h
    refine ⟨fun c hc => (calls_of_play hn hsafe h c hc).1, ?_⟩
    intro hne hi
    cases he : s.ended with
    | true => exact ⟨[], s, .nil, he⟩
    | false => exact Going.exists_end hn hsafe ⟨h, hne, he, hi⟩

/-- Over two logos every game recovers; with an entry for a directory among the paths not every one
does. -/
theorem recovers_iff_safe_logoPath :
    Recovers .ascii [logoPath, logoPath] ∧ ¬ Recovers .ascii [folderPath, logoPath] := by
  refine ⟨(recovers_iff_safe .ascii (by decide)).2 (Or.inr (by decide)), ?_⟩
  intro hrec
  have hsafe := (recovers_iff_safe .ascii (by decide)).1 hrec
  exact absurd hsafe (by decide)

/-- An archive with an entry for a directory: Start draws that entry and throws, the timer deals the
logo, and solving it calls `task` when both indices have been drawn. -/
theorem not_recovers_folderPath : ¬ Recovers .ascii [folderPath, logoPath] := by
  intro hrec
  have hexec : (exec (step .ascii [folderPath, logoPath]) {}
      ([.start (onlyDraws 0)] ++ List.replicate 31 (.tick (onlyDraws 1)) ++
        [.tap .r1 0 (onlyDraws 0)])).map (fun s => s.calls.map Call.repeated) =
      some [[], [0], [0, 1]] := by
    decide
  obtain ⟨tr, s, hrun, hcalls, -⟩ := exists_run_of_exec hexec
  have hmem : [0, 1] ∈ s.calls.map Call.repeated := by
    rw [hcalls]
    decide
  obtain ⟨c, hc, hrep⟩ := List.mem_map.1 hmem
  obtain ⟨k, hk, hnew⟩ := (hrec tr s hrun).1 c hc
  have hk' : k < 2 := hk
  rw [hrep] at hnew
  have hne : k ≠ 0 ∧ k ≠ 1 := by simpa using hnew
  omega

end

end Quiz

end LogoGuess
