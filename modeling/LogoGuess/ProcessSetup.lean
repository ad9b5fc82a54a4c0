/-
**The setup screen of a process.**

In `LogoGuess.Process` the setup screen is one part of a state in which processes start and are
killed and other screens come and go.  `LogoGuess.Presses` is about this screen alone, and
`LogoGuess.Setup` about the same screen as long as Continue is pressed once.  This module connects
them: a history of processes does nothing to a setup screen but what the screen does alone, so what
holds of the screen alone holds of every download of a history.  It also shows what becomes of a
download that fails.

Main definitions:

* `LogoGuess.Process.SetupMove` — what an event of a process does to its setup screen;
* `LogoGuess.Process.Projected` — the setup screen and the latest download have been reached alone.

Main results:

* `LogoGuess.Process.setupMove_of_step` — every event does one of these things;
* `LogoGuess.Process.exists_setup_run` — **the setup screen of a process is the setup screen
  alone**;
* `LogoGuess.Process.stuck_of_threw` — **a download that has failed is the end of its process**.
-/

import LogoGuess.Process

set_option relaxedAutoImplicit false
set_option autoImplicit false

namespace LogoGuess

open Dart EventLoop

/-! ### A download that is over -/

namespace Setup

/-- Nothing is waited for any more after an exception. -/
theorem resume_of_threw {p : Prefs} {S : Setup} {f : Fault} (h : S.download = .threw f)
    (r : Reply) : resume p S r = none := by
  cases r <;> simp [resume, h]

/-- A download that has failed stays so. -/
theorem threw_of_step {p p' : Prefs} {S S' : Setup} {e : Event} {f : Fault}
    (h : S.download = .threw f) (hw : S.Wf p) (hs : step (p, S) e = some (p', S')) :
    S'.download = .threw f := by
  cases e with
  | directory path =>
      obtain ⟨-, heq⟩ := of_guard hs
      rw [← (Prod.mk.inj heq).2]
      exact h
  | press =>
      -- Continue is gone since it was pressed
      obtain ⟨hvis, -⟩ := of_guard hs
      exact absurd ((hw.waiting.1 hvis).symm.trans h) (by simp)
  | snapshot v =>
      obtain ⟨-, heq⟩ := of_guard hs
      rw [← (Prod.mk.inj heq).2]
      exact (download_retrieveurl S v).1.trans h
  | noSnapshot =>
      obtain ⟨-, heq⟩ := of_guard hs
      rw [← (Prod.mk.inj heq).2]
      exact h
  | reply r => exact absurd hs (by rw [step, resume_of_threw h]; simp)

end Setup

namespace Process

/-! ### What an event does to the setup screen -/

/-- **What an event does to the setup screen.** -/
inductive SetupMove (P : Process) (e : Event) (P' : Process) : Prop where
  /-- Nothing; and the preferences stay as they are until the download has come to its end, if the
  invariant holds. -/
  | same (hS : P'.app.setup = P.app.setup) (hl : P'.app.latest = P.app.latest)
      (hlater : P'.later = P.later) (hbuilt : P'.built = P.built)
      (hp : Durable P → ∀ S, P.app.setup = some S → S.download ≠ .returned →
        P'.app.prefs = P.app.prefs)
  /-- The process is killed. -/
  | killed (he : e = .kill) (hS : P'.app.setup = none) (hl : P'.app.latest = P.app.latest)
  /-- The splash screen goes, and there is no setup screen after it. -/
  | home (hsplash : P.splash = true) (hS : P'.app.setup = none)
      (hl : P'.app.latest = P.app.latest)
  /-- The splash screen goes, and there is a new setup screen after it. -/
  | shown (hsplash : P.splash = true) (hS : P'.app.setup = some {})
      (hl : P'.app.latest = P.app.latest) (hlater : P'.later = []) (hbuilt : P'.built = true)
  /-- An event of the setup screen. -/
  | event {S : Setup} {e' : Presses.Event} {st : Prefs × Presses} (he : e = .setup e')
      (hS : P.app.setup = some S) (hs : Presses.step (P.app.prefs, P.presses S) e' = some st)
      (hP : P' = P.tapped S e' st)

section

variable {P P' : Process} {e : Event} {tr tr' : List (Move Process Event)}

/-- A launch that goes on has no setup screen. -/
theorem setupMove_resume {st : Launch.Stage} (hl : P.launching = some st) :
    SetupMove P .resume (P.resume st) := by
  have hp : ∀ {P' : Process}, Durable P → ∀ S, P.app.setup = some S → S.download ≠ .returned →
      P'.app.prefs = P.app.prefs :=
    fun hd S hS _ => absurd ((hd.running hS).2.2.symm.trans hl) (by simp)
  cases st with
  | numberSet currentnumber =>
      rw [Process.resume]
      split <;> exact .same rfl rfl rfl rfl hp
  | _ => exact .same rfl rfl rfl rfl hp

/-- **Every event does one of these things to the setup screen.** -/
theorem setupMove_of_step (hs : step P e = some P') : SetupMove P e P' := by
  have hprefs : Durable P → ∀ S, P.app.setup = some S → S.download ≠ .returned →
      P.app.prefs = P.app.prefs := fun _ _ _ _ => rfl
  cases e with
  | launch =>
      obtain ⟨-, rfl⟩ := of_guard hs
      exact .same rfl rfl rfl rfl hprefs
  | resume =>
      obtain ⟨st, hl, rfl⟩ := Option.map_eq_some_iff.1 hs
      exact setupMove_resume hl
  | abort =>
      obtain ⟨-, -, rfl⟩ := Option.map_eq_some_iff.1 hs
      exact .same rfl rfl rfl rfl hprefs
  | splash =>
      obtain ⟨hsplash, rfl⟩ := of_guard hs
      rw [Process.shown]
      split
      · exact .shown hsplash rfl rfl rfl rfl
      · exact .home hsplash rfl rfl
  | kill =>
      obtain rfl := Option.some_inj.1 hs
      exact .killed rfl rfl rfl
  | next =>
      obtain ⟨-, rfl⟩ := of_guard hs
      exact .same rfl rfl rfl rfl hprefs
  | help =>
      obtain ⟨-, rfl⟩ := of_guard hs
      exact .same rfl rfl rfl rfl hprefs
  | go i =>
      obtain ⟨hdl, hi, rfl⟩ := Option.map_eq_some_iff.1 hs
      -- there are no handlers before the download has come to its end
      have hp : ∀ {P' : Process}, Durable P → ∀ S, P.app.setup = some S →
          S.download ≠ .returned → P'.app.prefs = P.app.prefs :=
        fun hd S hS hne => absurd ((hd.started (past_of_handler hi)).2.2.2 S hS) hne
      cases hdl <;> exact .same rfl rfl rfl rfl hp
  | fail i =>
      obtain ⟨-, rfl⟩ := of_guard hs
      exact .same rfl rfl rfl rfl hprefs
  | land =>
      obtain ⟨-, rfl⟩ := of_guard hs
      exact .same rfl rfl rfl rfl hprefs
  | store i =>
      obtain ⟨s, -, rfl⟩ := Option.map_eq_some_iff.1 hs
      exact .same rfl rfl rfl rfl hprefs
  | setup e =>
      obtain ⟨S, hS, hs⟩ := Option.bind_eq_some_iff.1 hs
      obtain ⟨st, hstep, rfl⟩ := Option.map_eq_some_iff.1 hs
      exact .event rfl hS hstep rfl
  | app e =>
      obtain ⟨hplain, hs⟩ := Option.ite_none_right_eq_some.1 hs
      obtain ⟨app, happ, rfl⟩ := Option.map_eq_some_iff.1 hs
      obtain ⟨routes, rfl, -⟩ := navigate_of_step hplain happ
      exact .same rfl rfl rfl rfl hprefs

/-! ### The setup screen alone -/

/-- **The setup screen and the latest download have been reached alone**; in an orderly history with
one press on Continue, and with the preferences of the process until the download has come to its
end. -/
structure Projected (tr : List (Move Process Event)) (P : Process) : Prop where
  setup : ∀ S, P.app.setup = some S → ∃ p₀ tr' p, Run Presses.step (p₀, {}) tr' (p, P.presses S) ∧
    (Orderly tr → (∀ m ∈ tr', m.pre.2.single m.event = true) ∧
      (S.download ≠ .returned → p = P.app.prefs))
  latest : ∀ S, P.app.latest = some S → S.download = .returned ∧
    ∃ p₀ tr' p T e, Run Presses.step (p₀, {}) tr' (p, T) ∧ T.view e = S ∧
      (Orderly tr → ∀ m ∈ tr', m.pre.2.single m.event = true)

/-- What has been reached without a move of the setup screen. -/
theorem Projected.latest_of_eq (h : Projected tr P) (hl : P'.app.latest = P.app.latest)
    (ho : Orderly tr' → Orderly tr) (S : Setup) (hS : P'.app.latest = some S) :
    S.download = .returned ∧ ∃ p₀ tr₁ p T e, Run Presses.step (p₀, {}) tr₁ (p, T) ∧
      T.view e = S ∧ (Orderly tr' → ∀ m ∈ tr₁, m.pre.2.single m.event = true) := by
  obtain ⟨hret, p₀, tr₁, p, T, e, hrun, hview, hsingle⟩ := h.latest S (hl ▸ hS)
  exact ⟨hret, p₀, tr₁, p, T, e, hrun, hview, fun ho' => hsingle (ho ho')⟩

/-- **An event of the setup screen keeps the projection.** -/
theorem Projected.tapped (h : Projected tr P) (hd : Orderly tr → Durable P) {S : Setup}
    {e : Presses.Event} {st : Prefs × Presses} (hS : P.app.setup = some S)
    (hs : Presses.step (P.app.prefs, P.presses S) e = some st)
    (ho : Orderly tr' → Orderly tr ∧ (P.presses S).single e = true) :
    Projected tr' (P.tapped S e st) := by
  obtain ⟨q, T⟩ := st
  obtain ⟨p₀, tr₁, p, hrun, hsame⟩ := h.setup S hS
  -- the same event on the screen alone
  obtain ⟨p', hstep⟩ := Presses.step_frame p hs
  have hrun' := hrun.snoc hstep
  have hsingle : Orderly tr' → ∀ m ∈ tr₁ ++ [(⟨(p, P.presses S), e, (p', T)⟩ : Move _ _)],
      m.pre.2.single m.event = true := by
    intro ho' m hm
    rcases List.mem_append.1 hm with hm | hm
    · exact (hsame (ho ho').1).1 m hm
    · rw [List.mem_singleton.1 hm]
      exact (ho ho').2
  constructor
  · intro S' hS'
    obtain rfl := Option.some_inj.1 hS'
    refine ⟨p₀, _, p', hrun', ?_⟩
    intro ho'
    refine ⟨hsingle ho', ?_⟩
    intro hne
    have hprefs : (P.tapped S e (q, T)).app.prefs = q := by
      change (App.withSetup _ _ q _).prefs = q
      rw [App.withSetup]
      split <;> rfl
    rw [hprefs]
    have hdur := hd (ho ho').1
    have hearly : S.download ≠ .returned := by
      rcases Presses.setup_of_step (hdur.wf S hS) hdur.alone (ho ho').2 hs with
        ⟨-, -, b, rfl⟩ | ⟨e', S', -, hstep', rfl⟩
      · exact hne
      · exact fun hret => hne ((Setup.kept_of_step (hdur.wf S hS) hstep').after hret).1
    rw [(hsame (ho ho').1).2 hearly, hs] at hstep
    exact (Prod.mk.inj (Option.some_inj.1 hstep)).1.symm
  · intro S' hS'
    change (App.withSetup _ _ q _).latest = some S' at hS'
    rw [App.withSetup] at hS'
    split at hS'
    · rename_i hend
      obtain rfl := Option.some_inj.1 hS'
      exact ⟨hend.2, p₀, _, p', T, e, hrun', rfl, hsingle⟩
    · exact h.latest_of_eq rfl (fun ho' => (ho ho').1) S' hS'

/-- **Every event keeps the projection.** -/
theorem Projected.step (h : Projected tr P) (hd : Orderly tr → Durable P)
    (hs : Process.step P e = some P') : Projected (tr ++ [⟨P, e, P'⟩]) P' := by
  have ho : Orderly (tr ++ [⟨P, e, P'⟩]) → Orderly tr :=
    fun ho m hm => ho m (List.mem_append_left _ hm)
  cases setupMove_of_step hs with
  | same hS hl hlater hbuilt hp =>
      refine ⟨?_, h.latest_of_eq hl ho⟩
      intro S hS'
      rw [hS] at hS'
      obtain ⟨p₀, tr₁, p, hrun, hsame⟩ := h.setup S hS'
      have hpresses : P'.presses S = P.presses S := by
        rw [presses, presses, hlater, hbuilt]
      refine ⟨p₀, tr₁, p, hpresses ▸ hrun, ?_⟩
      intro ho'
      refine ⟨(hsame (ho ho')).1, ?_⟩
      intro hne
      rw [hp (hd (ho ho')) S hS' hne]
      exact (hsame (ho ho')).2 hne
  | killed _ hS hl =>
      exact ⟨fun S hS' => absurd (hS.symm.trans hS') (by simp), h.latest_of_eq hl ho⟩
  | home _ hS hl =>
      exact ⟨fun S hS' => absurd (hS.symm.trans hS') (by simp), h.latest_of_eq hl ho⟩
  | shown _ hS hl hlater hbuilt =>
      refine ⟨?_, h.latest_of_eq hl ho⟩
      intro S hS'
      obtain rfl := Option.some_inj.1 (hS.symm.trans hS')
      refine ⟨P'.app.prefs, [], P'.app.prefs, ?_, fun _ => ⟨by simp, fun _ => rfl⟩⟩
      rw [presses, hlater, hbuilt]
      exact .nil
  | @event S e' st he hS hstep hP =>
      subst he hP
      refine h.tapped hd hS hstep ?_
      intro ho'
      have hlast := ho' ⟨P, .setup e', P.tapped S e' st⟩ (by simp)
      exact ⟨ho ho', by simpa [orderly, hS] using hlast⟩

/-- **The projection holds in every history.** -/
theorem projected_of_run (h : Run step {} tr P) : Projected tr P := by
  refine Run.invariant (I := fun tr P => Projected tr P) ⟨by simp, by simp⟩ ?_ h
  intro tr P e P' hrun ih hs
  exact ih.step (durable_of_run hrun) hs

/-- In an orderly history the latest download is one of the screen alone, with one press. -/
theorem exists_run_latest (h : Run step {} tr P) (ho : Orderly tr) {S : Setup}
    (hS : P.app.latest = some S) :
    S.download = .returned ∧ ∃ p₀ tr' p, Run Setup.step (p₀, {}) tr' (p, S) := by
  obtain ⟨hret, p₀, tr₁, p, T, e, hrun, rfl, hsingle⟩ := (projected_of_run h).latest S hS
  obtain ⟨hnil, tr₂, hrun'⟩ := Presses.exists_run_of_single hrun (hsingle ho)
  have hview : T.view e = T.screen := by
    cases e with
    | later i e =>
        have hlater : T.later = [] := hnil
        rw [Presses.view, hlater]
        rfl
    | _ => rfl
  rw [hview] at hret ⊢
  exact ⟨hret, p₀, tr₂, p, hrun'⟩

/-- **The setup screen of a process is the setup screen alone.**  In every history, whatever is
killed, fails or comes too late and however often Continue is pressed, the setup screen is in a
state that it reaches alone from a fresh one, and so it was when the latest download was completed.
In an orderly history it is a state that `LogoGuess.Setup` reaches, with the preferences that the
process reads until the download has come to its end; and so is that of the latest download. -/
theorem exists_setup_run (h : Run step {} tr P) :
    (∀ S, P.app.setup = some S → ∃ p₀ tr' p, Run Presses.step (p₀, {}) tr' (p, P.presses S)) ∧
    (∀ S, P.app.latest = some S → S.download = .returned ∧
      ∃ p₀ tr' p T e, Run Presses.step (p₀, {}) tr' (p, T) ∧ T.view e = S) ∧
    (Orderly tr →
      (∀ S, P.app.setup = some S → ∃ p₀ tr' p, Run Setup.step (p₀, {}) tr' (p, S) ∧
        (S.download ≠ .returned → p = P.app.prefs)) ∧
      ∀ S, P.app.latest = some S → S.download = .returned ∧
        ∃ p₀ tr' p, Run Setup.step (p₀, {}) tr' (p, S)) := by
  have hproj := projected_of_run h
  refine ⟨?_, ?_, fun ho => ⟨?_, fun S hS => exists_run_latest h ho hS⟩⟩
  · intro S hS
    obtain ⟨p₀, tr', p, hrun, -⟩ := hproj.setup S hS
    exact ⟨p₀, tr', p, hrun⟩
  · intro S hS
    obtain ⟨hret, p₀, tr', p, T, e, hrun, hview, -⟩ := hproj.latest S hS
    exact ⟨hret, p₀, tr', p, T, e, hrun, hview⟩
  · intro S hS
    obtain ⟨p₀, tr₁, p, hrun, hsame⟩ := hproj.setup S hS
    obtain ⟨-, tr₂, hrun'⟩ := Presses.exists_run_of_single hrun (hsame ho).1
    exact ⟨p₀, tr₂, p, hrun', (hsame ho).2⟩

/-- A process is killed in the middle of its download, and the next one completes another one. -/
theorem exists_setup_run_killedHalfway :
    ∃ tr P, Run step {} tr P ∧ ∃ S, P.app.latest = some S ∧ S.archive = [⟨['A'], true⟩] ∧
      ∃ p₀ tr' p, Run Setup.step (p₀, {}) tr' (p, S) := by
  have hexec : (exec (guarded step orderly) {}
      (killedHalfway ++ started 5 ++ installed [⟨['A'], true⟩])).map
        (fun P => P.app.latest.map Setup.archive) = some (some [⟨['A'], true⟩]) := by
    decide
  obtain ⟨tr, P, hrun, hlatest, -⟩ := exists_run_of_exec hexec
  obtain ⟨hrun, ho⟩ := run_guarded_iff.1 hrun
  obtain ⟨S, hS, harchive⟩ := Option.map_eq_some_iff.1 hlatest
  exact ⟨tr, P, hrun, S, hS, harchive, (((exists_setup_run hrun).2.2 ho).2 S hS).2⟩

/-! ### A download that fails -/

/-- A download that has failed stays so until the process is killed, if Continue is not pressed
again. -/
theorem threw_of_step (h : Durable P) {S : Setup} {f : Fault} (hS : P.app.setup = some S)
    (hf : S.download = .threw f) (ho : orderly P e = true) (he : e ≠ .kill)
    (hs : step P e = some P') : ∃ S', P'.app.setup = some S' ∧ S'.download = .threw f := by
  cases setupMove_of_step hs with
  | same hS' => exact ⟨S, hS'.trans hS, hf⟩
  | killed hkill => exact absurd hkill he
  | home hsplash => exact absurd hsplash (h.running hS).2.1
  | shown hsplash => exact absurd hsplash (h.running hS).2.1
  | @event T e' st he' hT hstep hP =>
      obtain rfl := Option.some_inj.1 (hS.symm.trans hT)
      subst he' hP
      have hsingle : (P.presses S).single e' = true := by simpa [orderly, hS] using ho
      rcases h.tapped_cases hS hstep hsingle with ⟨b, hP⟩ | ⟨e'', p, S', -, hstep', hP⟩
      · rw [hP]
        exact ⟨S, hS, hf⟩
      · rw [hP]
        refine ⟨S', ?_, Setup.threw_of_step hf (h.wf S hS) hstep'⟩
        change (P.app.withSetup S p S').setup = some S'
        rw [App.withSetup]
        split <;> rfl

/-- **A download that has failed is the end of its process.**  Whatever happens after it, short of
a kill and of another press on Continue before the screen is built again: no other screen is shown,
neither Continue nor Next is on the screen when it is built, and the next process starts with the
setup again, if its launch is complete when the splash screen goes. -/
theorem stuck_of_threw (h : Run step {} tr P) (ho : Orderly tr) {S : Setup} {f : Fault}
    (hS : P.app.setup = some S) (hf : S.download = .threw f) (h' : Run step P tr' P')
    (ho' : Orderly tr') (hk : ∀ m ∈ tr', m.event ≠ .kill) :
    (∀ r ∈ P'.app.routes, r = .iDownload) ∧
      (∃ S', P'.app.setup = some S' ∧ S'.continueEnabled = false ∧ S'.nextEnabled = false) ∧
      (Launch.completed P'.killed.app.prefs).2 = .iDownload := by
  have hinv : Durable P' ∧ ∃ S', P'.app.setup = some S' ∧ S'.download = .threw f := by
    refine Run.invariant (I := fun tr P' => Orderly tr → (∀ m ∈ tr, m.event ≠ .kill) →
      Durable P' ∧ ∃ S', P'.app.setup = some S' ∧ S'.download = .threw f)
      (fun _ _ => ⟨durable_of_run h ho, S, hS, hf⟩) ?_ h' ho' hk
    intro tr Q e Q' _ ih hs ho hk
    obtain ⟨hd, S', hS', hf'⟩ := ih (fun m hm => ho m (List.mem_append_left _ hm))
      fun m hm => hk m (List.mem_append_left _ hm)
    have hlast := ho ⟨Q, e, Q'⟩ (by simp)
    exact ⟨hd.step hlast hs, threw_of_step hd hS' hf' hlast (hk ⟨Q, e, Q'⟩ (by simp)) hs⟩
  obtain ⟨hd, S', hS', hf'⟩ := hinv
  obtain ⟨hpast, hcheck⟩ := hd.fresh S' hS' (by simp [hf'])
  have hw := hd.wf S' hS'
  have hvis : S'.cVis = false := by
    by_contra hne
    exact absurd ((hw.waiting.1 (by simpa using hne)).symm.trans hf') (by simp)
  refine ⟨?_, ⟨S', hS', hvis, ?_⟩, ?_⟩
  · intro r hr
    by_contra hne
    exact hpast (Or.inl ⟨r, hr, hne⟩)
  · by_contra hnext
    have hdown : S'.downloading = false := by
      simpa [Setup.nextEnabled, hvis] using hnext
    exact absurd ((hw.done hvis hdown).symm.trans hf') (by simp)
  · have hcheck' : P'.killed.app.prefs.check = some 0 := hcheck
    rw [Launch.completed]
    by_cases hone : Launch.getCounttimes P'.killed.app.prefs + 1 = 1
    · simp [hone, Launch.nextScreen]
    · simp [hone, Launch.nextScreen, hcheck']

/-- The archive cannot be fetched; the documents directory is found after that, and the screen is
built. -/
theorem stuck_of_threw_failed :
    ∃ tr P, Run step {} tr P ∧ P.app.setup.map Setup.dir = some (some ['d']) ∧
      P.built = false ∧ ∀ r ∈ P.app.routes, r = .iDownload := by
  have hexec : ((exec (guarded step orderly) {} (started 7 ++
      [.setup (.screen .press), .setup (.screen (.reply .failed))])).bind fun P =>
      (exec (guarded step orderly) P [.setup (.screen (.directory ['d'])), .setup .build]).map
        fun P' => (P.app.setup.map Setup.download, P'.app.setup.map Setup.dir, P'.built)) =
      some (some (.threw .outside), some (some ['d']), false) := by
    decide
  obtain ⟨P, hexec₁, hexec⟩ := Option.bind_eq_some_iff.1 hexec
  obtain ⟨P', hexec₂, hfields⟩ := Option.map_eq_some_iff.1 hexec
  obtain ⟨hdown, hfields⟩ := Prod.mk.inj hfields
  obtain ⟨S, hS, hf⟩ := Option.map_eq_some_iff.1 hdown
  obtain ⟨tr₁, hrun₁, -⟩ := run_of_exec hexec₁
  obtain ⟨tr₂, hrun₂, hev⟩ := run_of_exec hexec₂
  obtain ⟨hrun₁, ho₁⟩ := run_guarded_iff.1 hrun₁
  obtain ⟨hrun₂, ho₂⟩ := run_guarded_iff.1 hrun₂
  have hk : ∀ m ∈ tr₂, m.event ≠ .kill :=
    forall_event (P := (· ≠ .kill)) hev (by simp)
  exact ⟨_, P', hrun₁.append hrun₂, (Prod.mk.inj hfields).1, (Prod.mk.inj hfields).2,
    (stuck_of_threw hrun₁ ho₁ hS hf hrun₂ ho₂ hk).1⟩

end

end Process

end LogoGuess
