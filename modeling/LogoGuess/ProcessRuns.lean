/-
**Going on after an interruption.**

The invariants of `LogoGuess.Process` say what cannot happen after a kill.  This module shows what
can: a history of `LogoGuess.App` is one of `LogoGuess.Process` without interruptions, and from
every state, whatever has been killed and whatever the keys say, there is a way to go on that leads
to a quiz over the whole archive.  The screens of the app offer it: the setup, if the launch selects
it, and otherwise Help and one more launch.

Main definitions:

* `LogoGuess.Process.Calm` — a process in which nothing is under way;
* `LogoGuess.Process.gentle` — the moves of a history without interruptions.

Main results:

* `LogoGuess.Process.exists_run_of_app` — **a history of the app is a history without
  interruptions**;
* `LogoGuess.Process.exists_recovery` — **every state can be recovered from**.
-/

import LogoGuess.ProcessGate

set_option relaxedAutoImplicit false
set_option autoImplicit false

namespace LogoGuess

open Dart EventLoop

/-! ### Handlers that are not interrupted -/

namespace Process

/-- **Nothing is under way**, and what the process reads has reached the device. -/
structure Calm (P : Process) (app : App) : Prop where
  same : P.app = app
  device : P.device = app.prefs.names
  number : P.number = app.prefs.number
  launching : P.launching = none
  splash : P.splash = false
  later : P.later = []
  /-- Continue is on the screen until it is pressed. -/
  built : ∀ S, app.setup = some S → S.cVis = true → P.built = true
  handlers : P.handlers = []
  blanks : P.blanks = 0

/-- **The moves of a history without interruptions**: it is orderly, no `await` of a launch, of Next
or of Help fails, and a process is killed only when nothing is under way. -/
def gentle (P : Process) : Event → Bool
  | .kill =>
      P.launching = none ∧ P.splash = false ∧ P.handlers = [] ∧ P.blanks = 0 ∧
        P.app.setup.all (fun S => !App.busy S) ∧ P.later = []
  | .abort | .fail _ => false
  | e => orderly P e

/-- What a launch that has selected a screen leaves. -/
def selected (app : App) (p : Prefs) : Launch.Screen → App
  | .iDownload => { app with prefs := p, routes := [.iDownload], setup := some {} }
  | .myHomePage => { app with prefs := p, routes := [.myHomePage], setup := none }

section

variable {P P' : Process} {app app' : App}

/-- A move without interruptions is orderly. -/
theorem orderly_of_gentle {e : Event} (h : gentle P e = true) : orderly P e = true := by
  cases e with
  | kill => rfl
  | abort => rfl
  | fail i => rfl
  | _ => exact h

/-- A history without interruptions tears no launch. -/
theorem untorn_of_gentle {tr : List (Move Process Event)}
    (h : ∀ m ∈ tr, gentle m.pre m.event = true) : Untorn tr := by
  rintro ⟨Q, e, Q'⟩ hm he ⟨hl, -⟩
  have hg := h _ hm
  have hnone : Q.launching = none := by
    rcases he with rfl | rfl
    · simp only [gentle, decide_eq_true_eq] at hg
      exact hg.1
    · exact absurd hg (by simp [gentle])
  rcases hl with hl | hl
  · exact absurd (hnone.symm.trans hl) (by simp)
  · exact absurd (hnone.symm.trans hl) (by simp)

/-- An execution without interruptions. -/
theorem exists_run_of_events {es : List Event} (h : exec (guarded step gentle) P es = some P') :
    ∃ tr, Run step P tr P' ∧ ∀ m ∈ tr, gentle m.pre m.event = true := by
  obtain ⟨tr, hrun, -⟩ := run_of_exec h
  exact ⟨tr, run_guarded_iff.1 hrun⟩

/-- A single event that is not interrupted. -/
theorem run_of_step {e : Event} (hs : step P e = some P') (hg : gentle P e = true) :
    ∃ tr, Run step P tr P' ∧ ∀ m ∈ tr, gentle m.pre m.event = true :=
  ⟨_, Run.single hs, by simpa using hg⟩

/-- A launch that is complete. -/
def launchedWith (P : Process) : Process :=
  { P with
    app := { P.app with prefs := (Launch.completed P.app.prefs).1 }
    number := some (Launch.getCounttimes P.app.prefs + 1)
    launching := none
    count := some (Launch.getCounttimes P.app.prefs + 1)
    check := (Launch.completed P.app.prefs).1.check
    launched := true
    splash := true }

/-- **A launch that is not interrupted**, up to the end of the splash screen. -/
theorem exec_launch (hnumber : P.number = P.app.prefs.number) (hl : P.launching = none)
    (hs : P.splash = false) (hr : P.app.routes = []) :
    ∃ n, exec (guarded step gentle) P (.launch :: List.replicate n .resume) =
      some P.launchedWith := by
  obtain ⟨⟨⟨number, check, names⟩, routes, setup, latest, helped⟩, device, number', launching,
    count, check', launched, splash, later, built, handlers, blanks, blanked⟩ := P
  simp only at hnumber hl hs hr
  subst hnumber hl hs hr
  by_cases hone : number'.getD 0 + 1 = 1
  · refine ⟨7, ?_⟩
    simp [exec, guarded, gentle, orderly, step, resume, finish, List.replicate, launchedWith,
      Launch.completed, Launch.getCounttimes, hone]
  · refine ⟨5, ?_⟩
    simp [exec, guarded, gentle, orderly, step, resume, finish, List.replicate, launchedWith,
      Launch.completed, Launch.getCounttimes, hone]

/-- **A launch that is not interrupted.** -/
theorem exists_launch (h : Calm P app) (hroutes : app.routes = []) :
    ∃ tr P', Run step P tr P' ∧ (∀ m ∈ tr, gentle m.pre m.event = true) ∧
      Calm P' (selected app (Launch.completed app.prefs).1 (Launch.completed app.prefs).2) := by
  obtain ⟨rfl, hdev, hnumber, hl, hs, hlater, -, hh, hb⟩ := h
  obtain ⟨n, hlaunch⟩ := exec_launch hnumber hl hs hroutes
  have hexec : exec (guarded step gentle) P (.launch :: List.replicate n .resume ++ [.splash]) =
      some P.launchedWith.shown := by
    rw [exec_append, hlaunch]
    rfl
  obtain ⟨tr, hrun, hgentle⟩ := exists_run_of_events hexec
  -- a launch does not write the list
  have hnames : P.device = (Launch.completed P.app.prefs).1.names := by
    rw [hdev, Launch.completed]
    by_cases hone : Launch.getCounttimes P.app.prefs + 1 = 1 <;> simp [hone]
  have hcount : some (Launch.getCounttimes P.app.prefs + 1) =
      (Launch.completed P.app.prefs).1.number := by
    rw [Launch.completed]
    by_cases hone : Launch.getCounttimes P.app.prefs + 1 = 1 <;> simp [hone]
  have hscreen : Launch.nextScreen P.launchedWith.check P.launchedWith.count =
      (Launch.completed P.app.prefs).2 := rfl
  refine ⟨tr, _, hrun, hgentle, ?_⟩
  rw [shown, hscreen]
  cases (Launch.completed P.app.prefs).2 with
  | iDownload => exact ⟨rfl, hnames, hcount, rfl, rfl, rfl, fun _ _ _ => rfl, hh, hb⟩
  | myHomePage =>
      exact ⟨rfl, hnames, hcount, rfl, rfl, hlater, fun S hS => absurd hS (by simp [selected]),
        hh, hb⟩

/-- Between two launches nothing is lost by a kill but what was on the screen. -/
theorem Calm.killed (h : Calm P app) :
    Calm P.killed { app with routes := [], setup := none } := by
  obtain ⟨rfl, hdev, -⟩ := h
  refine ⟨?_, hdev, rfl, rfl, rfl, rfl, by simp, rfl, rfl⟩
  rw [Process.killed, hdev]

/-- **A restart that is not interrupted.** -/
theorem exists_restart (h : Calm P app) (hbusy : app.setup.all (fun S => !App.busy S) = true) :
    ∃ tr P', Run step P tr P' ∧ (∀ m ∈ tr, gentle m.pre m.event = true) ∧
      Calm P' (selected app (Launch.completed app.prefs).1 (Launch.completed app.prefs).2) := by
  obtain ⟨tr, P', hrun, hgentle, hcalm⟩ := exists_launch h.killed rfl
  refine ⟨_, P', (Run.single (e := .kill) rfl).append hrun, ?_, ?_⟩
  · intro m hm
    rcases List.mem_append.1 hm with hm | hm
    · rw [List.mem_singleton.1 hm]
      exact decide_eq_true
        ⟨h.launching, h.splash, h.handlers, h.blanks, h.same ▸ hbusy, h.later⟩
    · exact hgentle m hm
  · cases hs : (Launch.completed app.prefs).2 with
    | iDownload => rwa [hs] at hcalm
    | myHomePage => rwa [hs] at hcalm

/-- The setup screen is built. -/
theorem step_build {S : Setup} (hS : P.app.setup = some S) :
    step P (.setup .build) = some { P with built := S.continueEnabled } := by
  rw [step, hS, Option.bind_some]
  exact congrArg some (tapped_build hS S.continueEnabled)

/-- Next, not interrupted. -/
theorem exists_next (h : Calm P app) (hhead : app.routes.head? = some .iDownload)
    (hany : app.setup.any Setup.nextEnabled = true) :
    ∃ tr P', Run step P tr P' ∧ (∀ m ∈ tr, gentle m.pre m.event = true) ∧
      Calm P' { app with prefs := app.prefs.next, routes := .myHomePage :: app.routes } := by
  obtain ⟨rfl, hdev, hnumber, hl, hs, hlater, -, hh, hb⟩ := h
  obtain ⟨S, hS, hnext⟩ := (Option.any_eq_true _ _).1 hany
  have hvis : S.cVis = false := by
    rw [Setup.nextEnabled, Bool.and_eq_true] at hnext
    simpa using hnext.2
  have hbuild : guarded step gentle P (.setup .build) = some { P with built := false } := by
    rw [guarded, if_pos (by simp [gentle, orderly, hS, Presses.single]), step_build hS]
    exact congrArg (fun b => some { P with built := b }) hvis
  have hexec : exec (guarded step gentle) P nextPressed =
      some { P with
        app := { P.app with prefs := P.app.prefs.next, routes := .myHomePage :: P.app.routes }
        built := false } := by
    rw [nextPressed, exec, hbuild]
    simp [exec, guarded, gentle, orderly, step, go, hh, hhead, hS, hnext]
  obtain ⟨tr, hrun, hgentle⟩ := exists_run_of_events hexec
  refine ⟨tr, _, hrun, hgentle, rfl, hdev, hnumber, hl, hs, hlater, ?_, hh, hb⟩
  intro T hT hvis'
  obtain rfl := Option.some_inj.1 (hS.symm.trans hT)
  exact absurd (hvis.symm.trans hvis') (by simp)

/-- Help, not interrupted. -/
theorem exists_help (h : Calm P app) (hhead : app.routes.head? = some .myHomePage) :
    ∃ tr P', Run step P tr P' ∧ (∀ m ∈ tr, gentle m.pre m.event = true) ∧
      Calm P' { app with
        prefs := app.prefs.help, routes := .help :: app.routes, helped := true } := by
  obtain ⟨rfl, hdev, hnumber, hl, hs, hlater, hbuilt, hh, hb⟩ := h
  have hexec : exec (guarded step gentle) P [.help, .go 0, .go 0, .go 0, .land] =
      some { P with
        app := { P.app with
          prefs := P.app.prefs.help, routes := .help :: P.app.routes, helped := true }
        device := some []
        number := some 0
        blanked := true } := by
    simp [exec, guarded, gentle, orderly, step, go, hh, hhead, hb, Prefs.help]
  obtain ⟨tr, hrun, hgentle⟩ := exists_run_of_events hexec
  exact ⟨tr, _, hrun, hgentle, rfl, rfl, rfl, hl, hs, hlater, hbuilt, hh, hb⟩

/-- An event of the setup screen stores a new text only by a write that is awaited. -/
theorem names_of_step {p p' : Prefs} {S S' : Setup} {e : Setup.Event} (hw : S.Wf p)
    (hs : Setup.step (p, S) e = some (p', S')) :
    p'.names = p.names ∨ ∃ s, p'.names = some s ∧ writing S'.download = some s := by
  rcases download_of_step hw hs with hr | ⟨rfl, -⟩
  · cases hr with
    | stored => exact Or.inr ⟨_, rfl, rfl⟩
    | _ => exact Or.inl rfl
  · exact Or.inl rfl

/-- Continue does not come back. -/
theorem cVis_of_step {p p' : Prefs} {S S' : Setup} {e : Setup.Event} (hw : S.Wf p)
    (hs : Setup.step (p, S) e = some (p', S')) (hvis : S'.cVis = true) : S.cVis = true := by
  have hidle := (Setup.kept_of_step hw hs).wf.waiting.1 hvis
  rw [hw.waiting]
  rcases download_of_step hw hs with hr | ⟨-, hd | ⟨-, hget⟩⟩
  · exact absurd hidle hr.ne_idle
  · rwa [← hd]
  · exact absurd (hget.symm.trans hidle) (by simp)

/-- An event of the setup screen, not interrupted. -/
theorem exists_setup (h : Calm P app) {S S' : Setup} {p : Prefs} {e : Setup.Event}
    (hS : app.setup = some S) (hw : S.Wf app.prefs)
    (hs : Setup.step (app.prefs, S) e = some (p, S')) :
    ∃ tr P', Run step P tr P' ∧ (∀ m ∈ tr, gentle m.pre m.event = true) ∧
      Calm P' (app.withSetup S p S') := by
  obtain ⟨rfl, hdev, hnumber, hl, hsplash, hlater, hbuilt, hh, hb⟩ := h
  have hfields : (P.app.withSetup S p S').prefs = p ∧
      (P.app.withSetup S p S').setup = some S' := by
    rw [App.withSetup]
    split <;> exact ⟨rfl, rfl⟩
  obtain ⟨hprefs, hsetup⟩ := hfields
  obtain ⟨hpress, hsingle⟩ :=
    Presses.step_of_setup (T := P.presses S) hw (hbuilt S hS) hs
  have hg : gentle P (.setup (.screen e)) = true := by
    simpa [gentle, orderly, hS] using hsingle
  have hstep : step P (.setup (.screen e)) = some (P.withSetup S p S') := by
    rw [step, hS, Option.bind_some, hpress, Option.map_some, tapped_screen]
  have hnumber' : P.number = (P.app.withSetup S p S').prefs.number := by
    rw [hnumber, hprefs]
    exact (Setup.kept_of_step hw hs).number.symm
  have hbuilt' : ∀ T, (P.app.withSetup S p S').setup = some T → T.cVis = true →
      P.built = true := by
    intro T hT hvis
    obtain rfl := Option.some_inj.1 (hsetup.symm.trans hT)
    exact hbuilt S hS (cVis_of_step hw hs hvis)
  rcases names_of_step hw hs with hnames | ⟨s, hnames, hwriting⟩
  · obtain ⟨tr, hrun, hgentle⟩ := run_of_step hstep hg
    refine ⟨tr, _, hrun, hgentle, rfl, ?_, hnumber', hl, hsplash, hlater, hbuilt', hh, hb⟩
    rw [hprefs, hnames]
    change (landed S.download S'.download).or P.device = _
    cases hland : landed S.download S'.download with
    | none => exact hdev
    | some s => exact (names_of_writing hw (writing_of_landed hland)).1.symm
  · -- the write is given the time to reach the device
    have hstore : step (P.withSetup S p S') (.store 0) =
        some { P.withSetup S p S' with device := some s } := by
      have hdown : (P.withSetup S p S').downloads[0]? = some S'.download := by
        rw [downloads]
        change ((P.app.withSetup S p S').setup.toList.map Setup.download ++ _)[0]? = _
        rw [hsetup]
        rfl
      rw [step, hdown, Option.bind_some, hwriting, Option.map_some]
    obtain ⟨tr₁, hrun₁, hgentle₁⟩ := run_of_step hstep hg
    obtain ⟨tr₂, hrun₂, hgentle₂⟩ := run_of_step hstore rfl
    refine ⟨_, _, hrun₁.append hrun₂, List.forall_mem_append.2 ⟨hgentle₁, hgentle₂⟩, rfl, ?_,
      hnumber', hl, hsplash, hlater, hbuilt', hh, hb⟩
    rw [hprefs, hnames]

/-- **Every event of the app is a sequence of events without interruptions.** -/
theorem exists_run_of_step (h : Calm P app) (hinv : App.Inv app) {e : App.Event}
    (hs : App.step app e = some app') :
    ∃ tr P', Run step P tr P' ∧ (∀ m ∈ tr, gentle m.pre m.event = true) ∧ Calm P' app' := by
  by_cases hplain : plain e = true
  · obtain ⟨rfl, hdev, hnumber, hl, hsplash, hlater, hbuilt, hh, hb⟩ := h
    have hstep : step P (.app e) = some { P with app := app' } := by
      rw [step, if_pos hplain, hs, Option.map_some]
    obtain ⟨routes, rfl, -⟩ := navigate_of_step hplain hs
    obtain ⟨tr, hrun, hgentle⟩ := run_of_step hstep rfl
    exact ⟨tr, _, hrun, hgentle, rfl, hdev, hnumber, hl, hsplash, hlater, hbuilt, hh, hb⟩
  · cases e with
    | launch =>
        obtain ⟨hbusy, hs⟩ := Option.ite_none_right_eq_some.1 hs
        obtain ⟨tr, P', hrun, hgentle, hcalm⟩ := exists_restart h hbusy
        refine ⟨tr, P', hrun, hgentle, ?_⟩
        cases hc : Launch.completed app.prefs with
        | mk p screen =>
            rw [hc] at hs hcalm
            cases screen with
            | iDownload =>
                obtain rfl := Option.some_inj.1 hs
                exact hcalm
            | myHomePage =>
                obtain rfl := Option.some_inj.1 hs
                exact hcalm
    | setup e =>
        obtain ⟨S, hS, hs⟩ := Option.bind_eq_some_iff.1 hs
        obtain ⟨⟨p, S'⟩, hstep, rfl⟩ := Option.map_eq_some_iff.1 hs
        exact exists_setup h hS (hinv.wf S hS) hstep
    | next =>
        obtain ⟨⟨hhead, hany⟩, rfl⟩ := of_guard hs
        exact exists_next h hhead hany
    | help =>
        obtain ⟨hhead, rfl⟩ := of_guard hs
        exact exists_help h hhead
    | _ => exact absurd rfl hplain

/-- **A history of the app is a history without interruptions.**  Every state that
`LogoGuess.App` reaches is reached by a process in which every launch is complete when the splash
screen goes, no `await` of a launch, of Next or of Help fails, Continue is pressed once on a setup
screen, and a process is killed only when nothing is under way; at the end nothing is under way
either, and the text that the process reads is on the device.  So what holds of processes holds of
the app. -/
theorem exists_run_of_app {tr : List (Move App App.Event)} (h : Run App.step {} tr app) :
    ∃ tr' P, Run step {} tr' P ∧ Calm P app ∧ ∀ m ∈ tr', gentle m.pre m.event = true := by
  have hinitial : Calm {} {} ∧ App.Inv {} :=
    ⟨⟨rfl, rfl, rfl, rfl, rfl, rfl, by simp, rfl, rfl⟩, App.inv_initial⟩
  have hmatch : ∀ (app : App) (e : App.Event) (app' : App) (P : Process),
      Calm P app ∧ App.Inv app → App.step app e = some app' →
      ∃ tr P', Run step P tr P' ∧ (Calm P' app' ∧ App.Inv app') ∧
        ∀ m ∈ tr, gentle m.pre m.event = true := by
    rintro app e app' P ⟨hcalm, hinv⟩ hs
    obtain ⟨tr, P', hrun, hgentle, hcalm'⟩ := exists_run_of_step hcalm hinv hs
    exact ⟨tr, P', hrun, ⟨hcalm', hinv.step hs⟩, hgentle⟩
  obtain ⟨tr', P, hrun, ⟨hcalm, -⟩, hgentle⟩ :=
    h.simulate (fun app P => Calm P app ∧ App.Inv app) _ hinitial hmatch
  exact ⟨tr', P, hrun, hcalm, hgentle⟩

/-- The first setup, up to the quiz. -/
theorem exists_run_of_app_firstSetup :
    ∃ tr P, Run step {} tr P ∧ Orderly tr ∧ Untorn tr ∧
      P.app.routes.head? = some .quiz ∧ P.device = P.app.prefs.names := by
  have hexec : (exec App.step {} (App.firstSetup ++ [.play])).map (fun app => app.routes.head?) =
      some (some .quiz) := by
    decide
  obtain ⟨tr, app, hrun, hhead, -⟩ := exists_run_of_exec hexec
  obtain ⟨tr', P, hrun', hcalm, hgentle⟩ := exists_run_of_app hrun
  obtain ⟨rfl, hdev, -⟩ := hcalm
  exact ⟨tr', P, hrun', fun m hm => orderly_of_gentle (hgentle m hm), untorn_of_gentle hgentle,
    hhead, hdev⟩

/-! ### Recovery -/

/-- The setup screen alone, and the process that shows it. -/
def Installing (st : Prefs × Setup) (P : Process) : Prop :=
  ∃ app, Calm P app ∧ app.setup = some st.2 ∧ app.prefs = st.1 ∧ app.routes = [.iDownload] ∧
    st.2.Wf st.1

/-- An event of the setup screen alone is one of the process. -/
theorem Installing.step {st st' : Prefs × Setup} {e : Setup.Event} (h : Installing st P)
    (hs : Setup.step st e = some st') :
    ∃ tr P', Run Process.step P tr P' ∧ Installing st' P' ∧
      ∀ m ∈ tr, gentle m.pre m.event = true := by
  obtain ⟨p, S⟩ := st
  obtain ⟨p', S'⟩ := st'
  obtain ⟨app, hcalm, hS, rfl, hr, hw⟩ := h
  obtain ⟨tr, P', hrun, hgentle, hcalm'⟩ := exists_setup hcalm hS hw hs
  refine ⟨tr, P', hrun, ⟨_, hcalm', ?_, ?_, ?_, (Setup.kept_of_step hw hs).wf⟩, hgentle⟩
  · rw [App.withSetup]
    split <;> rfl
  · rw [App.withSetup]
    split <;> rfl
  · rw [App.withSetup]
    split <;> exact hr

/-- From a fresh setup screen to the quiz. -/
theorem exists_quiz_of_setup (h : Calm P app) (hroutes : app.routes = [.iDownload])
    (hS : app.setup = some {}) (dir : Str) {archive : List Entry} (hne : archive ≠ []) :
    ∃ tr P', Run step P tr P' ∧ P'.app.routes.head? = some .quiz ∧
      App.getIm P'.app.prefs = some (archive.map fun file => dir ++ '/' :: file.name) := by
  obtain ⟨p', S', hexec, hnext, hnames⟩ := Setup.exists_download app.prefs dir hne
  obtain ⟨tr, hrun, -⟩ := run_of_exec hexec
  have hbegin : Installing (app.prefs, {}) P := ⟨app, h, hS, rfl, hroutes, Setup.wf_initial _⟩
  obtain ⟨tr₁, P₁, hrun₁, ⟨app₁, hcalm₁, hS₁, hp₁, hr₁, -⟩, -⟩ :=
    hrun.simulate Installing _ hbegin fun _ _ _ _ hR hs => hR.step hs
  obtain ⟨tr₂, P₂, hrun₂, -, hcalm₂⟩ :=
    exists_next hcalm₁ (by rw [hr₁]; rfl) (by rw [hS₁]; exact hnext)
  have hplay : step P₂ (.app .play) = some { P₂ with
      app := { P₂.app with routes := .quiz :: P₂.app.routes } } := by
    have hhead : P₂.app.routes.head? = some .myHomePage := by
      rw [hcalm₂.same]
      rfl
    have happ : App.step P₂.app .play =
        some { P₂.app with routes := .quiz :: P₂.app.routes } := if_pos hhead
    rw [step, if_pos (by rfl), happ, Option.map_some]
  refine ⟨_, _, (hrun₁.append hrun₂).snoc hplay, rfl, ?_⟩
  have hstored : P₂.app.prefs.names =
      some (Json.encode (archive.map fun file => dir ++ '/' :: file.name)) := by
    rw [hcalm₂.same]
    change app₁.prefs.names = _
    rw [hp₁]
    exact hnames
  change App.getIm P₂.app.prefs = _
  rw [App.getIm, hstored, Option.bind_some, Json.decode_encode]

/-- **Every state can be recovered from.**  Whatever has been killed and whatever the keys say, even
if no history leads there: there is a way to go on that leads to the quiz over a given archive.  The
process is restarted; if that leads to the home page, Help is pressed and the process is restarted
once more; the setup is answered with the archive; and Next and Play are pressed.  The quiz then
finds a path for each entry of the archive.

The download asks for the empty address whatever the database says (`Setup.url_never_delivered`), so
it depends on the outside world that the archive is the answer to that. -/
theorem exists_recovery (P : Process) (dir : Str) {archive : List Entry} (hne : archive ≠ []) :
    ∃ tr P', Run step P tr P' ∧ P'.app.routes.head? = some .quiz ∧
      App.getIm P'.app.prefs = some (archive.map fun file => dir ++ '/' :: file.name) := by
  have hkill : Run step P [⟨P, .kill, P.killed⟩] P.killed := Run.single rfl
  have hcalm : Calm P.killed P.killed.app :=
    ⟨rfl, rfl, rfl, rfl, rfl, rfl, fun _ _ _ => rfl, rfl, rfl⟩
  obtain ⟨tr₁, P₁, hrun₁, -, hcalm₁⟩ := exists_launch hcalm rfl
  cases hs : (Launch.completed P.killed.app.prefs).2 with
  | iDownload =>
      rw [hs] at hcalm₁
      obtain ⟨tr₂, P₂, hrun₂, hquiz⟩ := exists_quiz_of_setup hcalm₁ rfl rfl dir hne
      exact ⟨_, P₂, (hkill.append hrun₁).append hrun₂, hquiz⟩
  | myHomePage =>
      rw [hs] at hcalm₁
      obtain ⟨tr₂, P₂, hrun₂, -, hcalm₂⟩ := exists_help hcalm₁ rfl
      obtain ⟨tr₃, P₃, hrun₃, -, hcalm₃⟩ := exists_restart hcalm₂ rfl
      obtain ⟨tr₄, P₄, hrun₄, hquiz⟩ := exists_quiz_of_setup hcalm₃ rfl rfl dir hne
      exact ⟨_, P₄, (((hkill.append hrun₁).append hrun₂).append hrun₃).append hrun₄, hquiz⟩

end

/-- The first launch has been torn: the next one selects the home page, and nothing is stored. -/
def torn : Process := { app := { prefs := { number := some 1 } } }

theorem exists_recovery_torn :
    ∃ tr P, Run step torn tr P ∧ P.app.routes.head? = some .quiz ∧
      App.getIm P.app.prefs = some [['d', '/', 'A']] :=
  exists_recovery torn ['d'] (show [(⟨['A'], true⟩ : Entry)] ≠ [] by simp)

end Process

end LogoGuess
