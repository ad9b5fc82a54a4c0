/-
**The stored list of logos, over all launches of the app.**

The quiz reads the list of its paths from the key `names`.  The setup screen writes it, entry by
entry, and the Help button on the home page overwrites it with the empty string.  Whether the quiz
can be reached at all is decided by the keys `number` and `check`.  This module puts the screens
together: launches, the setup screen, the home page and the routes between them, with the store that
they share.  A launch, a press on Next and a press on Help are completed operations here, and
Continue is pressed once on a setup screen; `LogoGuess.Process` takes all of them apart.

Main definitions:

* `LogoGuess.App` — the stored preferences, the stack of routes and the setup screen;
* `LogoGuess.App.step` — what an event does to the app;
* `LogoGuess.App.Served` — the stored text is that of the latest download, and not empty;
* `LogoGuess.App.Inv` — the invariant of the store and the routes.

Main results:

* `LogoGuess.App.Inv.step` — every event keeps the invariant;
* `LogoGuess.App.served_iff` — **the quiz finds the list of the latest download exactly when that
  download had something to record and Help has not been pressed since**.
-/

import LogoGuess.Setup

set_option relaxedAutoImplicit false
set_option autoImplicit false

namespace LogoGuess

open Dart EventLoop

/-- The routes of the app. -/
inductive Route where
  | iDownload
  | myHomePage
  | quiz
  | help
  | about
  | thankYou
  deriving DecidableEq

/-- The entries of the drawer that lead to another route. -/
inductive DrawerItem where
  | home
  | help
  | about
  deriving DecidableEq

/-- The route of an entry of the drawer. -/
def DrawerItem.route : DrawerItem → Route
  | .home => .myHomePage
  | .help => .help
  | .about => .about

/-- **The app**: the stored preferences and what the current launch has on the screen.  The last two
fields record what has happened so far. -/
structure App where
  prefs : Prefs := {}
  /-- The stack of routes, with the visible one first. -/
  routes : List Route := []
  /-- The state of the setup screen, if the launch has one. -/
  setup : Option Setup := none
  /-- The setup screen as the latest completed download has left it. -/
  latest : Option Setup := none
  /-- Whether Help has been pressed since then. -/
  helped : Bool := false

namespace App

/-- A download is under way. -/
def busy (S : Setup) : Bool :=
  match S.download with
  | .idle | .returned | .threw _ => false
  | _ => true

/-- What can happen to the app. -/
inductive Event where
  /-- The app is launched. -/
  | launch
  /-- An event of the setup screen, such as a press on Continue. -/
  | setup (e : Setup.Event)
  /-- Next on the setup screen. -/
  | next
  /-- Play and Help on the home page. -/
  | play
  | help
  /-- Start on the quiz screen. -/
  | start
  /-- The back button of the device. -/
  | back
  /-- An entry of the drawer. -/
  | drawer (item : DrawerItem)
  /-- The end of the quiz. -/
  | finish
  /-- Continue on the result screen. -/
  | again

/-- The setup screen has changed from `S` to `S'`, and the preferences to `p`. -/
def withSetup (app : App) (S : Setup) (p : Prefs) (S' : Setup) : App :=
  if S.download ≠ .returned ∧ S'.download = .returned then
    { app with prefs := p, setup := some S', latest := some S', helped := false }
  else { app with prefs := p, setup := some S' }

/-- **One event of the app.**  Launches, Next and Help are completed operations, Continue is pressed
once on a setup screen, and the process does not end while a download is under way. -/
def step (app : App) : Event → Option App
  | .launch =>
      if app.setup.all (fun S => !busy S) then
        match Launch.completed app.prefs with
        | (p, .iDownload) =>
            some { app with prefs := p, routes := [.iDownload], setup := some {} }
        | (p, .myHomePage) => some { app with prefs := p, routes := [.myHomePage], setup := none }
      else none
  | .setup e =>
      app.setup.bind fun S => (Setup.step (app.prefs, S) e).map fun st => app.withSetup S st.1 st.2
  | .next =>
      if app.routes.head? = some .iDownload ∧ app.setup.any Setup.nextEnabled then
        some { app with prefs := app.prefs.next, routes := .myHomePage :: app.routes }
      else none
  | .play =>
      if app.routes.head? = some .myHomePage then some { app with routes := .quiz :: app.routes }
      else none
  | .help =>
      if app.routes.head? = some .myHomePage then
        some { app with prefs := app.prefs.help, routes := .help :: app.routes, helped := true }
      else none
  | .start => if app.routes.head? = some .quiz then some app else none
  | .back =>
      match app.routes with
      | _ :: r :: rs => some { app with routes := r :: rs }
      | _ => none
  | .drawer item =>
      match app.routes with
      | r :: rs => if r = .iDownload then none else some { app with routes := item.route :: rs }
      | [] => none
  | .finish =>
      match app.routes with
      | .quiz :: rs => some { app with routes := .thankYou :: rs }
      | _ => none
  | .again =>
      match app.routes with
      | .thankYou :: rs => some { app with routes := .myHomePage :: rs }
      | _ => none

/-- `getIm`: the decoded list, or `none` when it throws. -/
def getIm (p : Prefs) : Option (List Str) := p.names.bind Json.decode

/-- **The quiz is served**: the stored text is that of the list recorded by the latest completed
download, and that list is not empty; so `getIm` returns it. -/
def Served (app : App) : Prop :=
  ∃ S, app.latest = some S ∧ S.images ≠ [] ∧ app.prefs.names = some (Json.encode S.images) ∧
    getIm app.prefs = some S.images

/-! ### The invariant -/

/-- The latest download has been recorded, and Help has not been pressed since. -/
def Ready (app : App) : Prop :=
  app.helped = false ∧ ∃ S, app.latest = some S ∧ S.archive.length = S.images.length ∧
    (S.images ≠ [] → app.prefs.names = some (Json.encode S.images))

/-- Help has been pressed and the app has not been launched since. -/
def Spoiled (app : App) : Prop :=
  app.helped = true ∧ app.prefs.names = some [] ∧ app.prefs.number = some 0

/-- **The invariant of the store and the routes.** -/
structure Inv (app : App) : Prop where
  /-- Beyond the setup screen a download has been recorded, or spoiled by Help. -/
  beyond : (∃ r ∈ app.routes, r ≠ .iDownload) → Ready app ∨ Spoiled app
  wf : ∀ S, app.setup = some S → S.Wf app.prefs
  /-- Until its download is complete, the setup screen is the only one and `check` is `0`. -/
  fresh : ∀ S, app.setup = some S → S.download ≠ .returned →
    (∀ r ∈ app.routes, r = .iDownload) ∧ app.prefs.check = some 0
  done : ∀ S, app.setup = some S → S.download = .returned → Ready app ∨ Spoiled app
  /-- A launch leads past the setup screen only when a download has been recorded. -/
  gate : Launch.getCounttimes app.prefs ≠ 0 → app.prefs.check ≠ some 0 → Ready app
  count : 0 ≤ Launch.getCounttimes app.prefs

theorem inv_initial : Inv {} where
  beyond := by simp
  wf := by simp
  fresh := by simp
  done := by simp
  gate h := absurd rfl h
  count := Int.le_refl 0

section

variable {app app' : App}

/-- Changing the visible route. -/
theorem Inv.navigate (h : Inv app) {routes : List Route}
    (hr : (∃ r ∈ routes, r ≠ .iDownload) → ∃ r ∈ app.routes, r ≠ .iDownload) :
    Inv { app with routes := routes } where
  beyond hne := h.beyond (hr hne)
  wf := h.wf
  fresh S hS hd := by
    obtain ⟨hall, hcheck⟩ := h.fresh S hS hd
    refine ⟨?_, hcheck⟩
    intro r hmem
    by_contra hne
    obtain ⟨r', hmem', hne'⟩ := hr ⟨r, hmem, hne⟩
    exact hne' (hall r' hmem')
  done := h.done
  gate := h.gate
  count := h.count

/-- A route other than the setup screen is visible. -/
theorem exists_of_head {r : Route} (h : app.routes.head? = some r) (hne : r ≠ .iDownload) :
    ∃ r ∈ app.routes, r ≠ .iDownload :=
  ⟨r, List.mem_of_head? h, hne⟩

/-- A launch that selects the setup screen has set `check` to `0`. -/
theorem check_of_completed {p : Prefs} (h : (Launch.completed p).2 = .iDownload) :
    (Launch.completed p).1.check = some 0 := by
  rw [Launch.completed] at h ⊢
  by_cases hone : Launch.getCounttimes p + 1 = 1
  · simp [hone]
  · simpa [hone, Launch.nextScreen] using h

/-- A launch that selects the home page has found both keys past the setup. -/
theorem past_of_completed {p : Prefs} (h : (Launch.completed p).2 = .myHomePage) :
    Launch.getCounttimes p ≠ 0 ∧ p.check ≠ some 0 ∧ (Launch.completed p).1.names = p.names := by
  rw [Launch.completed] at h ⊢
  by_cases hone : Launch.getCounttimes p + 1 = 1
  · simp [hone, Launch.nextScreen] at h
  · have hcheck : p.check ≠ some 0 := by
      intro hzero
      simp [hone, Launch.nextScreen, hzero] at h
    refine ⟨by omega, hcheck, ?_⟩
    simp [hone]

theorem getCounttimes_completed (p : Prefs) :
    Launch.getCounttimes (Launch.completed p).1 = Launch.getCounttimes p + 1 := by
  by_cases hone : Launch.getCounttimes p + 1 = 1
  · simp only [Launch.completed, hone, if_true]
    rfl
  · simp only [Launch.completed, hone, if_false]
    rfl

/-- **A launch keeps the invariant.** -/
theorem Inv.launch (h : Inv app) (hs : App.step app .launch = some app') : Inv app' := by
  have hcount := getCounttimes_completed app.prefs
  have hpos := h.count
  obtain ⟨-, hs⟩ := Option.ite_none_right_eq_some.1 hs
  cases hc : Launch.completed app.prefs with
  | mk p screen =>
      rw [hc] at hs hcount
      have hnonneg : 0 ≤ Launch.getCounttimes p := by
        change Launch.getCounttimes p = _ at hcount
        omega
      cases screen with
      | iDownload =>
          obtain rfl := Option.some_inj.1 hs
          have hcheck : p.check = some 0 := by
            have := check_of_completed (p := app.prefs) (by rw [hc])
            rwa [hc] at this
          exact
            { beyond := by simp
              wf := fun S hS => Option.some_inj.1 hS ▸ Setup.wf_initial p
              fresh := fun S _ _ => ⟨by simp, hcheck⟩
              done := fun S hS hd => by
                rw [← Option.some_inj.1 hS] at hd
                exact absurd hd (by simp)
              gate := fun _ hne => absurd hcheck hne
              count := hnonneg }
      | myHomePage =>
          obtain rfl := Option.some_inj.1 hs
          obtain ⟨hnum, hcheck, hnames⟩ := past_of_completed (p := app.prefs) (by rw [hc])
          rw [hc] at hnames
          -- the launch has only counted itself
          have hready : Ready { app with prefs := p, routes := [.myHomePage], setup := none } := by
            obtain ⟨hhelp, S, hS, hlen, hstored⟩ := h.gate hnum hcheck
            exact ⟨hhelp, S, hS, hlen, fun hne => hnames.trans (hstored hne)⟩
          exact
            { beyond := fun _ => Or.inl hready
              wf := by simp
              fresh := by simp
              done := by simp
              gate := fun _ _ => hready
              count := hnonneg }

/-- **An event of the setup screen keeps the invariant.** -/
theorem Inv.setup (h : Inv app) {S S' : Setup} {p : Prefs} (hS : app.setup = some S)
    (hk : Setup.Kept (app.prefs, S) (p, S')) : Inv (app.withSetup S p S') := by
  have hnum : Launch.getCounttimes p = Launch.getCounttimes app.prefs := by
    rw [Launch.getCounttimes, hk.number]
    rfl
  by_cases hret : S.download = .returned
  · -- the download was complete before: only the screen changes
    obtain ⟨hret', hp⟩ := hk.after hret
    have hp' : p = app.prefs := hp
    subst hp'
    have happ : app.withSetup S app.prefs S' = { app with setup := some S' } :=
      if_neg fun hc => hc.1 hret
    rw [happ]
    exact
      { beyond := h.beyond
        wf := fun T hT => Option.some_inj.1 hT ▸ hk.wf
        fresh := fun T hT hd => absurd (Option.some_inj.1 hT ▸ hret') hd
        done := fun T hT _ => h.done S hS hret
        gate := h.gate
        count := h.count }
  · obtain ⟨hroutes, hcheck⟩ := h.fresh S hS hret
    have hcheck' : p.check = some 0 := hk.check.trans hcheck
    have hnone : ¬ ∃ r ∈ app.routes, r ≠ .iDownload := by
      rintro ⟨r, hmem, hne⟩
      exact hne (hroutes r hmem)
    by_cases hret' : S'.download = .returned
    · -- the download is complete now
      have happ : app.withSetup S p S' =
          { app with prefs := p, setup := some S', latest := some S', helped := false } :=
        if_pos ⟨hret, hret'⟩
      rw [happ]
      obtain ⟨hlen, hstored⟩ := hk.completed hret hret'
      have hready : Ready
          { app with prefs := p, setup := some S', latest := some S', helped := false } :=
        ⟨rfl, S', rfl, hlen, hstored⟩
      exact
        { beyond := fun _ => Or.inl hready
          wf := fun T hT => Option.some_inj.1 hT ▸ hk.wf
          fresh := fun T hT hd => absurd (Option.some_inj.1 hT ▸ hret') hd
          done := fun _ _ _ => Or.inl hready
          gate := fun _ _ => hready
          count := hnum ▸ h.count }
    · have happ : app.withSetup S p S' = { app with prefs := p, setup := some S' } :=
        if_neg fun hc => hret' hc.2
      rw [happ]
      exact
        { beyond := fun hne => absurd hne hnone
          wf := fun T hT => Option.some_inj.1 hT ▸ hk.wf
          fresh := fun _ _ _ => ⟨hroutes, hcheck'⟩
          done := fun T hT hd => absurd (Option.some_inj.1 hT ▸ hd) hret'
          gate := fun _ hne => absurd hcheck' hne
          count := hnum ▸ h.count }

/-- **Next keeps the invariant.** -/
theorem Inv.next (h : Inv app) {S : Setup} (hS : app.setup = some S)
    (hnext : S.nextEnabled = true) :
    Inv { app with prefs := app.prefs.next, routes := .myHomePage :: app.routes } := by
  -- the button is there when the download is complete
  have hret : S.download = .returned := by
    obtain ⟨hdown, hvis⟩ : S.downloading = false ∧ S.cVis = false := by
      simpa [Setup.nextEnabled] using hnext
    exact (h.wf S hS).done hvis hdown
  have hgood := h.done S hS hret
  exact
    { beyond := fun _ => hgood
      wf := fun T hT => { h.wf T hT with }
      fresh := fun T hT hd => by
        obtain rfl := Option.some_inj.1 (hS.symm.trans hT)
        exact absurd hret hd
      done := fun _ _ _ => hgood
      gate := fun hnum _ => by
        rcases hgood with hready | ⟨-, -, hzero⟩
        · exact hready
        · refine absurd ?_ hnum
          change app.prefs.number.getD 0 = 0
          rw [hzero]
          rfl
      count := h.count }

/-- **Help keeps the invariant**, by spoiling the download. -/
theorem Inv.help (h : Inv app) (hhead : app.routes.head? = some .myHomePage) :
    Inv { app with prefs := app.prefs.help, routes := .help :: app.routes, helped := true } := by
  have hspoiled : Spoiled
      { app with prefs := app.prefs.help, routes := .help :: app.routes, helped := true } :=
    ⟨rfl, rfl, rfl⟩
  -- the home page is visible, so a setup screen below it is done
  have hret : ∀ S, app.setup = some S → S.download = .returned := by
    intro S hS
    by_contra hne
    exact absurd ((h.fresh S hS hne).1 _ (List.mem_of_head? hhead)) (by simp)
  exact
    { beyond := fun _ => Or.inr hspoiled
      wf := fun S hS => by
        have hw := h.wf S hS
        refine ⟨hw.waiting, hw.done, ?_⟩
        have hs := hw.stored
        rw [Setup.Stored, hret S hS] at hs ⊢
        exact hs
      fresh := fun S hS hd => absurd (hret S hS) hd
      done := fun _ _ _ => Or.inr hspoiled
      gate := fun hnum _ => absurd rfl hnum
      count := Int.le_refl 0 }

/-- **Every event keeps the invariant.** -/
theorem Inv.step (h : Inv app) {e : Event} (hs : App.step app e = some app') : Inv app' := by
  cases e with
  | launch => exact h.launch hs
  | setup e =>
      obtain ⟨S, hS, hs⟩ := Option.bind_eq_some_iff.1 hs
      obtain ⟨⟨p, S'⟩, hstep, rfl⟩ := Option.map_eq_some_iff.1 hs
      exact h.setup hS (Setup.kept_of_step (h.wf S hS) hstep)
  | next =>
      obtain ⟨⟨-, hany⟩, rfl⟩ := of_guard hs
      rcases Option.eq_none_or_eq_some app.setup with hS | ⟨S, hS⟩
      · exact absurd hany (by simp [hS])
      · exact h.next hS (by simpa [hS] using hany)
  | play =>
      obtain ⟨hhead, rfl⟩ := of_guard hs
      exact h.navigate fun _ => exists_of_head hhead (by simp)
  | help =>
      obtain ⟨hhead, rfl⟩ := of_guard hs
      exact h.help hhead
  | start =>
      obtain ⟨-, rfl⟩ := of_guard hs
      exact h
  | back =>
      rw [App.step] at hs
      split at hs
      · rename_i r₀ r rs hroutes
        obtain rfl := Option.some_inj.1 hs
        refine h.navigate fun ⟨r', hmem, hne⟩ => ⟨r', ?_, hne⟩
        rw [hroutes]
        exact List.mem_cons_of_mem r₀ hmem
      · exact absurd hs (by simp)
  | drawer item =>
      rw [App.step] at hs
      split at hs
      · rename_i r rs hroutes
        split at hs
        · exact absurd hs (by simp)
        · rename_i hne
          obtain rfl := Option.some_inj.1 hs
          refine h.navigate fun _ => ⟨r, ?_, hne⟩
          rw [hroutes]
          exact List.mem_cons_self ..
      · exact absurd hs (by simp)
  | finish =>
      rw [App.step] at hs
      split at hs
      · rename_i rs hroutes
        obtain rfl := Option.some_inj.1 hs
        exact h.navigate fun _ => exists_of_head (r := .quiz) (by rw [hroutes]; rfl) (by simp)
      · exact absurd hs (by simp)
  | again =>
      rw [App.step] at hs
      split at hs
      · rename_i rs hroutes
        obtain rfl := Option.some_inj.1 hs
        exact h.navigate fun _ => exists_of_head (r := .thankYou) (by rw [hroutes]; rfl) (by simp)
      · exact absurd hs (by simp)

/-- **The invariant holds in every run.** -/
theorem inv_of_run {tr : List (Move App Event)} (h : Run step {} tr app) : Inv app :=
  Run.invariant (I := fun _ app => Inv app) inv_initial (fun _ _ _ _ _ ih hs => ih.step hs) h

/-! ### The quiz -/

/-- The empty string is not the text of a list. -/
theorem encode_ne_nil (l : List Str) : Json.encode l ≠ [] := by
  intro hnil
  have h := Json.decode_encode l
  rw [hnil] at h
  exact absurd h (by simp)

/-- **The quiz finds the list of the latest download exactly when that download had something to
record and Help has not been pressed since.**  In every run over launches, setups and presses, when
the quiz is on the screen and Start can be pressed: the stored text is that of the non-empty list
recorded by the latest completed download, and `getIm` returns this list, if and only if the archive
of that download had an entry and Help has not been pressed after it.

Launches, Next and Help are completed operations here.  For a process in which they are suspended
and killed see `Process.served_iff_not_blanked`. -/
theorem served_iff {tr : List (Move App Event)} (h : Run step {} tr app)
    (hq : app.routes.head? = some .quiz) :
    Served app ↔ (∃ S, app.latest = some S ∧ S.archive ≠ []) ∧ app.helped = false := by
  have hgood := (inv_of_run h).beyond (exists_of_head hq (by simp))
  constructor
  · rintro ⟨S, hS, hne, hnames, -⟩
    rcases hgood with ⟨hhelp, T, hT, hlen, -⟩ | ⟨-, hempty, -⟩
    · obtain rfl := Option.some_inj.1 (hS.symm.trans hT)
      refine ⟨⟨S, hS, fun hnil => hne ?_⟩, hhelp⟩
      rwa [← List.length_eq_zero_iff, ← hlen, List.length_eq_zero_iff]
    · have hnil := Option.some_inj.1 (hnames.symm.trans hempty)
      exact absurd hnil (encode_ne_nil S.images)
  · rintro ⟨⟨S, hS, hne⟩, hhelp⟩
    rcases hgood with ⟨-, T, hT, hlen, hstored⟩ | ⟨hhelp', -⟩
    · obtain rfl := Option.some_inj.1 (hS.symm.trans hT)
      have himages : S.images ≠ [] := by
        intro hnil
        rw [← List.length_eq_zero_iff, ← hlen, List.length_eq_zero_iff] at hnil
        exact hne hnil
      have hnames := hstored himages
      refine ⟨S, hS, himages, hnames, ?_⟩
      rw [getIm, hnames, Option.bind_some, Json.decode_encode]
    · exact absurd (hhelp.symm.trans hhelp') (by simp)

end

/-- A first launch and the setup with an archive of one logo. -/
def firstSetup : List Event :=
  [.launch, .setup .press, .setup (.reply .done), .setup (.reply .done),
    .setup (.reply (.decoded [⟨['A', '.', 'p', 'n', 'g'], true⟩])), .setup (.reply .done),
    .setup (.reply .done), .setup (.reply .done), .setup (.reply .done), .setup (.reply .done),
    .next]

theorem served_iff_firstSetup :
    ∃ tr app, Run step {} tr app ∧ app.routes.head? = some .quiz ∧ Served app := by
  have hexec : (exec step {} (firstSetup ++ [.play])).map
      (fun app => (app.routes.head?, app.latest.map Setup.archive, app.helped)) =
        some (some .quiz, some [⟨['A', '.', 'p', 'n', 'g'], true⟩], false) := by
    decide
  obtain ⟨tr, app, hrun, hfields, -⟩ := exists_run_of_exec hexec
  obtain ⟨hhead, hrest⟩ := Prod.mk.inj hfields
  obtain ⟨hlatest, hhelp⟩ := Prod.mk.inj hrest
  obtain ⟨S, hS, harchive⟩ := Option.map_eq_some_iff.1 hlatest
  exact ⟨tr, app, hrun, hhead, (served_iff hrun hhead).2 ⟨⟨S, hS, by simp [harchive]⟩, hhelp⟩⟩

/-- After the setup Help is pressed on the home page, and then Play: the quiz finds the empty
string. -/
theorem not_served_after_help :
    ¬ ∀ tr app, Run step {} tr app → app.routes.head? = some .quiz → Served app := by
  intro hall
  have hexec : (exec step {} (firstSetup ++ [.help, .back, .play])).map
      (fun app => (app.routes.head?, app.prefs.names)) = some (some .quiz, some []) := by
    decide
  obtain ⟨tr, app, hrun, hfields, -⟩ := exists_run_of_exec hexec
  obtain ⟨hhead, hnames⟩ := Prod.mk.inj hfields
  obtain ⟨S, -, -, hstored, -⟩ := hall tr app hrun hhead
  exact encode_ne_nil S.images (Option.some_inj.1 (hstored.symm.trans hnames))

end App

end LogoGuess
