/-
**The app with interruptions.**

`LogoGuess.App` treats a launch, a press on Next and a press on Help as one event each, its setup
screen knows one press on Continue, and its process ends only between two events.  On a device the
preferences are written asynchronously, every `await` may take its time or fail, and the process may
be killed at any moment.  This module takes the handlers apart: it lets a launch fail or come too
late for the splash screen, lets Continue be pressed again, and lets the process be killed
everywhere, in the middle of a launch, of a download, of Next and of Help.

A process reads what it has written even while the write is in flight; the device keeps what has
been written when the write is complete.

Main definitions:

* `LogoGuess.Process` — the app with the text on the device, the launch in progress, the methods of
  the presses on Continue, the suspended handlers and the writes in flight;
* `LogoGuess.Process.step` — what an event does to it;
* `LogoGuess.Process.Orderly` — a launch is complete when the splash screen goes, and Continue is
  not pressed again;
* `LogoGuess.Process.Whole` — the text of the whole list of the latest completed download;
* `LogoGuess.Process.Durable` — the invariant of the store.

Main results:

* `LogoGuess.Process.durable_of_run` — **in an orderly history, whatever is killed whenever, a list
  that is not whole is kept behind the setup screen**;
* `LogoGuess.Process.getIm_whole` — so the quiz never reads a part of a list;
* `LogoGuess.Process.exists_part_of_late`, `LogoGuess.Process.exists_double_of_press` — but a launch
  that comes too late opens the home page over a part of a list, and a second press on Continue
  doubles it.
-/

import LogoGuess.App
import LogoGuess.Archive
import LogoGuess.Presses

set_option relaxedAutoImplicit false
set_option autoImplicit false

namespace LogoGuess

open Dart EventLoop

/-- Where a handler of Next or Help is suspended.  A write is in flight until it is complete, and
the handler goes on after that. -/
inductive Handler where
  /-- Next: `await SharedPreferences.getInstance()`. -/
  | nextInstance
  /-- Next: `await prefs.setInt("check", 1)`, with the write in flight. -/
  | nextCheck
  /-- The same `await`, with the write complete. -/
  | nextChecked
  /-- Help: `await SharedPreferences.getInstance()`. -/
  | helpInstance
  /-- Help: `await prefs.setInt("number", 0)`, with the write in flight. -/
  | helpNumber
  /-- The same `await`, with the write complete. -/
  | helpNumbered
  deriving DecidableEq

/-- **The app with interruptions.**  Of the preferences of `app`, the keys `number` and `check` are
those on the device, and `names` is what the process reads. -/
structure Process where
  app : App := {}
  /-- The text under `names` that has reached the device. -/
  device : Option Str := none
  /-- The value of `number` that the process reads. -/
  number : Option ℤ := none
  /-- The `increment_counttimes` in progress. -/
  launching : Option Launch.Stage := none
  /-- The fields of `_MyApplicationState`. -/
  count : Option ℤ := none
  check : Option ℤ := none
  /-- Whether `increment_counttimes` has come to its end. -/
  launched : Bool := false
  /-- Whether the splash screen is there. -/
  splash : Bool := false
  /-- The methods of the presses on Continue after the first one. -/
  later : List Methods := []
  /-- Whether Continue is on the setup screen as it was built last. -/
  built : Bool := true
  /-- The suspended handlers of Next and Help, in the order of their presses. -/
  handlers : List Handler := []
  /-- How many writes of `names` by Help are in flight.  Nobody waits for them. -/
  blanks : ℕ := 0
  /-- Whether this process has begun such a write. -/
  blanked : Bool := false

namespace Process

/-- What a kill leaves: the preferences on the device. -/
def killed (P : Process) : Process :=
  { app :=
      { P.app with prefs := { P.app.prefs with names := P.device }, routes := [], setup := none }
    device := P.device
    number := P.app.prefs.number }

/-! ### A launch -/

/-- The end of `increment_counttimes`. -/
def finish (P : Process) : Process :=
  { P with check := P.app.prefs.check, launching := none, launched := true }

/-- `increment_counttimes` goes on from a point of interruption to the next one. -/
def resume (P : Process) : Launch.Stage → Process
  | .getInstance => { P with launching := some .getCounttimes }
  | .getCounttimes => { P with launching := some (.counted (P.number.getD 0)) }
  | .counted lastnumber =>
      { P with
        number := some (lastnumber + 1)
        launching := some (.setNumber (lastnumber + 1)) }
  | .setNumber currentnumber =>
      { P with
        app := { P.app with prefs := { P.app.prefs with number := some currentnumber } }
        launching := some (.numberSet currentnumber) }
  | .numberSet currentnumber =>
      let P := { P with count := some currentnumber }
      if currentnumber = 1 then { P with launching := some (.setCheck currentnumber) }
      else P.finish
  | .setCheck count =>
      { P with
        app := { P.app with prefs := { P.app.prefs with check := some 0 } }
        launching := some (.checkSet count) }
  | .checkSet _ => P.finish

/-- **The splash screen goes.**  The screen after it depends on the fields as they are now. -/
def shown (P : Process) : Process :=
  match Launch.nextScreen P.check P.count with
  | .iDownload =>
      { P with
        app := { P.app with routes := [.iDownload], setup := some {} }
        splash := false
        later := []
        built := true }
  | .myHomePage =>
      { P with app := { P.app with routes := [.myHomePage], setup := none }, splash := false }

/-! ### Next and Help -/

/-- The `i`-th suspended handler goes on to its next `await`, or to its end. -/
def go (P : Process) (i : ℕ) : Handler → Process
  | .nextInstance => { P with handlers := P.handlers.set i .nextCheck }
  | .nextCheck =>
      { P with
        app := { P.app with prefs := P.app.prefs.next }
        handlers := P.handlers.set i .nextChecked }
  | .nextChecked =>
      { P with
        app := { P.app with routes := .myHomePage :: P.app.routes }
        handlers := P.handlers.eraseIdx i }
  | .helpInstance => { P with number := some 0, handlers := P.handlers.set i .helpNumber }
  | .helpNumber =>
      { P with
        app := { P.app with prefs := { P.app.prefs with number := some 0 } }
        handlers := P.handlers.set i .helpNumbered }
  | .helpNumbered =>
      { P with
        app :=
          { P.app with
            prefs := { P.app.prefs with names := some [] }
            routes := .help :: P.app.routes }
        handlers := P.handlers.eraseIdx i
        blanks := P.blanks + 1
        blanked := true }

/-! ### The setup screen -/

/-- The text whose write a download is waiting for. -/
def writing : Download → Option Str
  | .setString s _ _ _ => some s
  | _ => none

/-- The text that has reached the device when a download goes on from `d` to `d'`. -/
def landed (d d' : Download) : Option Str :=
  match d' with
  | .setString _ _ _ _ | .threw _ => none
  | _ => writing d

/-- The setup screen with the methods of every press. -/
def presses (P : Process) (S : Setup) : Presses := ⟨S, P.later, P.built⟩

/-- The downloads of all presses. -/
def downloads (P : Process) : List Download :=
  P.app.setup.toList.map Setup.download ++ P.later.map Methods.download

/-- The setup screen has changed from `S` to `st`, because of the event `e`. -/
def tapped (P : Process) (S : Setup) (e : Presses.Event) (st : Prefs × Presses) : Process :=
  let S₁ := (P.presses S).view e
  let S₂ := st.2.view e
  { P with
    app := { P.app.withSetup S₁ st.1 S₂ with setup := some st.2.screen }
    device := (landed S₁.download S₂.download).or P.device
    later := st.2.later
    built := st.2.built }

/-! ### Events -/

/-- What can happen to the app and its process. -/
inductive Event where
  /-- A process is started. -/
  | launch
  /-- The `increment_counttimes` in progress goes on. -/
  | resume
  /-- It ends with an exception: its `await` fails. -/
  | abort
  /-- The splash screen goes. -/
  | splash
  /-- The process ends, at any moment. -/
  | kill
  /-- Next is pressed on the setup screen. -/
  | next
  /-- Help is pressed on the home page. -/
  | help
  /-- A suspended handler goes on. -/
  | go (i : ℕ)
  /-- A suspended handler ends with an exception: its `await` fails, or its screen is gone. -/
  | fail (i : ℕ)
  /-- A write of `names` by Help reaches the device. -/
  | land
  /-- A write of `names` by the `i`-th download reaches the device before that goes on. -/
  | store (i : ℕ)
  /-- An event of the setup screen, such as a press on Continue. -/
  | setup (e : Presses.Event)
  /-- Any other event of the app. -/
  | app (e : App.Event)

/-- The events of the app that are not taken apart. -/
def plain : App.Event → Bool
  | .launch | .setup _ | .next | .help => false
  | _ => true

/-- **One event of the app with interruptions.** -/
def step (P : Process) : Event → Option Process
  | .launch =>
      if P.launching = none ∧ P.splash = false ∧ P.app.routes = [] then
        some { P with launching := some .getInstance, launched := false, splash := true }
      else none
  | .resume => P.launching.map P.resume
  | .abort => P.launching.map fun _ => { P with launching := none }
  | .splash => if P.splash = true then some P.shown else none
  | .kill => some P.killed
  | .next =>
      if P.app.routes.head? = some .iDownload ∧ P.built = false ∧
          P.app.setup.any Setup.nextEnabled then
        some { P with handlers := P.handlers ++ [.nextInstance] }
      else none
  | .help =>
      if P.app.routes.head? = some .myHomePage then
        some
          { P with
            app := { P.app with helped := true }
            handlers := P.handlers ++ [.helpInstance] }
      else none
  | .go i => P.handlers[i]?.map (P.go i)
  | .fail i =>
      if i < P.handlers.length then some { P with handlers := P.handlers.eraseIdx i } else none
  | .land =>
      if 0 < P.blanks then some { P with device := some [], blanks := P.blanks - 1 } else none
  | .store i => (P.downloads[i]?.bind writing).map fun s => { P with device := some s }
  | .setup e =>
      P.app.setup.bind fun S => (Presses.step (P.app.prefs, P.presses S) e).map (P.tapped S e)
  | .app e =>
      if plain e = true then (App.step P.app e).map fun app => { P with app := app } else none

/-- **The orderly moves**: when the splash screen goes the launch is complete, and Continue is not
pressed again. -/
def orderly (P : Process) : Event → Bool
  | .splash => P.launched
  | .setup e => P.app.setup.all fun S => (P.presses S).single e
  | _ => true

/-- **An orderly history.** -/
def Orderly (tr : List (Move Process Event)) : Prop := ∀ m ∈ tr, orderly m.pre m.event = true

/-! ### What is stored -/

/-- **The text of the whole list of the latest completed download**, unless that download had
nothing to record. -/
def Whole (latest : Option Setup) (names : Option Str) : Prop :=
  ∃ S, latest = some S ∧ S.archive.length = S.images.length ∧
    (S.images ≠ [] → names = some (Json.encode S.images))

/-- The text is not that of a part of a list. -/
def Clean (latest : Option Setup) (names : Option Str) : Prop :=
  Whole latest names ∨ names = some [] ∨ names = none

/-- No handler is suspended and no write of Help is in flight. -/
def Idle (P : Process) : Prop := P.handlers = [] ∧ P.blanks = 0

/-- **The process has got past the download**: another screen has been shown, the download is
complete, or Next or Help has been pressed. -/
def Past (P : Process) : Prop :=
  (∃ r ∈ P.app.routes, r ≠ .iDownload) ∨
    (∃ S, P.app.setup = some S ∧ S.download = .returned) ∨ ¬ Idle P

/-- What the download has stored has reached the device. -/
def Synced (S : Setup) : Prop :=
  match S.download with
  | .setString _ _ _ _ | .threw _ | .returned => False
  | _ => True

/-- **The invariant of the store in an orderly history, whatever is killed whenever.** -/
structure Durable (P : Process) : Prop where
  /-- A part of a list is kept behind the setup screen. -/
  stored : P.app.prefs.check = some 0 ∨ Clean P.app.latest P.device
  past : Past P → Clean P.app.latest P.device ∧ Clean P.app.latest P.app.prefs.names
  wf : ∀ S, P.app.setup = some S → S.Wf P.app.prefs
  /-- Until the download is complete, there is nothing but the setup screen. -/
  fresh : ∀ S, P.app.setup = some S → S.download ≠ .returned →
    ¬ Past P ∧ P.app.prefs.check = some 0
  synced : ∀ S, P.app.setup = some S → Synced S → P.device = P.app.prefs.names
  /-- Before the first screen nothing is under way. -/
  off : P.app.routes = [] → P.app.setup = none ∧ Idle P ∧ P.device = P.app.prefs.names
  splash : P.splash = true → P.app.routes = []
  launching : P.launching ≠ none → P.splash = true ∧ P.launched = false
  checkSet : ∀ n, P.launching = some (.checkSet n) → P.app.prefs.check = some 0
  /-- The fields that select the first screen, when the launch is complete. -/
  chosen : P.launched = true → P.app.routes = [] →
    P.check = P.app.prefs.check ∧ (P.count = some 1 → P.app.prefs.check = some 0)
  alone : P.later = []

theorem durable_initial : Durable {} where
  stored := Or.inr (Or.inr (Or.inr rfl))
  past _ := ⟨Or.inr (Or.inr rfl), Or.inr (Or.inr rfl)⟩
  wf := by simp
  fresh := by simp
  synced := by simp
  off _ := ⟨rfl, ⟨rfl, rfl⟩, rfl⟩
  splash _ := rfl
  launching := by simp
  checkSet := by simp
  chosen := by simp
  alone := rfl

section

variable {P P' : Process}

theorem not_past (hr : ∀ r ∈ P.app.routes, r = .iDownload)
    (hd : ∀ S, P.app.setup = some S → S.download ≠ .returned) (hi : Idle P) : ¬ Past P := by
  rintro (⟨r, hmem, hne⟩ | ⟨S, hS, hret⟩ | hbusy)
  · exact hne (hr r hmem)
  · exact hd S hS hret
  · exact hbusy hi

theorem not_past_iDownload (hr : P.app.routes = [.iDownload]) (hs : P.app.setup = some {})
    (hi : Idle P) : ¬ Past P := by
  refine not_past (by simp [hr]) ?_ hi
  intro S hS
  rw [← Option.some_inj.1 (hs.symm.trans hS)]
  simp

/-! ### Launches and kills -/

/-- **A kill** leaves what is on the device. -/
theorem Durable.killed (h : Durable P) : Durable P.killed where
  stored := h.stored
  past hp := absurd hp (not_past (by simp [Process.killed]) (by simp [Process.killed]) ⟨rfl, rfl⟩)
  wf := by simp [Process.killed]
  fresh := by simp [Process.killed]
  synced := by simp [Process.killed]
  off _ := ⟨rfl, ⟨rfl, rfl⟩, rfl⟩
  splash _ := rfl
  launching := by simp [Process.killed]
  checkSet := by simp [Process.killed]
  chosen := by simp [Process.killed]
  alone := rfl

/-- **Whatever happens before the first screen keeps the invariant**, if it leaves the list alone
and sets `check` to nothing but `0`. -/
theorem Durable.before (h : Durable P) (hr : P.app.routes = []) {p : Prefs}
    (happ : P'.app = { P.app with prefs := p }) (hnames : p.names = P.app.prefs.names)
    (hcheck : p.check = P.app.prefs.check ∨ p.check = some 0) (hdev : P'.device = P.device)
    (hidle : Idle P → Idle P') (hlater : P'.later = P.later)
    (hlaunch : P'.launching ≠ none → P'.splash = true ∧ P'.launched = false)
    (hset : ∀ n, P'.launching = some (.checkSet n) → p.check = some 0)
    (hchosen : P'.launched = true → P'.check = p.check ∧ (P'.count = some 1 → p.check = some 0)) :
    Durable P' := by
  obtain ⟨hsetup, hi, hsync⟩ := h.off hr
  have hroutes : P'.app.routes = [] := by rw [happ, hr]
  have hnone : P'.app.setup = none := by rw [happ, hsetup]
  have hlatest : P'.app.latest = P.app.latest := by rw [happ]
  have hprefs : P'.app.prefs = p := by rw [happ]
  have hpast : ¬ Past P' := not_past (by simp [hroutes]) (by simp [hnone]) (hidle hi)
  exact
    { stored := by
        rw [hprefs, hlatest, hdev]
        rcases hcheck with hcheck | hcheck
        · rw [hcheck]
          exact h.stored
        · exact Or.inl hcheck
      past := fun hp => absurd hp hpast
      wf := by simp [hnone]
      fresh := by simp [hnone]
      synced := by simp [hnone]
      off := fun _ => ⟨hnone, hidle hi, by rw [hprefs, hdev, hsync, hnames]⟩
      splash := fun _ => hroutes
      launching := hlaunch
      checkSet := by rwa [hprefs]
      chosen := fun hl _ => by
        rw [hprefs]
        exact hchosen hl
      alone := hlater.trans h.alone }

/-- The launch is complete. -/
theorem Durable.finish (h : Durable P) (hl : P.launching ≠ none) {count : Option ℤ}
    (hcount : count = some 1 → P.app.prefs.check = some 0) :
    Durable ({ P with count := count } : Process).finish :=
  h.before (h.splash (h.launching hl).1) rfl rfl (Or.inl rfl) rfl id rfl
    (fun hne => absurd rfl hne) (fun _ hn => absurd hn (by simp [Process.finish]))
    fun _ => ⟨rfl, hcount⟩

/-- **A launch that goes on keeps the invariant.** -/
theorem Durable.resume (h : Durable P) {st : Launch.Stage} (hl : P.launching = some st) :
    Durable (P.resume st) := by
  have hne : P.launching ≠ none := by simp [hl]
  obtain ⟨hsplash, hlaunched⟩ := h.launching hne
  have hr := h.splash hsplash
  have hnot : ∀ {q : Prop}, P.launched = true → q := fun hd => absurd hd (by simp [hlaunched])
  cases st with
  | getInstance =>
      exact h.before hr rfl rfl (Or.inl rfl) rfl id rfl (fun _ => ⟨hsplash, hlaunched⟩)
        (by simp [Process.resume]) hnot
  | getCounttimes =>
      exact h.before hr rfl rfl (Or.inl rfl) rfl id rfl (fun _ => ⟨hsplash, hlaunched⟩)
        (by simp [Process.resume]) hnot
  | counted lastnumber =>
      exact h.before hr rfl rfl (Or.inl rfl) rfl id rfl (fun _ => ⟨hsplash, hlaunched⟩)
        (by simp [Process.resume]) hnot
  | setNumber currentnumber =>
      exact h.before hr rfl rfl (Or.inl rfl) rfl id rfl (fun _ => ⟨hsplash, hlaunched⟩)
        (by simp [Process.resume]) hnot
  | numberSet currentnumber =>
      rw [Process.resume]
      by_cases hone : currentnumber = 1
      · rw [if_pos hone]
        exact h.before hr rfl rfl (Or.inl rfl) rfl id rfl (fun _ => ⟨hsplash, hlaunched⟩)
          (by simp) hnot
      · rw [if_neg hone]
        exact h.finish hne fun hc => absurd (Option.some_inj.1 hc) hone
  | setCheck count =>
      exact h.before hr rfl rfl (Or.inr rfl) rfl id rfl (fun _ => ⟨hsplash, hlaunched⟩)
        (fun _ _ => rfl) hnot
  | checkSet count => exact h.finish hne fun _ => h.checkSet count hl

/-- **The splash screen goes when the launch is complete**: a part of a list is kept behind the
setup screen. -/
theorem Durable.shown (h : Durable P) (hs : P.splash = true) (hl : P.launched = true) :
    Durable P.shown := by
  have hr := h.splash hs
  obtain ⟨-, hidle, hdev⟩ := h.off hr
  obtain ⟨hcheck, hcount⟩ := h.chosen hl hr
  have hnone : P.launching = none := by
    by_contra hne
    exact absurd ((h.launching hne).2.symm.trans hl) (by simp)
  have hlaunch : ∀ {q : Prop}, P.launching ≠ none → q := fun hne => absurd hnone hne
  have hset : ∀ {q : Prop} (n : ℤ), P.launching = some (.checkSet n) → q :=
    fun n hn => absurd (hnone.symm.trans hn) (by simp)
  rw [Process.shown, Launch.nextScreen]
  by_cases hscreen : P.check = some 0 ∨ P.count = some 1
  · have hzero : P.app.prefs.check = some 0 :=
      hscreen.elim (fun hc => hcheck.symm.trans hc) hcount
    rw [if_pos hscreen]
    exact
      { stored := h.stored
        past := fun hp => absurd hp (not_past_iDownload rfl rfl hidle)
        wf := fun S hS => Option.some_inj.1 hS ▸ Setup.wf_initial P.app.prefs
        fresh := fun S _ _ => ⟨not_past_iDownload rfl rfl hidle, hzero⟩
        synced := fun _ _ _ => hdev
        off := fun hr => absurd hr (by simp)
        splash := fun hs => absurd hs (by simp)
        launching := hlaunch
        checkSet := hset
        chosen := fun _ hr => absurd hr (by simp)
        alone := rfl }
  · have hclean : Clean P.app.latest P.device := by
      refine h.stored.resolve_left ?_
      rw [← hcheck]
      exact fun hc => hscreen (Or.inl hc)
    rw [if_neg hscreen]
    exact
      { stored := h.stored
        past := fun _ => ⟨hclean, hdev ▸ hclean⟩
        wf := by simp
        fresh := by simp
        synced := by simp
        off := fun hr => absurd hr (by simp)
        splash := fun hs => absurd hs (by simp)
        launching := hlaunch
        checkSet := hset
        chosen := fun _ hr => absurd hr (by simp)
        alone := h.alone }

/-! ### The download -/

theorem landed_of_writing {d d' : Download} (h : writing d = none) : landed d d' = none := by
  unfold landed
  split
  · rfl
  · rfl
  · exact h

theorem writing_of_landed {d d' : Download} {s : Str} (h : landed d d' = some s) :
    writing d = some s := by
  cases hw : writing d with
  | none => exact absurd ((landed_of_writing hw).symm.trans h) (by simp)
  | some t =>
      unfold landed at h
      split at h
      · exact absurd h (by simp)
      · exact absurd h (by simp)
      · exact hw.symm.trans h

theorem landed_self (d : Download) : landed d d = none := by
  cases d <;> rfl

/-- A write in flight is that of the text that the process reads. -/
theorem names_of_writing {p : Prefs} {S : Setup} {s : Str} (hw : S.Wf p)
    (h : writing S.download = some s) : p.names = some s ∧ S.download ≠ .returned := by
  have hstored := hw.stored
  rw [Setup.Stored] at hstored
  unfold writing at h
  split at h
  · rename_i hd
    rw [hd] at hstored
    obtain rfl := Option.some_inj.1 h
    exact ⟨by rw [hstored.2.1, hstored.1], by simp [hd]⟩
  · exact absurd h (by simp)

/-- What the download has stored reaches the device before it goes on. -/
theorem synced_of_resumes {p p' : Prefs} {S S' : Setup} (hw : S.Wf p)
    (h : Setup.Resumes p S p' S') {device : Option Str} (hd : Synced S → device = p.names)
    (hs : Synced S') : (landed S.download S'.download).or device = p'.names := by
  have hsame : writing S.download = none → Synced S →
      (landed S.download S'.download).or device = p.names := by
    intro hnone hsync
    rw [landed_of_writing hnone, Option.none_or]
    exact hd hsync
  have hlanded : ∀ {s fileName : Str} {file : Entry} {archive : List Entry},
      S.download = .setString s fileName file archive → p.names = some s :=
    fun hdown => (names_of_writing hw (by rw [hdown]; rfl)).1
  cases h with
  | failed => exact absurd hs (by simp [Synced])
  | stored => exact absurd hs (by simp [Synced])
  | finished => exact absurd hs (by simp [Synced])
  | fetched hdown => exact hsame (by simp [hdown, writing]) (by simp [Synced, hdown])
  | saved hdown => exact hsame (by simp [hdown, writing]) (by simp [Synced, hdown])
  | decoded hdown => exact hsame (by simp [hdown, writing]) (by simp [Synced, hdown])
  | created hdown => exact hsame (by simp [hdown, writing]) (by simp [Synced, hdown])
  | written hdown => exact hsame (by simp [hdown, writing]) (by simp [Synced, hdown])
  | file hdown =>
      rw [hdown, hlanded hdown]
      rfl
  | @directory _ _ _ archive hdown =>
      rw [hdown, hlanded hdown]
      cases archive <;> rfl

/-- The events of the setup screen that do not belong to the download. -/
theorem download_of_step {p p' : Prefs} {S S' : Setup} {e : Setup.Event} (hw : S.Wf p)
    (hs : Setup.step (p, S) e = some (p', S')) :
    Setup.Resumes p S p' S' ∨
      (p' = p ∧ (S'.download = S.download ∨ S.download = .idle ∧ S'.download = .get)) := by
  cases e with
  | directory path =>
      obtain ⟨-, heq⟩ := of_guard hs
      obtain ⟨rfl, rfl⟩ := Prod.mk.inj heq
      exact Or.inr ⟨rfl, Or.inl rfl⟩
  | press =>
      obtain ⟨hvis, heq⟩ := of_guard hs
      obtain ⟨rfl, rfl⟩ := Prod.mk.inj heq
      exact Or.inr ⟨rfl, Or.inr ⟨hw.waiting.1 hvis, rfl⟩⟩
  | snapshot v =>
      obtain ⟨-, heq⟩ := of_guard hs
      obtain ⟨rfl, rfl⟩ := Prod.mk.inj heq
      exact Or.inr ⟨rfl, Or.inl (Setup.download_retrieveurl S v).1⟩
  | noSnapshot =>
      obtain ⟨-, heq⟩ := of_guard hs
      obtain ⟨rfl, rfl⟩ := Prod.mk.inj heq
      exact Or.inr ⟨rfl, Or.inl rfl⟩
  | reply r => exact Or.inl (Setup.resumes_of_resume hs)

theorem synced_of_step {p p' : Prefs} {S S' : Setup} {e : Setup.Event} (hw : S.Wf p)
    (hs : Setup.step (p, S) e = some (p', S')) {device : Option Str}
    (hd : Synced S → device = p.names) (hs' : Synced S') :
    (landed S.download S'.download).or device = p'.names := by
  rcases download_of_step hw hs with hr | ⟨rfl, hdown | ⟨hidle, -⟩⟩
  · exact synced_of_resumes hw hr hd hs'
  · rw [hdown, landed_self, Option.none_or]
    refine hd ?_
    rwa [Synced, hdown] at hs'
  · rw [landed_of_writing (by simp [hidle, writing]), Option.none_or]
    exact hd (by simp [Synced, hidle])

/-- The download completes when everything has been stored. -/
theorem unarchive_of_step {p p' : Prefs} {S S' : Setup} {e : Setup.Event} (hw : S.Wf p)
    (hs : Setup.step (p, S) e = some (p', S')) (hne : S.download ≠ .returned)
    (hret : S'.download = .returned) : S.download = .unarchive ∧ p' = p := by
  have hentry : ∀ {T : Setup} {archive : List Entry},
      (T.nextEntry archive).download ≠ .returned := by
    intro T archive
    cases archive <;> simp [Setup.nextEntry]
  rcases download_of_step hw hs with hr | ⟨-, hdown | ⟨-, hget⟩⟩
  · cases hr with
    | finished h => exact ⟨h, rfl⟩
    | decoded => exact absurd hret hentry
    | written => exact absurd hret hentry
    | directory => exact absurd hret hentry
    | _ => exact absurd hret (by simp)
  · exact absurd (hdown.symm.trans hret) hne
  · exact absurd (hget.symm.trans hret) (by simp)

/-- **The process after an event of the setup screen alone.** -/
def withSetup (P : Process) (S : Setup) (p : Prefs) (S' : Setup) : Process :=
  { P with
    app := P.app.withSetup S p S'
    device := (landed S.download S'.download).or P.device }

/-- **What an event of the setup screen does**, by the state of the download before and after. -/
theorem Durable.setup_cases (h : Durable P) {S S' : Setup} {p : Prefs} {e : Setup.Event}
    (hS : P.app.setup = some S) (hs : Setup.step (P.app.prefs, S) e = some (p, S')) :
    (S.download = .returned ∧ S'.download = .returned ∧
      P.withSetup S p S' = { P with app := { P.app with setup := some S' } }) ∨
    (S.download ≠ .returned ∧ S'.download = .returned ∧
      P.withSetup S p S' =
        { P with app := { P.app with setup := some S', latest := some S', helped := false } } ∧
      P.device = P.app.prefs.names ∧ Whole (some S') P.app.prefs.names) ∨
    (S.download ≠ .returned ∧ S'.download ≠ .returned ∧
      P.withSetup S p S' = { P with
        app := { P.app with prefs := p, setup := some S' }
        device := (landed S.download S'.download).or P.device }) := by
  have hw := h.wf S hS
  have hk := Setup.kept_of_step hw hs
  rw [withSetup, App.withSetup]
  by_cases hret : S.download = .returned
  · obtain ⟨hret', hp⟩ := hk.after hret
    obtain rfl : p = P.app.prefs := hp
    rw [if_neg fun hc => hc.1 hret, landed_of_writing (by simp [hret, writing]), Option.none_or]
    exact Or.inl ⟨hret, hret', rfl⟩
  · by_cases hret' : S'.download = .returned
    · obtain ⟨hun, rfl⟩ := unarchive_of_step hw hs hret hret'
      obtain ⟨hlen, hstored⟩ := hk.completed hret hret'
      have hdev : P.device = P.app.prefs.names := h.synced S hS (by simp [Synced, hun])
      rw [if_pos ⟨hret, hret'⟩, landed_of_writing (by simp [hun, writing]), Option.none_or]
      exact Or.inr (Or.inl ⟨hret, hret', rfl, hdev, S', rfl, hlen, hstored⟩)
    · rw [if_neg fun hc => hret' hc.2]
      exact Or.inr (Or.inr ⟨hret, hret', rfl⟩)

/-- The setup screen is there, so the launch is over. -/
theorem Durable.running (h : Durable P) {S : Setup} (hS : P.app.setup = some S) :
    P.app.routes ≠ [] ∧ P.splash ≠ true ∧ P.launching = none := by
  have hroutes : P.app.routes ≠ [] := by
    intro hr
    exact absurd ((h.off hr).1.symm.trans hS) (by simp)
  refine ⟨hroutes, fun hs => hroutes (h.splash hs), ?_⟩
  by_contra hl
  exact hroutes (h.splash (h.launching hl).1)

/-- **An event of the setup screen keeps the invariant.** -/
theorem Durable.setup (h : Durable P) {S S' : Setup} {p : Prefs} {e : Setup.Event}
    (hS : P.app.setup = some S) (hs : Setup.step (P.app.prefs, S) e = some (p, S')) :
    Durable (P.withSetup S p S') := by
  have hw := h.wf S hS
  have hk := Setup.kept_of_step hw hs
  obtain ⟨hroutes, hsplash, hlaunch⟩ := h.running hS
  rcases h.setup_cases hS hs with
    ⟨hret, hret', hP⟩ | ⟨hret, hret', hP, hdev, hwhole⟩ | ⟨hret, hret', hP⟩
  · -- the download was complete before: only the screen changes
    obtain rfl : p = P.app.prefs := (hk.after hret).2
    have hclean := h.past (Or.inr (Or.inl ⟨S, hS, hret⟩))
    rw [hP]
    exact
      { stored := h.stored
        past := fun _ => hclean
        wf := fun T hT => Option.some_inj.1 hT ▸ hk.wf
        fresh := fun T hT hd => absurd (Option.some_inj.1 hT ▸ hret') hd
        synced := fun T hT hd => by
          rw [← Option.some_inj.1 hT, Synced, hret'] at hd
          exact hd.elim
        off := fun hr => absurd hr hroutes
        splash := fun hs => absurd hs hsplash
        launching := fun hl => absurd hlaunch hl
        checkSet := h.checkSet
        chosen := fun _ hr => absurd hr hroutes
        alone := h.alone }
  · -- the download is complete now
    obtain rfl : p = P.app.prefs := (unarchive_of_step hw hs hret hret').2
    have hwhole' : Whole (some S') P.device := hdev ▸ hwhole
    rw [hP]
    exact
      { stored := Or.inr (Or.inl hwhole')
        past := fun _ => ⟨Or.inl hwhole', Or.inl hwhole⟩
        wf := fun T hT => Option.some_inj.1 hT ▸ hk.wf
        fresh := fun T hT hd => absurd (Option.some_inj.1 hT ▸ hret') hd
        synced := fun _ _ _ => hdev
        off := fun hr => absurd hr hroutes
        splash := fun hs => absurd hs hsplash
        launching := fun hl => absurd hlaunch hl
        checkSet := h.checkSet
        chosen := fun _ hr => absurd hr hroutes
        alone := h.alone }
  · obtain ⟨hpast, hcheck⟩ := h.fresh S hS hret
    have hcheck' : p.check = some 0 := hk.check.trans hcheck
    have hnot : ∀ {Q : Process}, Q.app.routes = P.app.routes → Q.app.setup = some S' →
        Q.handlers = P.handlers → Q.blanks = P.blanks → ¬ Past Q := by
      intro Q hr hq hh hb hpast'
      refine hpast (hpast'.imp (fun hex => hr ▸ hex) (Or.imp ?_ ?_))
      · rintro ⟨T, hT, hd⟩
        rw [← Option.some_inj.1 (hq.symm.trans hT)] at hd
        exact absurd hd hret'
      · rw [Idle, Idle, hh, hb]
        exact id
    rw [hP]
    exact
      { stored := Or.inl hcheck'
        past := fun hp => absurd hp (hnot rfl rfl rfl rfl)
        wf := fun T hT => Option.some_inj.1 hT ▸ hk.wf
        fresh := fun _ _ _ => ⟨hnot rfl rfl rfl rfl, hcheck'⟩
        synced := fun T hT hd => synced_of_step hw hs (h.synced S hS) (Option.some_inj.1 hT ▸ hd)
        off := fun hr => absurd hr hroutes
        splash := fun hs => absurd hs hsplash
        launching := fun hl => absurd hlaunch hl
        checkSet := fun n hn => absurd (hlaunch.symm.trans hn) (by simp)
        chosen := fun _ hr => absurd hr hroutes
        alone := h.alone }

/-- The setup screen is built. -/
theorem tapped_build {S : Setup} (hS : P.app.setup = some S) (b : Bool) :
    P.tapped S .build (P.app.prefs, { P.presses S with built := b }) = { P with built := b } := by
  have happ : { P.app.withSetup S P.app.prefs S with setup := some S } = P.app := by
    rw [App.withSetup, if_neg fun hc => hc.1 hc.2, ← hS]
  change { P with
    app := { P.app.withSetup S P.app.prefs S with setup := some S }
    device := (landed S.download S.download).or P.device
    built := b } = _
  rw [happ, landed_self, Option.none_or]

/-- Something happens to the setup screen alone. -/
theorem tapped_screen (S S' : Setup) (p : Prefs) (e : Setup.Event) :
    P.tapped S (.screen e) (p, { P.presses S with screen := S' }) = P.withSetup S p S' := by
  have happ : { P.app.withSetup S p S' with setup := some S' } = P.app.withSetup S p S' := by
    rw [App.withSetup]
    split <;> rfl
  change { P with
    app := { P.app.withSetup S p S' with setup := some S' }
    device := (landed S.download S'.download).or P.device } = _
  rw [happ, withSetup]

/-- **What an orderly event of the setup screen does**: the screen is built, or something happens to
the screen alone. -/
theorem Durable.tapped_cases (h : Durable P) {S : Setup} {e : Presses.Event} {st : Prefs × Presses}
    (hS : P.app.setup = some S) (hs : Presses.step (P.app.prefs, P.presses S) e = some st)
    (ho : (P.presses S).single e = true) :
    (∃ b, P.tapped S e st = { P with built := b }) ∨
      ∃ e' p S', e = .screen e' ∧ Setup.step (P.app.prefs, S) e' = some (p, S') ∧
        P.tapped S e st = P.withSetup S p S' := by
  obtain ⟨p, T⟩ := st
  rcases Presses.setup_of_step (h.wf S hS) h.alone ho hs with
    ⟨rfl, rfl, b, rfl⟩ | ⟨e', S', rfl, hstep, rfl⟩
  · exact Or.inl ⟨b, tapped_build hS b⟩
  · exact Or.inr ⟨e', p, S', rfl, hstep, tapped_screen S S' p e'⟩

/-- The screen is built. -/
theorem Durable.build (h : Durable P) (b : Bool) : Durable { P with built := b } :=
  ⟨h.stored, h.past, h.wf, h.fresh, h.synced, h.off, h.splash, h.launching, h.checkSet, h.chosen,
    h.alone⟩

/-! ### The screens beyond the download -/

/-- A process that has got past the download has completed its launch. -/
theorem Durable.started (h : Durable P) (hp : Past P) :
    P.app.routes ≠ [] ∧ P.splash ≠ true ∧ P.launching = none ∧
      ∀ S, P.app.setup = some S → S.download = .returned := by
  have hroutes : P.app.routes ≠ [] := by
    intro hr
    obtain ⟨hsetup, hidle, -⟩ := h.off hr
    exact not_past (by simp [hr]) (by simp [hsetup]) hidle hp
  refine ⟨hroutes, fun hs => hroutes (h.splash hs), ?_, ?_⟩
  · by_contra hl
    exact hroutes (h.splash (h.launching hl).1)
  · intro S hS
    by_contra hne
    exact (h.fresh S hS hne).1 hp

/-- **Whatever happens past the download keeps the invariant**, if the text on the device and the
text that the process reads remain clean. -/
theorem Durable.of_past (h : Durable P) (hp : Past P) (hsetup : P'.app.setup = P.app.setup)
    (hdev : Clean P'.app.latest P'.device) (hnames : Clean P'.app.latest P'.app.prefs.names)
    (hroutes : P'.app.routes ≠ []) (hsplash : P'.splash = P.splash)
    (hlaunch : P'.launching = P.launching) (hlater : P'.later = P.later) : Durable P' := by
  obtain ⟨-, hgone, hnone, hret⟩ := h.started hp
  exact
    { stored := Or.inr hdev
      past := fun _ => ⟨hdev, hnames⟩
      wf := fun S hS => by
        rw [hsetup] at hS
        have hw := h.wf S hS
        refine ⟨hw.waiting, hw.done, ?_⟩
        have hs := hw.stored
        rw [Setup.Stored, hret S hS] at hs ⊢
        exact hs
      fresh := fun S hS hne => absurd (hret S (hsetup ▸ hS)) hne
      synced := fun S hS hs => by
        rw [Synced, hret S (hsetup ▸ hS)] at hs
        exact hs.elim
      off := fun hr => absurd hr hroutes
      splash := fun hs => absurd (hsplash.symm.trans hs) hgone
      launching := fun hl => absurd (hlaunch.trans hnone) hl
      checkSet := fun n hn => absurd ((hlaunch.trans hnone).symm.trans hn) (by simp)
      chosen := fun _ hr => absurd hr hroutes
      alone := hlater.trans h.alone }

/-- **The events that only change the visible route.** -/
theorem navigate_of_step {app app' : App} {e : App.Event} (hplain : plain e = true)
    (hs : App.step app e = some app') :
    ∃ routes, app' = { app with routes := routes } ∧ routes ≠ [] ∧ app.routes ≠ [] ∧
      ((∃ r ∈ routes, r ≠ .iDownload) → ∃ r ∈ app.routes, r ≠ .iDownload) := by
  have hhead : ∀ {r : Route}, app.routes.head? = some r → r ≠ .iDownload →
      app.routes ≠ [] ∧ ∃ r ∈ app.routes, r ≠ .iDownload := by
    intro r hr hne
    refine ⟨?_, r, List.mem_of_head? hr, hne⟩
    intro hnil
    simp [hnil] at hr
  cases e with
  | launch => exact absurd hplain (by simp [plain])
  | setup e => exact absurd hplain (by simp [plain])
  | next => exact absurd hplain (by simp [plain])
  | help => exact absurd hplain (by simp [plain])
  | play =>
      obtain ⟨hr, rfl⟩ := of_guard hs
      exact ⟨_, rfl, by simp, (hhead hr (by simp)).1, fun _ => (hhead hr (by simp)).2⟩
  | start =>
      obtain ⟨hr, rfl⟩ := of_guard hs
      exact ⟨_, rfl, (hhead hr (by simp)).1, (hhead hr (by simp)).1, id⟩
  | back =>
      rw [App.step] at hs
      split at hs
      · rename_i r₀ r rs hroutes
        obtain rfl := Option.some_inj.1 hs
        refine ⟨_, rfl, by simp, by simp [hroutes], ?_⟩
        rintro ⟨r', hmem, hne⟩
        rw [hroutes]
        exact ⟨r', List.mem_cons_of_mem r₀ hmem, hne⟩
      · exact absurd hs (by simp)
  | drawer item =>
      rw [App.step] at hs
      split at hs
      · rename_i r rs hroutes
        split at hs
        · exact absurd hs (by simp)
        · rename_i hne
          obtain rfl := Option.some_inj.1 hs
          exact ⟨_, rfl, by simp, by simp [hroutes], fun _ => ⟨r, by simp [hroutes], hne⟩⟩
      · exact absurd hs (by simp)
  | finish =>
      rw [App.step] at hs
      split at hs
      · rename_i rs hroutes
        obtain rfl := Option.some_inj.1 hs
        exact ⟨_, rfl, by simp, by simp [hroutes], fun _ => ⟨.quiz, by simp [hroutes]⟩⟩
      · exact absurd hs (by simp)
  | again =>
      rw [App.step] at hs
      split at hs
      · rename_i rs hroutes
        obtain rfl := Option.some_inj.1 hs
        exact ⟨_, rfl, by simp, by simp [hroutes], fun _ => ⟨.thankYou, by simp [hroutes]⟩⟩
      · exact absurd hs (by simp)

/-- Changing the visible route keeps the invariant. -/
theorem Durable.navigate (h : Durable P) {routes : List Route} (hne : routes ≠ [])
    (hne' : P.app.routes ≠ [])
    (hr : (∃ r ∈ routes, r ≠ .iDownload) → ∃ r ∈ P.app.routes, r ≠ .iDownload) :
    Durable { P with app := { P.app with routes := routes } } := by
  have hpast : Past { P with app := { P.app with routes := routes } } → Past P := Or.imp_left hr
  exact
    { stored := h.stored
      past := fun hp => h.past (hpast hp)
      wf := h.wf
      fresh := fun S hS hd => ⟨fun hp => (h.fresh S hS hd).1 (hpast hp), (h.fresh S hS hd).2⟩
      synced := h.synced
      off := fun hnil => absurd hnil hne
      splash := fun hs => absurd (h.splash hs) hne'
      launching := h.launching
      checkSet := h.checkSet
      chosen := fun _ hnil => absurd hnil hne
      alone := h.alone }

/-- A suspended handler means that the process has got past the download. -/
theorem past_of_handler {i : ℕ} {hd : Handler} (hi : P.handlers[i]? = some hd) : Past P := by
  refine Or.inr (Or.inr ?_)
  rintro ⟨hnil, -⟩
  simp [hnil] at hi

/-- **A handler of Next or Help that goes on keeps the invariant.** -/
theorem Durable.go (h : Durable P) {i : ℕ} {hd : Handler} (hi : P.handlers[i]? = some hd) :
    Durable (P.go i hd) := by
  have hp := past_of_handler hi
  obtain ⟨hdev, hnames⟩ := h.past hp
  have hroutes := (h.started hp).1
  cases hd with
  | nextInstance => exact h.of_past hp rfl hdev hnames hroutes rfl rfl rfl
  | nextCheck => exact h.of_past hp rfl hdev hnames hroutes rfl rfl rfl
  | nextChecked => exact h.of_past hp rfl hdev hnames (by simp [Process.go]) rfl rfl rfl
  | helpInstance => exact h.of_past hp rfl hdev hnames hroutes rfl rfl rfl
  | helpNumber => exact h.of_past hp rfl hdev hnames hroutes rfl rfl rfl
  | helpNumbered =>
      exact h.of_past hp rfl hdev (Or.inr (Or.inl rfl)) (by simp [Process.go]) rfl rfl rfl

/-- Next is on the screen when the download is complete. -/
theorem Durable.returned_of_next (h : Durable P)
    (hany : P.app.setup.any Setup.nextEnabled = true) :
    ∃ S, P.app.setup = some S ∧ S.download = .returned := by
  obtain ⟨S, hS, hnext⟩ := (Option.any_eq_true _ _).1 hany
  obtain ⟨hdown, hvis⟩ : S.downloading = false ∧ S.cVis = false := by
    simpa [Setup.nextEnabled] using hnext
  exact ⟨S, hS, (h.wf S hS).done hvis hdown⟩

/-- **A write in flight is that of the text that the process reads**, and the download has not come
to its end. -/
theorem Durable.exists_writing (h : Durable P) {i : ℕ} {s : Str}
    (hs : P.downloads[i]?.bind writing = some s) :
    ∃ S, P.app.setup = some S ∧ S.download ≠ .returned ∧ P.app.prefs.names = some s := by
  rw [downloads, h.alone, List.map_nil, List.append_nil] at hs
  obtain ⟨d, hd, hs⟩ := Option.bind_eq_some_iff.1 hs
  cases hS : P.app.setup with
  | none => simp [hS] at hd
  | some S =>
      obtain ⟨S', hS', rfl⟩ := List.mem_map.1 (List.mem_of_getElem? hd)
      obtain rfl : S' = S := by simpa [hS] using hS'
      obtain ⟨hnames, hne⟩ := names_of_writing (h.wf S' hS) hs
      exact ⟨S', rfl, hne, hnames⟩

/-- The text on the device is changed while the setup screen is the only one. -/
theorem Durable.store (h : Durable P) {i : ℕ} {s : Str}
    (hs : P.downloads[i]?.bind writing = some s) : Durable { P with device := some s } := by
  obtain ⟨S, hS, hne, hnames⟩ := h.exists_writing hs
  obtain ⟨hpast, hcheck⟩ := h.fresh S hS hne
  exact
    { stored := Or.inl hcheck
      past := fun hp => absurd hp hpast
      wf := h.wf
      fresh := h.fresh
      synced := fun _ _ _ => hnames.symm
      off := fun hr => ⟨(h.off hr).1, (h.off hr).2.1, hnames.symm⟩
      splash := h.splash
      launching := h.launching
      checkSet := h.checkSet
      chosen := h.chosen
      alone := h.alone }

/-- **Every orderly event keeps the invariant.** -/
theorem Durable.step (h : Durable P) {e : Event} (ho : orderly P e = true)
    (hs : Process.step P e = some P') : Durable P' := by
  have hbusy : ∀ {Q : Process}, Past P → Q.app.setup = P.app.setup → Q.app.latest = P.app.latest →
      Q.app.prefs = P.app.prefs → Q.app.routes = P.app.routes → Q.splash = P.splash →
      Q.launching = P.launching → Q.later = P.later → Clean P.app.latest Q.device → Durable Q := by
    intro Q hp hsetup hlatest hprefs hroutes hsplash hlaunch hlater hdev
    refine h.of_past hp hsetup (hlatest ▸ hdev) ?_ ?_ hsplash hlaunch hlater
    · rw [hlatest, hprefs]
      exact (h.past hp).2
    · rw [hroutes]
      exact (h.started hp).1
  cases e with
  | launch =>
      obtain ⟨⟨hl, hsplash, hr⟩, rfl⟩ := of_guard hs
      exact h.before hr rfl rfl (Or.inl rfl) rfl id rfl (fun _ => ⟨rfl, rfl⟩) (by simp) (by simp)
  | resume =>
      obtain ⟨st, hl, rfl⟩ := Option.map_eq_some_iff.1 hs
      exact h.resume hl
  | abort =>
      obtain ⟨st, hl, rfl⟩ := Option.map_eq_some_iff.1 hs
      have hr := h.splash (h.launching (by simp [hl])).1
      exact h.before hr rfl rfl (Or.inl rfl) rfl id rfl (fun hne => absurd rfl hne) (by simp)
        fun hl => h.chosen hl hr
  | splash =>
      obtain ⟨hsplash, rfl⟩ := of_guard hs
      exact h.shown hsplash ho
  | kill =>
      obtain rfl := Option.some_inj.1 hs
      exact h.killed
  | next =>
      obtain ⟨⟨-, -, hany⟩, rfl⟩ := of_guard hs
      have hp : Past P := Or.inr (Or.inl (h.returned_of_next hany))
      exact hbusy hp rfl rfl rfl rfl rfl rfl rfl (h.past hp).1
  | help =>
      obtain ⟨hhead, rfl⟩ := of_guard hs
      have hp : Past P := Or.inl ⟨_, List.mem_of_head? hhead, by simp⟩
      exact hbusy hp rfl rfl rfl rfl rfl rfl rfl (h.past hp).1
  | go i =>
      obtain ⟨hd, hi, rfl⟩ := Option.map_eq_some_iff.1 hs
      exact h.go hi
  | fail i =>
      obtain ⟨hlt, rfl⟩ := of_guard hs
      have hp : Past P := past_of_handler (List.getElem?_eq_getElem hlt)
      exact hbusy hp rfl rfl rfl rfl rfl rfl rfl (h.past hp).1
  | land =>
      obtain ⟨hpos, rfl⟩ := of_guard hs
      have hp : Past P := Or.inr (Or.inr fun hidle => by have := hidle.2; omega)
      exact hbusy hp rfl rfl rfl rfl rfl rfl rfl (Or.inr (Or.inl rfl))
  | store i =>
      obtain ⟨s, hw, rfl⟩ := Option.map_eq_some_iff.1 hs
      exact h.store hw
  | setup e =>
      obtain ⟨S, hS, hs⟩ := Option.bind_eq_some_iff.1 hs
      obtain ⟨st, hstep, rfl⟩ := Option.map_eq_some_iff.1 hs
      have hsingle : (P.presses S).single e = true := by simpa [orderly, hS] using ho
      rcases h.tapped_cases hS hstep hsingle with ⟨b, hP⟩ | ⟨e', p, S', -, hstep', hP⟩
      · exact hP ▸ h.build b
      · exact hP ▸ h.setup hS hstep'
  | app e =>
      obtain ⟨hplain, hs⟩ := Option.ite_none_right_eq_some.1 hs
      obtain ⟨app, happ, rfl⟩ := Option.map_eq_some_iff.1 hs
      obtain ⟨routes, rfl, hne, hne', hr⟩ := navigate_of_step hplain happ
      exact h.navigate hne hne' hr

/-- **The invariant holds in every orderly history.** -/
theorem durable_of_run {tr : List (Move Process Event)} (h : Run step {} tr P)
    (ho : Orderly tr) : Durable P := by
  refine Run.invariant (I := fun tr P => Orderly tr → Durable P) (fun _ => durable_initial) ?_ h ho
  intro tr P e P' _ ih hs ho
  exact (ih fun m hm => ho m (List.mem_append_left _ hm)).step (ho ⟨P, e, P'⟩ (by simp)) hs

/-- What `getIm` returns past the download. -/
theorem Durable.getIm_eq (h : Durable P) (hq : ∃ r ∈ P.app.routes, r ≠ .iDownload) {l : List Str}
    (hl : App.getIm P.app.prefs = some l) :
    ∃ S, P.app.latest = some S ∧
      (S.archive ≠ [] → l = S.images ∧ l.length = S.archive.length) := by
  rcases (h.past (Or.inl hq)).2 with ⟨S, hS, hlen, hstored⟩ | hnil | hnone
  · refine ⟨S, hS, ?_⟩
    intro hne
    have himages : S.images ≠ [] := by
      intro hnil
      rw [← List.length_eq_zero_iff, ← hlen, List.length_eq_zero_iff] at hnil
      exact hne hnil
    rw [App.getIm, hstored himages, Option.bind_some, Json.decode_encode] at hl
    obtain rfl := Option.some_inj.1 hl
    exact ⟨rfl, hlen.symm⟩
  · rw [App.getIm, hnil, Option.bind_some] at hl
    exact absurd hl (by simp)
  · rw [App.getIm, hnone] at hl
    exact absurd hl (by simp)

end

/-- A launch that is complete after `n` resumptions, and the end of the splash screen. -/
def started (n : ℕ) : List Event := .launch :: List.replicate n .resume ++ [.splash]

/-- The setup with the given archive, when nothing fails. -/
def installed (archive : List Entry) : List Event :=
  (Setup.answered ['d'] archive).map fun e => .setup (.screen e)

/-- Next, when nothing fails. -/
def nextPressed : List Event := [.setup .build, .next, .go 0, .go 0, .go 0]

/-- The process is killed when the first of two paths has reached the device. -/
def killedHalfway : List Event :=
  started 7 ++ (installed [⟨['B'], false⟩, ⟨['A'], true⟩]).take 6 ++ [.store 0, .kill]

/-- **A launch that comes too late opens the home page over a part of a list.**  The first process
is killed in the middle of its download, and the splash screen of the second one goes before
anything has been read: the quiz finds a part of a list, and no download has been completed. -/
theorem exists_part_of_late :
    ∃ tr P, Run step {} tr P ∧ (∀ m ∈ tr, m.event ≠ .splash → orderly m.pre m.event = true) ∧
      P.app.routes.head? = some .quiz ∧ App.getIm P.app.prefs = some [['d', '/', 'B']] ∧
      P.app.latest.isNone = true := by
  have hexec : (exec (guarded step fun P e => match e with | .splash => true | e => orderly P e) {}
      (killedHalfway ++ [.launch, .splash, .app .play])).map
      (fun P => (P.app.routes.head?, App.getIm P.app.prefs, P.app.latest.isNone)) =
        some (some .quiz, some [['d', '/', 'B']], true) := by
    decide
  obtain ⟨tr, P, hrun, hfields, -⟩ := exists_run_of_exec hexec
  obtain ⟨hrun, ho⟩ := run_guarded_iff.1 hrun
  simp only [Prod.mk.injEq] at hfields
  refine ⟨tr, P, hrun, ?_, hfields⟩
  rintro ⟨Q, e, Q'⟩ hm hne
  have hg := ho _ hm
  cases e with
  | splash => exact absurd rfl hne
  | _ => exact hg

/-- Continue is pressed three times before the screen is built again, and the archive is unpacked
for the first press; then it is unpacked for the second one. -/
def pressedAgain : List Event :=
  started 7 ++ (installed [⟨['A'], true⟩]).take 2 ++
    List.replicate 2 (.setup (.screen .press)) ++ (installed [⟨['A'], true⟩]).drop 2 ++
    [Setup.Reply.done, .done, .decoded [⟨['A'], true⟩], .done].map
      (fun r => .setup (.later 0 (.reply r))) ++ nextPressed ++ [.app .play]

/-- **A second press on Continue doubles the list.**  The quiz finds the path of the only entry
twice. -/
theorem exists_double_of_press :
    ∃ tr P, Run step {} tr P ∧
      (∀ m ∈ tr, m.event ≠ .setup (.screen .press) → orderly m.pre m.event = true) ∧
      P.app.routes.head? = some .quiz ∧
      App.getIm P.app.prefs = some [['d', '/', 'A'], ['d', '/', 'A']] ∧
      P.app.latest.map Setup.archive = some [⟨['A'], true⟩] := by
  have hexec : (exec (guarded step fun P e => match e with | .setup _ => true | e => orderly P e) {}
      pressedAgain).map
      (fun P => (P.app.routes.head?, App.getIm P.app.prefs, P.app.latest.map Setup.archive)) =
        some (some .quiz, some [['d', '/', 'A'], ['d', '/', 'A']], some [⟨['A'], true⟩]) := by
    decide
  obtain ⟨tr, P, hrun, hfields, -⟩ := exists_run_of_exec hexec
  obtain ⟨hrun, ho⟩ := run_guarded_iff.1 hrun
  simp only [Prod.mk.injEq] at hfields
  refine ⟨tr, P, hrun, ?_, hfields⟩
  rintro ⟨Q, e, Q'⟩ hm hne
  have hg := ho _ hm
  cases e with
  | setup e =>
      -- nothing but a press on Continue can be out of order
      have hsingle : ∀ T : Presses, T.single e = true := by
        intro T
        cases e with
        | screen e =>
            cases e with
            | press => exact absurd rfl hne
            | _ => rfl
        | _ => rfl
      cases hS : Q.app.setup <;> simp [orderly, hS, hsingle]
  | _ => exact hg

end Process

end LogoGuess
