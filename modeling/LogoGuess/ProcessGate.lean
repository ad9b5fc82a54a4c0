/-
**When the quiz finds the whole list.**

That a part of a list is never read leaves open what is read.  This module follows the keys `number`
and `check` as well: in a history in which no launch is cut short between its two writes, the home
page is selected only when the whole list is on the device, and what the process reads is that list
until Help overwrites it.

Main definitions:

* `LogoGuess.Process.Torn` — a launch is cut short between its two writes;
* `LogoGuess.Process.Gate` — the invariant of the keys.

Main results:

* `LogoGuess.Process.gate_of_run` — the invariant holds in every orderly history without torn
  launches;
* `LogoGuess.Process.served_iff_not_blanked` — **the quiz finds the whole list exactly when Help has
  not overwritten it in the same process**.
-/

import LogoGuess.Process

set_option relaxedAutoImplicit false
set_option autoImplicit false

namespace LogoGuess

open Dart EventLoop

namespace Process

/-- **A launch is torn** when it is cut short here: it has counted itself as the first one, and
`check` does not say so yet. -/
def Torn (P : Process) : Prop :=
  (P.launching = some (.numberSet 1) ∨ P.launching = some (.setCheck 1)) ∧
    P.app.prefs.check ≠ some 0

/-- No launch of the history is torn, by a kill or by an exception. -/
def Untorn (tr : List (Move Process Event)) : Prop :=
  ∀ m ∈ tr, m.event = .kill ∨ m.event = .abort → ¬ Torn m.pre

/-- The process has not begun to count itself. -/
def Unread (P : Process) : Prop :=
  (P.launching = none ∧ P.splash = false ∧ P.app.routes = []) ∨
    P.launching = some .getInstance ∨ P.launching = some .getCounttimes

/-- **The invariant of the keys in an orderly history without torn launches.** -/
structure Gate (P : Process) : Prop where
  /-- The next launch selects the setup screen, or the device has the whole list. -/
  gated : Whole P.app.latest P.device ∨ Launch.Gated ⟨P.app.prefs, P.launching, none⟩
  /-- So does this one, if it is complete. -/
  chosen : P.launched = true → P.app.routes = [] →
    Whole P.app.latest P.device ∨ Launch.nextScreen P.check P.count = .iDownload
  unread : Unread P → P.number = P.app.prefs.number
  /-- Past the download the process reads the whole list until Help overwrites it. -/
  past : Past P → (P.blanked = false → Whole P.app.latest P.app.prefs.names) ∧
    (Whole P.app.latest P.device ∨ Launch.getCounttimes P.app.prefs = 0)
  /-- Help has reset `number` before it overwrites the list. -/
  numbered : .helpNumbered ∈ P.handlers ∨ 0 < P.blanks → Launch.getCounttimes P.app.prefs = 0
  blank : P.blanked = true → P.app.prefs.names = some [] ∧ P.app.routes ≠ [] ∧
    ∀ S, P.app.setup = some S → S.download = .returned

theorem gate_initial : Gate {} where
  gated := Or.inr (Or.inl rfl)
  chosen h := absurd h (by simp)
  unread _ := rfl
  past hp := absurd hp (not_past (by simp) (by simp) ⟨rfl, rfl⟩)
  numbered h := absurd h (by simp)
  blank h := absurd h (by simp)

section

variable {P P' : Process}

/-! ### Launches and kills -/

/-- What is left of a launch that has been cut short without being torn. -/
theorem closed_of_untorn (hg : Launch.Gated ⟨P.app.prefs, P.launching, none⟩) (ht : ¬ Torn P) :
    Launch.Closed P.app.prefs :=
  Launch.Gated.kill hg (rfl : Launch.setUp [] = false) fun hd => ht ⟨hd.1, hd.2.1⟩

/-- **A kill that does not tear the launch keeps the gate.** -/
theorem Gate.killed (h : Gate P) (ht : ¬ Torn P) : Gate P.killed where
  gated := h.gated.imp_right fun hg =>
    Launch.gated_of_closed rfl (closed_of_untorn (P := P) hg ht)
  chosen hl := absurd hl (by simp [Process.killed])
  unread _ := rfl
  past hp := absurd hp (not_past (by simp [Process.killed]) (by simp [Process.killed]) ⟨rfl, rfl⟩)
  numbered hor := absurd hor (by simp [Process.killed])
  blank hb := absurd hb (by simp [Process.killed])

/-- **Whatever happens before the first screen keeps the gate**, if it keeps that of the launch. -/
theorem Gate.before (h : Gate P) (hd : Durable P) (hr : P.app.routes = []) {p : Prefs}
    (happ : P'.app = { P.app with prefs := p }) (hdev : P'.device = P.device)
    (hhandlers : P'.handlers = P.handlers) (hblanks : P'.blanks = P.blanks)
    (hblanked : P'.blanked = P.blanked)
    (hgated : Launch.Gated ⟨P.app.prefs, P.launching, none⟩ →
      Launch.Gated ⟨p, P'.launching, none⟩)
    (hchosen : P'.launched = true →
      Whole P.app.latest P.device ∨ Launch.nextScreen P'.check P'.count = .iDownload)
    (hunread : Unread P' → P'.number = p.number) : Gate P' := by
  obtain ⟨hsetup, ⟨hnil, hzero⟩, -⟩ := hd.off hr
  have hpast : ¬ Past P' := by
    refine not_past (by simp [happ, hr]) (by simp [happ, hsetup]) ?_
    rw [Idle, hhandlers, hblanks]
    exact ⟨hnil, hzero⟩
  have hlatest : P'.app.latest = P.app.latest := by rw [happ]
  have hprefs : P'.app.prefs = p := by rw [happ]
  exact
    { gated := by
        rw [hlatest, hdev, hprefs]
        exact h.gated.imp_right hgated
      chosen := fun hl _ => by
        rw [hlatest, hdev]
        exact hchosen hl
      unread := fun hu => by
        rw [hprefs]
        exact hunread hu
      past := fun hp => absurd hp hpast
      numbered := fun hor => absurd hor (by simp [hhandlers, hblanks, hnil, hzero])
      blank := fun hb => absurd hr (h.blank (hblanked.symm.trans hb)).2.1 }

/-- The launch is complete. -/
theorem Gate.finish (h : Gate P) (hd : Durable P) (hl : P.launching ≠ none) {count : Option ℤ}
    (hcheck : Launch.Gated ⟨P.app.prefs, P.launching, none⟩ → P.app.prefs.check = some 0) :
    Gate ({ P with count := count } : Process).finish := by
  have hsplash := (hd.launching hl).1
  refine h.before hd (hd.splash hsplash) rfl rfl rfl rfl rfl
    (fun hg => Launch.gated_of_closed rfl (Or.inr (hcheck hg))) ?_ ?_
  · intro _
    refine h.gated.imp_right ?_
    intro hg
    exact if_pos (Or.inl (hcheck hg))
  · rintro (⟨-, hs, -⟩ | hn | hn)
    · exact absurd (hs.symm.trans hsplash) (by simp)
    · exact absurd hn (by simp [Process.finish])
    · exact absurd hn (by simp [Process.finish])

/-- **A launch that goes on keeps the gate.** -/
theorem Gate.resume (h : Gate P) (hd : Durable P) {st : Launch.Stage}
    (hl : P.launching = some st) : Gate (P.resume st) := by
  have hne : P.launching ≠ none := by simp [hl]
  obtain ⟨hsplash, hlaunched⟩ := hd.launching hne
  have hr := hd.splash hsplash
  have hnot : ∀ {q : Prop}, P.launched = true → q := fun hd => absurd hd (by simp [hlaunched])
  have hresume : Launch.Gated ⟨P.app.prefs, P.launching, none⟩ →
      Launch.Gated (Launch.resume ⟨P.app.prefs, P.launching, none⟩ st) :=
    fun hg => (hg.resume (d := ⟨P.app.prefs, P.launching, none⟩) hl).1
  cases st with
  | getInstance =>
      exact h.before hd hr rfl rfl rfl rfl rfl hresume hnot
        fun _ => h.unread (Or.inr (Or.inl hl))
  | getCounttimes =>
      have hnumber : P.number.getD 0 = Launch.getCounttimes P.app.prefs := by
        rw [h.unread (Or.inr (Or.inr hl))]
        rfl
      rw [Process.resume, hnumber]
      exact h.before hd hr rfl rfl rfl rfl rfl hresume hnot fun hu => absurd hu (by simp [Unread])
  | counted lastnumber =>
      exact h.before hd hr rfl rfl rfl rfl rfl hresume hnot
        fun hu => absurd hu (by simp [Unread, Process.resume])
  | setNumber currentnumber =>
      exact h.before hd hr rfl rfl rfl rfl rfl hresume hnot
        fun hu => absurd hu (by simp [Unread, Process.resume])
  | numberSet currentnumber =>
      rw [Process.resume]
      by_cases hone : currentnumber = 1
      · rw [if_pos hone]
        rw [Launch.resume, if_pos hone] at hresume
        exact h.before hd hr rfl rfl rfl rfl rfl hresume hnot
          fun hu => absurd hu (by simp [Unread])
      · rw [if_neg hone]
        refine h.finish hd hne ?_
        intro hg
        rw [Launch.Gated, hl] at hg
        exact hg.2.resolve_left hone
  | setCheck count =>
      exact h.before hd hr rfl rfl rfl rfl rfl hresume hnot
        fun hu => absurd hu (by simp [Unread, Process.resume])
  | checkSet count => exact h.finish hd hne fun _ => hd.checkSet count hl

/-- A process that shows a screen has counted itself. -/
theorem not_unread (hr : P.app.routes ≠ []) (hl : P.launching = none) : ¬ Unread P := by
  rintro (⟨-, -, hnil⟩ | hn | hn)
  · exact hr hnil
  · exact absurd (hl.symm.trans hn) (by simp)
  · exact absurd (hl.symm.trans hn) (by simp)

/-- **The splash screen goes**: the home page is shown only when the device has the whole list. -/
theorem Gate.shown (h : Gate P) (hd : Durable P) (hs : P.splash = true) (hl : P.launched = true) :
    Gate P.shown := by
  have hr := hd.splash hs
  obtain ⟨-, ⟨hnil, hzero⟩, hdev⟩ := hd.off hr
  have hblank : P.blanked ≠ true := fun hb => (h.blank hb).2.1 hr
  have hnumbered : ∀ {k : ℤ}, .helpNumbered ∈ P.handlers ∨ 0 < P.blanks → k = 0 :=
    fun hor => absurd hor (by simp [hnil, hzero])
  have hnone : P.launching = none := by
    by_contra hne
    exact absurd ((hd.launching hne).2.symm.trans hl) (by simp)
  rw [Process.shown]
  cases hscreen : Launch.nextScreen P.check P.count with
  | iDownload =>
      exact
        { gated := h.gated
          chosen := fun _ hr => absurd hr (by simp)
          unread := fun hu => absurd hu (not_unread (by simp) hnone)
          past := fun hp => absurd hp (not_past_iDownload rfl rfl ⟨hnil, hzero⟩)
          numbered := hnumbered
          blank := fun hb => absurd hb hblank }
  | myHomePage =>
      have hwhole : Whole P.app.latest P.device :=
        (h.chosen hl hr).resolve_right (by simp [hscreen])
      exact
        { gated := Or.inl hwhole
          chosen := fun _ hr => absurd hr (by simp)
          unread := fun hu => absurd hu (not_unread (by simp) hnone)
          past := fun _ => ⟨fun _ => hdev ▸ hwhole, Or.inl hwhole⟩
          numbered := hnumbered
          blank := fun hb => absurd hb hblank }

/-! ### The other events -/

/-- **An event of the setup screen keeps the gate.** -/
theorem Gate.setup (h : Gate P) (hd : Durable P) {S S' : Setup} {p : Prefs} {e : Setup.Event}
    (hS : P.app.setup = some S) (hs : Setup.step (P.app.prefs, S) e = some (p, S')) :
    Gate (P.withSetup S p S') := by
  have hk := Setup.kept_of_step (hd.wf S hS) hs
  have hd' := hd.setup hS hs
  obtain ⟨hroutes, -, hlaunch⟩ := hd.running hS
  have hunread : ¬ Unread P := not_unread hroutes hlaunch
  -- until the download is complete Help has not been pressed
  have hearly : S.download ≠ .returned → P.blanked ≠ true ∧
      ¬ (.helpNumbered ∈ P.handlers ∨ 0 < P.blanks) := by
    intro hret
    have hidle : Idle P := by
      by_contra hbusy
      exact (hd.fresh S hS hret).1 (Or.inr (Or.inr hbusy))
    refine ⟨fun hb => hret ((h.blank hb).2.2 S hS), ?_⟩
    obtain ⟨hnil, hzero⟩ := hidle
    simp [hnil, hzero]
  rcases hd.setup_cases hS hs with
    ⟨hret, hret', hP⟩ | ⟨hret, hret', hP, hdev, hwhole⟩ | ⟨hret, hret', hP⟩
  · obtain rfl : p = P.app.prefs := (hk.after hret).2
    rw [hP]
    exact
      { gated := h.gated
        chosen := fun _ hr => absurd hr hroutes
        unread := fun hu => absurd hu hunread
        past := fun _ => h.past (Or.inr (Or.inl ⟨S, hS, hret⟩))
        numbered := h.numbered
        blank := fun hb =>
          ⟨(h.blank hb).1, (h.blank hb).2.1, fun T hT => Option.some_inj.1 hT ▸ hret'⟩ }
  · obtain ⟨hblank, hnumbered⟩ := hearly hret
    have hwhole' : Whole (some S') P.device := hdev ▸ hwhole
    rw [hP]
    exact
      { gated := Or.inl hwhole'
        chosen := fun _ hr => absurd hr hroutes
        unread := fun hu => absurd hu hunread
        past := fun _ => ⟨fun _ => hwhole, Or.inl hwhole'⟩
        numbered := fun hor => absurd hor hnumbered
        blank := fun hb => absurd hb hblank }
  · obtain ⟨hblank, hnumbered⟩ := hearly hret
    have hcheck : p.check = some 0 := hk.check.trans (hd.fresh S hS hret).2
    rw [hP] at hd' ⊢
    exact
      { gated := Or.inr (Launch.gated_of_closed hlaunch (Or.inr hcheck))
        chosen := fun _ hr => absurd hr hroutes
        unread := fun hu => absurd hu hunread
        past := fun hp => absurd hp (hd'.fresh S' rfl hret').1
        numbered := fun hor => absurd hor hnumbered
        blank := fun hb => absurd hb hblank }

/-- **Whatever changes nothing that has been read or stored past the download keeps the gate.** -/
theorem Gate.of_past (h : Gate P) (hd : Durable P) (hp : Past P) (happ : ∃ r b,
      P'.app = { P.app with routes := r, helped := b } ∧ r ≠ [])
    (hlaunch : P'.launching = P.launching)
    (hdev : P'.device = P.device ∨ Launch.getCounttimes P.app.prefs = 0)
    (hblanked : P'.blanked = P.blanked)
    (hnumbered : .helpNumbered ∈ P'.handlers ∨ 0 < P'.blanks →
      .helpNumbered ∈ P.handlers ∨ 0 < P.blanks) : Gate P' := by
  obtain ⟨-, -, hnone, hret⟩ := hd.started hp
  obtain ⟨hnames, hzero⟩ := h.past hp
  obtain ⟨r, b, happ, hr⟩ := happ
  have hroutes : P'.app.routes ≠ [] := by rwa [happ]
  have hwhole : Whole P.app.latest P'.device ∨ Launch.getCounttimes P.app.prefs = 0 := by
    rcases hdev with hdev | hdev
    · rwa [hdev]
    · exact Or.inr hdev
  exact
    { gated := by
        rw [happ, hlaunch]
        exact hwhole.imp_right fun hz => Launch.gated_of_closed hnone (Or.inl hz)
      chosen := fun _ hnil => absurd hnil hroutes
      unread := fun hu => absurd hu (not_unread hroutes (hlaunch.trans hnone))
      past := fun _ => by
        rw [happ, hblanked]
        exact ⟨hnames, hwhole⟩
      numbered := fun hor => by
        rw [happ]
        exact h.numbered (hnumbered hor)
      blank := fun hb => by
        refine ⟨?_, hroutes, ?_⟩
        · rw [happ]
          exact (h.blank (hblanked.symm.trans hb)).1
        · rw [happ]
          exact hret }

/-- **A handler of Next or Help that goes on keeps the gate.** -/
theorem Gate.go (h : Gate P) (hd : Durable P) {i : ℕ} {hdl : Handler}
    (hi : P.handlers[i]? = some hdl) : Gate (P.go i hdl) := by
  have hp := past_of_handler hi
  obtain ⟨hroutes, -, hlaunch, hret⟩ := hd.started hp
  obtain ⟨hnames, hdev⟩ := h.past hp
  -- no handler is made to wait for the second write of Help but by the first one
  have hset : ∀ {x : Handler}, x ≠ .helpNumbered → .helpNumbered ∈ P.handlers.set i x →
      .helpNumbered ∈ P.handlers := by
    intro x hx hmem
    exact (List.mem_or_eq_of_mem_set hmem).resolve_right hx.symm
  have herase : .helpNumbered ∈ P.handlers.eraseIdx i → .helpNumbered ∈ P.handlers :=
    fun hmem => List.mem_of_mem_eraseIdx hmem
  have hchosen : ∀ {Q : Process}, Q.app.routes = P.app.routes → Q.launched = true →
      Q.app.routes = [] → Whole Q.app.latest Q.device ∨
        Launch.nextScreen Q.check Q.count = .iDownload :=
    fun hq _ hnil => absurd (hq.symm.trans hnil) hroutes
  have hunread : ∀ {Q : Process} {q : Prop}, Q.app.routes = P.app.routes →
      Q.launching = P.launching → Unread Q → q :=
    fun hq hl hu => absurd hu (not_unread (hq ▸ hroutes) (hl.trans hlaunch))
  cases hdl with
  | nextInstance =>
      exact h.of_past hd hp ⟨_, _, rfl, hroutes⟩ rfl (Or.inl rfl) rfl
        (Or.imp_left (hset (by simp)))
  | nextCheck =>
      exact
        { gated := hdev.imp_right fun hzero => Launch.gated_of_closed hlaunch (Or.inl hzero)
          chosen := hchosen rfl
          unread := hunread rfl rfl
          past := fun _ => h.past hp
          numbered := fun hor => h.numbered (hor.imp_left (hset (by simp)))
          blank := h.blank }
  | nextChecked =>
      exact h.of_past hd hp ⟨.myHomePage :: P.app.routes, _, rfl, by simp⟩ rfl (Or.inl rfl) rfl
        (Or.imp_left herase)
  | helpInstance =>
      exact h.of_past hd hp ⟨_, _, rfl, hroutes⟩ rfl (Or.inl rfl) rfl
        (Or.imp_left (hset (by simp)))
  | helpNumber =>
      exact
        { gated := Or.inr (Launch.gated_of_closed hlaunch (Or.inl rfl))
          chosen := hchosen rfl
          unread := hunread rfl rfl
          past := fun _ => ⟨hnames, Or.inr rfl⟩
          numbered := fun _ => rfl
          blank := h.blank }
  | helpNumbered =>
      have hzero := h.numbered (Or.inl (List.mem_of_getElem? hi))
      exact
        { gated := Or.inr (Launch.gated_of_closed hlaunch (Or.inl hzero))
          chosen := fun _ hnil => absurd hnil (by simp [Process.go])
          unread := fun hu => absurd hu (not_unread (by simp [Process.go]) hlaunch)
          past := fun _ => ⟨fun hb => absurd hb (by simp [Process.go]), Or.inr hzero⟩
          numbered := fun _ => hzero
          blank := fun _ => ⟨rfl, by simp [Process.go], hret⟩ }

/-- **Every orderly event that does not tear a launch keeps the gate.** -/
theorem Gate.step (h : Gate P) (hd : Durable P) {e : Event} (ho : orderly P e = true)
    (ht : e = .kill ∨ e = .abort → ¬ Torn P) (hs : Process.step P e = some P') : Gate P' := by
  cases e with
  | launch =>
      obtain ⟨⟨hl, hsplash, hr⟩, rfl⟩ := of_guard hs
      refine h.before hd hr rfl rfl rfl rfl rfl ?_ (by simp)
        fun _ => h.unread (Or.inl ⟨hl, hsplash, hr⟩)
      intro hg
      rw [Launch.Gated, hl] at hg
      exact hg
  | resume =>
      obtain ⟨st, hl, rfl⟩ := Option.map_eq_some_iff.1 hs
      exact h.resume hd hl
  | abort =>
      obtain ⟨st, hl, rfl⟩ := Option.map_eq_some_iff.1 hs
      obtain ⟨hsplash, hlaunched⟩ := hd.launching (by simp [hl])
      refine h.before hd (hd.splash hsplash) rfl rfl rfl rfl rfl
        (fun hg => Launch.gated_of_closed rfl (closed_of_untorn hg (ht (Or.inr rfl))))
        (fun hd => absurd hd (by simp [hlaunched])) ?_
      rintro (⟨-, hs, -⟩ | hn | hn)
      · exact absurd (hs.symm.trans hsplash) (by simp)
      · exact absurd hn (by simp)
      · exact absurd hn (by simp)
  | splash =>
      obtain ⟨hsplash, rfl⟩ := of_guard hs
      exact h.shown hd hsplash ho
  | kill =>
      obtain rfl := Option.some_inj.1 hs
      exact h.killed (ht (Or.inl rfl))
  | next =>
      obtain ⟨⟨-, -, hany⟩, rfl⟩ := of_guard hs
      have hp : Past P := Or.inr (Or.inl (hd.returned_of_next hany))
      exact h.of_past hd hp ⟨_, _, rfl, (hd.started hp).1⟩ rfl (Or.inl rfl) rfl
        fun hor => by simpa using hor
  | help =>
      obtain ⟨hhead, rfl⟩ := of_guard hs
      have hp : Past P := Or.inl ⟨_, List.mem_of_head? hhead, by simp⟩
      exact h.of_past hd hp ⟨_, true, rfl, (hd.started hp).1⟩ rfl (Or.inl rfl) rfl
        fun hor => by simpa using hor
  | go i =>
      obtain ⟨hdl, hi, rfl⟩ := Option.map_eq_some_iff.1 hs
      exact h.go hd hi
  | fail i =>
      obtain ⟨hlt, rfl⟩ := of_guard hs
      have hp : Past P := past_of_handler (List.getElem?_eq_getElem hlt)
      exact h.of_past hd hp ⟨_, _, rfl, (hd.started hp).1⟩ rfl (Or.inl rfl) rfl
        (Or.imp_left List.mem_of_mem_eraseIdx)
  | land =>
      obtain ⟨hpos, rfl⟩ := of_guard hs
      have hp : Past P := Or.inr (Or.inr fun hidle => by have := hidle.2; omega)
      exact h.of_past hd hp ⟨_, _, rfl, (hd.started hp).1⟩ rfl
        (Or.inr (h.numbered (Or.inr hpos))) rfl fun _ => Or.inr hpos
  | store i =>
      obtain ⟨s, hw, rfl⟩ := Option.map_eq_some_iff.1 hs
      obtain ⟨S, hS, hne, -⟩ := hd.exists_writing hw
      obtain ⟨hpast, hcheck⟩ := hd.fresh S hS hne
      obtain ⟨hroutes, -, hlaunch⟩ := hd.running hS
      exact
        { gated := Or.inr (Launch.gated_of_closed hlaunch (Or.inr hcheck))
          chosen := fun _ hr => absurd hr hroutes
          unread := h.unread
          past := fun hp => absurd hp hpast
          numbered := h.numbered
          blank := h.blank }
  | setup e =>
      obtain ⟨S, hS, hs⟩ := Option.bind_eq_some_iff.1 hs
      obtain ⟨st, hstep, rfl⟩ := Option.map_eq_some_iff.1 hs
      have hsingle : (P.presses S).single e = true := by simpa [orderly, hS] using ho
      rcases hd.tapped_cases hS hstep hsingle with ⟨b, hP⟩ | ⟨e', p, S', -, hstep', hP⟩
      · rw [hP]
        exact ⟨h.gated, h.chosen, h.unread, h.past, h.numbered, h.blank⟩
      · rw [hP]
        exact h.setup hd hS hstep'
  | app e =>
      obtain ⟨hplain, hs⟩ := Option.ite_none_right_eq_some.1 hs
      obtain ⟨app, happ, rfl⟩ := Option.map_eq_some_iff.1 hs
      obtain ⟨routes, rfl, hne, hne', hr⟩ := navigate_of_step hplain happ
      exact
        { gated := h.gated
          chosen := fun _ hnil => absurd hnil hne
          unread := fun hu => h.unread (hu.imp_left fun hu => absurd hu.2.2 hne)
          past := fun hp => h.past (hp.imp_left hr)
          numbered := h.numbered
          blank := fun hb => ⟨(h.blank hb).1, hne, (h.blank hb).2.2⟩ }

theorem gate_of_run {tr : List (Move Process Event)} (h : Run step {} tr P) (ho : Orderly tr)
    (hu : Untorn tr) : Gate P := by
  refine Run.invariant (I := fun tr P => Orderly tr → Untorn tr → Gate P)
    (fun _ _ => gate_initial) ?_ h ho hu
  intro tr P e P' hrun ih hs ho hu
  have ho' : Orderly tr := fun m hm => ho m (List.mem_append_left _ hm)
  exact (ih ho' fun m hm => hu m (List.mem_append_left _ hm)).step (durable_of_run hrun ho')
    (ho ⟨P, e, P'⟩ (by simp)) (hu ⟨P, e, P'⟩ (by simp)) hs

/-- **Without torn launches the quiz finds the whole list exactly when Help has not overwritten it
in the same process.**  In every history in which a launch is complete when the splash screen goes,
Continue is pressed once on a setup screen, and no launch is cut short between the two writes of a
first one, but with kills in any other place and with exceptions at any `await` of the setup, of
Next and of Help: when a screen other than the setup screen is there, `getIm` returns the list of
the latest completed download, with something in it, if and only if the archive of that download had
an entry and Help has not come to its end since the launch. -/
theorem served_iff_not_blanked {tr : List (Move Process Event)} (h : Run step {} tr P)
    (ho : Orderly tr) (hu : Untorn tr) (hq : ∃ r ∈ P.app.routes, r ≠ .iDownload) :
    App.Served P.app ↔
      (∃ S, P.app.latest = some S ∧ S.archive ≠ []) ∧ P.blanked = false := by
  have hg := gate_of_run h ho hu
  have hlength : ∀ {S : Setup}, S.archive.length = S.images.length →
      (S.images ≠ [] ↔ S.archive ≠ []) := by
    intro S hlen
    rw [← List.length_pos_iff, ← List.length_pos_iff, hlen]
  constructor
  · rintro ⟨S, hS, hne, hnames, -⟩
    have hb : P.blanked = false := by
      by_contra hb
      have hblank := (hg.blank (by simpa using hb)).1
      exact App.encode_ne_nil S.images (Option.some_inj.1 (hnames.symm.trans hblank))
    obtain ⟨T, hT, hlen, -⟩ := (hg.past (Or.inl hq)).1 hb
    obtain rfl := Option.some_inj.1 (hS.symm.trans hT)
    exact ⟨⟨S, hS, (hlength hlen).1 hne⟩, hb⟩
  · rintro ⟨⟨S, hS, hne⟩, hb⟩
    obtain ⟨T, hT, hlen, hstored⟩ := (hg.past (Or.inl hq)).1 hb
    obtain rfl := Option.some_inj.1 (hS.symm.trans hT)
    have himages := (hlength hlen).2 hne
    have hnames := hstored himages
    refine ⟨S, hS, himages, hnames, ?_⟩
    rw [App.getIm, hnames, Option.bind_some, Json.decode_encode]

end

/-- Help is pressed, but its first write fails; the process is killed, and the next one is complete
before the splash screen goes. -/
def helpFails : List Event :=
  started 7 ++ installed [⟨['A'], true⟩] ++ nextPressed ++
    [.help, .go 0, .fail 0, .kill] ++ started 5 ++ [.app .play]

theorem served_iff_not_blanked_helpFails :
    ∃ tr P, Run step {} tr P ∧ (∃ m ∈ tr, m.event = .kill) ∧ P.app.helped = true ∧
      App.Served P.app := by
  -- the process is killed when no launch is in progress
  have hexec : (exec (guarded step fun P e =>
      orderly P e && match e with | .kill | .abort => P.launching = none | _ => true) {}
      helpFails).map
      (fun P => (P.app.routes.head?, P.app.latest.map Setup.archive, P.blanked, P.app.helped)) =
        some (some .quiz, some [⟨['A'], true⟩], false, true) := by
    decide
  obtain ⟨tr, P, hrun, hfields, hev⟩ := exists_run_of_exec hexec
  obtain ⟨hrun, hg⟩ := run_guarded_iff.1 hrun
  obtain ⟨hhead, hrest⟩ := Prod.mk.inj hfields
  obtain ⟨hlatest, hrest⟩ := Prod.mk.inj hrest
  obtain ⟨hb, hhelped⟩ := Prod.mk.inj hrest
  obtain ⟨S, hS, harchive⟩ := Option.map_eq_some_iff.1 hlatest
  have ho : Orderly tr := fun m hm => (Bool.and_eq_true_iff.1 (hg m hm)).1
  have hu : Untorn tr := by
    rintro ⟨Q, e, Q'⟩ hm he ⟨hl, -⟩
    have hnone : Q.launching = none := by
      have hlast := (Bool.and_eq_true_iff.1 (hg _ hm)).2
      rcases he with rfl | rfl
      · simpa using hlast
      · simpa using hlast
    rcases hl with hl | hl
    · exact absurd (hnone.symm.trans hl) (by simp)
    · exact absurd (hnone.symm.trans hl) (by simp)
  have hkill : ∃ m ∈ tr, m.event = .kill := by
    have hmem : Event.kill ∈ tr.map Move.event := by simp [hev, helpFails]
    simpa using hmem
  exact ⟨tr, P, hrun, hkill, hhelped, (served_iff_not_blanked hrun ho hu
    ⟨.quiz, List.mem_of_head? hhead, by simp⟩).2 ⟨⟨S, hS, by simp [harchive]⟩, hb⟩⟩

end Process

end LogoGuess
