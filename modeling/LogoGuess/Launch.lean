/-
**Launching the app.**

This module transcribes `increment_counttimes` and the choice of the first screen in
`lib/main.dart`.  A launch counts itself under the key `number` and, if it is the first one, sets
the key `check` to `0`; the setup screen sets `check` to `1` and the Help button resets `number`.
The two writes of a launch are awaited one after the other, and the process may be killed in
between.  Then the launch has been counted but `check` still has the value of some earlier time.

A launch selects its screen here when it has come to its end.  What the splash screen is followed by
when it does not last that long, or when an `await` fails, is a matter of `LogoGuess.Process`.

Main definitions:

* `LogoGuess.Prefs` — the stored preferences;
* `LogoGuess.Launch.Stage` — the points at which `increment_counttimes` can be interrupted;
* `LogoGuess.Launch.step` — launches, their resumptions and their kills, Next and Help;
* `LogoGuess.Launch.Torn` — a kill that leaves the two keys out of step.

Main results:

* `LogoGuess.Launch.exec_launch` — a launch that is not killed has the effect of `completed`;
* `LogoGuess.Launch.gated_of_run` — the invariant of the two keys;
* `LogoGuess.Launch.Torn.selects_home` — the launch after a torn one selects the home page;
* `LogoGuess.Launch.home_only_after_next` — **without torn launches the home page is selected only
  after the setup**.
-/

import LogoGuess.EventLoop
import LogoGuess.DartString

set_option relaxedAutoImplicit false
set_option autoImplicit false

namespace LogoGuess

open Dart EventLoop

/-- **The stored preferences**: the keys `number`, `check` and `names`. -/
structure Prefs where
  number : Option ℤ := none
  check : Option ℤ := none
  names : Option Str := none
  deriving DecidableEq

/-- What the handler of the Next button on the setup screen stores. -/
def Prefs.next (p : Prefs) : Prefs := { p with check := some 1 }

/-- What the handler of the Help button on the home page stores. -/
def Prefs.help (p : Prefs) : Prefs := { p with number := some 0, names := some [] }

namespace Launch

/-! ### Counting the launches -/

/-- The screens that a launch can select. -/
inductive Screen where
  | iDownload
  | myHomePage
  deriving DecidableEq

/-- `get_counttimes`, once the preferences are there. -/
def getCounttimes (p : Prefs) : ℤ := p.number.getD 0

/-- The parameter `nextScreen` of the splash screen, by the fields of `_MyApplicationState`. -/
def nextScreen (check count : Option ℤ) : Screen :=
  if check = some 0 ∨ count = some 1 then .iDownload else .myHomePage

/-- **A launch that is not killed**: the preferences it leaves and the screen it selects. -/
def completed (p : Prefs) : Prefs × Screen :=
  let count := getCounttimes p + 1
  let p := { p with number := some count }
  let p := if count = 1 then { p with check := some 0 } else p
  (p, nextScreen p.check (some count))

/-- The points at which `increment_counttimes` can be interrupted.  A write is in flight until it
is complete, and the handler goes on after that. -/
inductive Stage where
  /-- `await SharedPreferences.getInstance()`. -/
  | getInstance
  /-- `await SharedPreferences.getInstance()` in `get_counttimes`. -/
  | getCounttimes
  /-- `await get_counttimes()`, which has returned. -/
  | counted (lastnumber : ℤ)
  /-- `await prefs.setInt("number", currentnumber)`, with the write in flight. -/
  | setNumber (currentnumber : ℤ)
  /-- The same `await`, with the write complete. -/
  | numberSet (currentnumber : ℤ)
  /-- `await prefs.setInt("check", 0)`, with the write in flight. -/
  | setCheck (count : ℤ)
  /-- The same `await`, with the write complete. -/
  | checkSet (count : ℤ)
  deriving DecidableEq

/-- The device: the preferences, the launch in progress, and the screen selected by the launch that
has completed last and is still running. -/
structure Device where
  prefs : Prefs := {}
  launching : Option Stage := none
  screen : Option Screen := none
  deriving DecidableEq

/-- The end of `increment_counttimes`. -/
def finish (d : Device) (count : ℤ) : Device :=
  { d with launching := none, screen := some (nextScreen d.prefs.check (some count)) }

/-- `increment_counttimes` goes on from a point of interruption to the next one. -/
def resume (d : Device) : Stage → Device
  | .getInstance => { d with launching := some .getCounttimes }
  | .getCounttimes => { d with launching := some (.counted (getCounttimes d.prefs)) }
  | .counted lastnumber => { d with launching := some (.setNumber (lastnumber + 1)) }
  | .setNumber currentnumber =>
      { d with
        prefs := { d.prefs with number := some currentnumber }
        launching := some (.numberSet currentnumber) }
  | .numberSet currentnumber =>
      if currentnumber = 1 then { d with launching := some (.setCheck currentnumber) }
      else finish d currentnumber
  | .setCheck count =>
      { d with
        prefs := { d.prefs with check := some 0 }
        launching := some (.checkSet count) }
  | .checkSet count => finish d count

/-- What can happen to the device. -/
inductive Event where
  /-- The app is launched. -/
  | launch
  /-- The launch in progress goes on. -/
  | resume
  /-- The launch in progress is killed. -/
  | kill
  /-- Next is pressed on the setup screen. -/
  | next
  /-- Help is pressed on the home page. -/
  | help
  deriving DecidableEq

/-- **One event of the device.**  Buttons can be pressed when a launch has completed. -/
def step (d : Device) : Event → Option Device
  | .launch =>
      if d.launching = none then some { d with launching := some .getInstance, screen := none }
      else none
  | .resume => d.launching.map (resume d)
  | .kill => if d.launching = none then none else some { d with launching := none }
  | .next =>
      if d.screen = none then none
      else some { d with prefs := d.prefs.next }
  | .help =>
      if d.screen = none then none
      else some { d with prefs := d.prefs.help }

/-- **A launch that is not killed** leads through its stages to the completed one. -/
theorem exec_launch {d : Device} (h : d.launching = none) :
    ∃ n, exec step d (.launch :: List.replicate n .resume) =
      some ⟨(completed d.prefs).1, none, some (completed d.prefs).2⟩ := by
  have hlaunch : step d .launch = some { d with launching := some .getInstance, screen := none } :=
    if_pos h
  by_cases hone : getCounttimes d.prefs + 1 = 1
  · refine ⟨7, ?_⟩
    rw [exec, hlaunch]
    simp [exec, step, resume, List.replicate, completed, finish, hone]
  · refine ⟨5, ?_⟩
    rw [exec, hlaunch]
    simp [exec, step, resume, List.replicate, completed, finish, hone]

/-! ### The setup and the launches after it -/

/-- Whether Next has been pressed since the installation and since Help was pressed last. -/
def setUp : List Event → Bool :=
  List.foldl (fun b e => match e with
    | .next => true
    | .help => false
    | _ => b) false

/-- **A launch is torn** when it is killed after it has counted itself as the first one and before
it has set `check` to `0`, although `check` is not `0` and there has been no setup. -/
def Torn (es : List Event) (d : Device) : Prop :=
  (d.launching = some (.numberSet 1) ∨ d.launching = some (.setCheck 1)) ∧
    d.prefs.check ≠ some 0 ∧ setUp es = false

/-- No launch of the run has been torn. -/
def Untorn (tr : List (Move Device Event)) : Prop :=
  ∀ tr₁ m tr₂, tr = tr₁ ++ m :: tr₂ → m.event = .kill → ¬ Torn (tr₁.map Move.event) m.pre

/-- The next launch would be the first one, or is kept on the setup screen by `check`. -/
def Closed (p : Prefs) : Prop := getCounttimes p = 0 ∨ p.check = some 0

/-- **The invariant of the two keys** as long as there has been no setup. -/
def Gated (d : Device) : Prop :=
  match d.launching with
  | none | some .getInstance | some .getCounttimes => Closed d.prefs
  | some (.counted lastnumber) => lastnumber = getCounttimes d.prefs ∧ Closed d.prefs
  | some (.setNumber currentnumber) =>
      currentnumber = getCounttimes d.prefs + 1 ∧ Closed d.prefs
  | some (.numberSet currentnumber) =>
      d.prefs.number = some currentnumber ∧ (currentnumber = 1 ∨ d.prefs.check = some 0)
  | some (.setCheck count) => d.prefs.number = some count ∧ count = 1
  | some (.checkSet _) => d.prefs.check = some 0

section

variable {d d' : Device} {es : List Event} {tr : List (Move Device Event)}

theorem setUp_concat (es : List Event) (e : Event) :
    setUp (es ++ [e]) = match e with
      | .next => true
      | .help => false
      | _ => setUp es := by
  rw [setUp, List.foldl_append]
  rfl

/-- Between two launches. -/
theorem gated_of_closed (hl : d.launching = none) (h : Closed d.prefs) : Gated d := by
  rw [Gated, hl]
  exact h

/-- **A launch that goes on keeps the invariant**, and if it completes it selects the setup
screen. -/
theorem Gated.resume {st : Stage} (hl : d.launching = some st) (h : Gated d) :
    Gated (resume d st) ∧
      ((resume d st).launching = none → (resume d st).screen = some .iDownload) := by
  rw [Gated, hl] at h
  have hfinish : ∀ {count : ℤ}, d.prefs.check = some 0 →
      Gated (finish d count) ∧ ((finish d count).launching = none →
        (finish d count).screen = some .iDownload) := by
    intro count hcheck
    refine ⟨gated_of_closed rfl (Or.inr hcheck), ?_⟩
    intro _
    rw [finish, nextScreen, if_pos (Or.inl hcheck)]
  cases st with
  | getInstance => exact ⟨h, fun hn => absurd hn (by simp [Launch.resume])⟩
  | getCounttimes => exact ⟨⟨rfl, h⟩, fun hn => absurd hn (by simp [Launch.resume])⟩
  | counted lastnumber =>
      exact ⟨⟨congrArg (· + 1) h.1, h.2⟩, fun hn => absurd hn (by simp [Launch.resume])⟩
  | setNumber currentnumber =>
      refine ⟨⟨rfl, ?_⟩, fun hn => absurd hn (by simp [Launch.resume])⟩
      refine h.2.imp_left ?_
      intro hzero
      rw [h.1, hzero]
      rfl
  | numberSet currentnumber =>
      obtain ⟨hnum, hone⟩ := h
      rw [Launch.resume]
      by_cases hc : currentnumber = 1
      · rw [if_pos hc]
        exact ⟨⟨hnum, hc⟩, fun hn => absurd hn (by simp)⟩
      · rw [if_neg hc]
        exact hfinish (hone.resolve_left hc)
  | setCheck count => exact ⟨rfl, fun hn => absurd hn (by simp [Launch.resume])⟩
  | checkSet count => exact hfinish h

/-- A kill keeps the invariant unless it tears the launch. -/
theorem Gated.kill (h : Gated d) (hup : setUp es = false) (ht : ¬ Torn es d) :
    Closed d.prefs := by
  have hcheck : d.launching = some (.numberSet 1) ∨ d.launching = some (.setCheck 1) →
      d.prefs.check = some 0 := by
    intro hl
    by_contra hne
    exact ht ⟨hl, hne, hup⟩
  rw [Gated] at h
  cases hl : d.launching with
  | none => rwa [hl] at h
  | some st =>
      rw [hl] at h
      cases st with
      | getInstance => exact h
      | getCounttimes => exact h
      | counted _ => exact h.2
      | setNumber _ => exact h.2
      | numberSet currentnumber =>
          rcases h.2 with rfl | h
          · exact Or.inr (hcheck (Or.inl hl))
          · exact Or.inr h
      | setCheck count =>
          obtain ⟨-, rfl⟩ := h
          exact Or.inr (hcheck (Or.inr hl))
      | checkSet _ => exact Or.inr h

/-- **A torn launch opens the home page**: the launch after it selects the home page. -/
theorem Torn.selects_home (h : Gated d) (ht : Torn es d) :
    (completed d.prefs).2 = .myHomePage := by
  obtain ⟨hl, hcheck, -⟩ := ht
  have hnum : d.prefs.number = some 1 := by
    rw [Gated] at h
    rcases hl with hl | hl
    · rw [hl] at h
      exact h.1
    · rw [hl] at h
      exact h.1
  have hcount : getCounttimes d.prefs + 1 = 2 := by
    rw [getCounttimes, hnum]
    rfl
  rw [completed, hcount]
  simp [nextScreen, hcheck]

/-- **One event keeps the invariant of the two keys.** -/
theorem gated_step {e : Event} (hs : step d e = some d')
    (hscreen : d.screen ≠ none → d.launching = none) (h : setUp es = false → Gated d)
    (ht : e = .kill → ¬ Torn es d) :
    (d'.screen ≠ none → d'.launching = none) ∧ (setUp (es ++ [e]) = false → Gated d') := by
  rw [setUp_concat]
  cases e with
  | launch =>
      obtain ⟨hl, rfl⟩ := of_guard hs
      refine ⟨fun hne => absurd rfl hne, ?_⟩
      intro hup
      have hclosed := h hup
      rwa [Gated, hl] at hclosed
  | resume =>
      obtain ⟨st, hl, rfl⟩ := Option.map_eq_some_iff.1 hs
      refine ⟨?_, fun hup => ((h hup).resume hl).1⟩
      intro hne
      -- a launch in progress has selected no screen
      have hnone : d.screen = none := by
        by_contra hsome
        exact absurd (hl.symm.trans (hscreen hsome)) (by simp)
      cases st with
      | numberSet currentnumber =>
          rw [Launch.resume] at hne ⊢
          split at hne
          · exact absurd hnone hne
          · rename_i hc
            rw [if_neg hc]
            rfl
      | checkSet count => rfl
      | _ => exact absurd hnone hne
  | kill =>
      rw [step] at hs
      split at hs
      · exact absurd hs (by simp)
      · obtain rfl := Option.some_inj.1 hs
        exact ⟨fun _ => rfl, fun hup => gated_of_closed rfl ((h hup).kill hup (ht rfl))⟩
  | next =>
      rw [step] at hs
      split at hs
      · exact absurd hs (by simp)
      · obtain rfl := Option.some_inj.1 hs
        exact ⟨hscreen, fun hup => absurd hup (by simp)⟩
  | help =>
      rw [step] at hs
      split at hs
      · exact absurd hs (by simp)
      · rename_i hne
        obtain rfl := Option.some_inj.1 hs
        exact ⟨hscreen, fun _ => gated_of_closed (hscreen hne) (Or.inl rfl)⟩

theorem Untorn.of_concat {m : Move Device Event} (h : Untorn (tr ++ [m])) : Untorn tr := by
  rintro tr₁ m' tr₂ rfl he
  exact h tr₁ m' (tr₂ ++ [m]) (by simp) he

/-- **The invariant of the two keys holds in every run without torn launches.** -/
theorem gated_of_run (h : Run step {} tr d) (hu : Untorn tr) :
    (d.screen ≠ none → d.launching = none) ∧ (setUp (tr.map Move.event) = false → Gated d) := by
  refine Run.invariant (I := fun tr d => Untorn tr → (d.screen ≠ none → d.launching = none) ∧
    (setUp (tr.map Move.event) = false → Gated d)) ?_ ?_ h hu
  · exact fun _ => ⟨fun hne => absurd rfl hne, fun _ => Or.inl rfl⟩
  · intro tr d e d' _ ih hs hu
    obtain ⟨hscreen, hgated⟩ := ih hu.of_concat
    rw [List.map_append]
    exact gated_step hs hscreen hgated fun he => hu tr ⟨d, e, d'⟩ [] rfl he

/-- **Without torn launches the home page is selected only after the setup.**  In every history in
which no launch is torn, a launch that completes selects the home page only if Next has been pressed
since the installation and since the last Help; otherwise it selects the setup screen. -/
theorem home_only_after_next (h : Run step {} tr d) (hu : Untorn tr)
    {tr₁ tr₂ : List (Move Device Event)} {m : Move Device Event} (htr : tr = tr₁ ++ m :: tr₂)
    (he : m.event = .resume) (hc : m.post.launching = none) :
    (m.post.screen = some .myHomePage → setUp (tr₁.map Move.event) = true) ∧
      (setUp (tr₁.map Move.event) = false → m.post.screen = some .iDownload) := by
  have hdown : setUp (tr₁.map Move.event) = false → m.post.screen = some .iDownload := by
    intro hup
    obtain ⟨hrun, hs⟩ := h.of_append htr
    have hu' : Untorn tr₁ := by
      rintro tr₃ m' tr₄ rfl he'
      exact hu tr₃ m' (tr₄ ++ m :: tr₂) (by simp [htr]) he'
    rw [he] at hs
    obtain ⟨st, hl, hpost⟩ := Option.map_eq_some_iff.1 hs
    rw [← hpost] at hc ⊢
    exact (((gated_of_run hrun hu').2 hup).resume hl).2 hc
  refine ⟨?_, hdown⟩
  intro hhome
  by_contra hup
  exact absurd (hhome.symm.trans (hdown (by simpa using hup))) (by simp)

/-- A single kill that does not tear its launch. -/
theorem untorn_of_kill {tr₁ tr₂ : List (Move Device Event)} {m : Move Device Event}
    (h₁ : ∀ m ∈ tr₁, m.event ≠ .kill) (h₂ : ∀ m ∈ tr₂, m.event ≠ .kill)
    (hm : ¬ Torn (tr₁.map Move.event) m.pre) : Untorn (tr₁ ++ m :: tr₂) := by
  intro tr₃ m' tr₄ htr he
  rcases List.append_eq_append_iff.1 htr with ⟨tr₅, rfl, hrest⟩ | ⟨tr₅, rfl, hrest⟩
  · cases tr₅ with
    | nil =>
        obtain rfl := (List.cons.inj hrest).1
        rwa [List.append_nil]
    | cons a tr₅ =>
        have hmem : m' ∈ tr₂ := by simp [(List.cons.inj hrest).2]
        exact absurd he (h₂ m' hmem)
  · cases tr₅ with
    | nil =>
        obtain rfl := (List.cons.inj hrest).1
        rwa [List.append_nil] at hm
    | cons a tr₅ =>
        obtain rfl := (List.cons.inj hrest).1
        exact absurd he (h₁ m' (by simp))

/-- A first launch that is killed while it is counting itself, a second one, which selects the setup
screen, the setup, and a third launch, which selects the home page. -/
theorem home_only_after_next_third :
    ∃ tr d, Run step {} tr d ∧ (∃ m ∈ tr, m.event = .kill ∧ m.pre.launching ≠ none) ∧
      Untorn tr ∧ d.screen = some .myHomePage ∧
      ∃ tr₁ m, tr = tr₁ ++ [m] ∧ setUp (tr₁.map Move.event) = true := by
  have hfirst : exec step {} (.launch :: List.replicate 3 .resume) =
      some ⟨{}, some (.setNumber 1), none⟩ := by
    decide
  have hkill : step ⟨{}, some (.setNumber 1), none⟩ .kill = some {} := by decide
  have hsecond : exec step {} ([.launch] ++ List.replicate 7 .resume ++ [.next, .launch] ++
      List.replicate 4 .resume) =
        some ⟨⟨some 2, some 1, none⟩, some (.numberSet 2), none⟩ := by
    decide
  have hlast : step ⟨⟨some 2, some 1, none⟩, some (.numberSet 2), none⟩ .resume =
      some ⟨⟨some 2, some 1, none⟩, none, some .myHomePage⟩ := by
    decide
  obtain ⟨tr₁, hrun₁, hev₁⟩ := run_of_exec hfirst
  obtain ⟨tr₂, hrun₂, hev₂⟩ := run_of_exec hsecond
  have h₁ : ∀ m ∈ tr₁, m.event ≠ .kill :=
    forall_event (P := (· ≠ .kill)) hev₁ (by simp)
  have h₂ : ∀ m ∈ tr₂, m.event ≠ .kill :=
    forall_event (P := (· ≠ .kill)) hev₂ (by simp)
  have hrun := ((hrun₁.snoc hkill).append hrun₂).snoc hlast
  rw [List.append_assoc, List.append_assoc] at hrun
  have hu : Untorn (tr₁ ++ ⟨⟨{}, some (.setNumber 1), none⟩, .kill, {}⟩ ::
      (tr₂ ++ [⟨⟨⟨some 2, some 1, none⟩, some (.numberSet 2), none⟩, .resume,
        ⟨⟨some 2, some 1, none⟩, none, some .myHomePage⟩⟩])) := by
    refine untorn_of_kill h₁ ?_ fun ht => absurd ht.1 (by decide)
    intro m hm
    rcases List.mem_append.1 hm with hm | hm
    · exact h₂ m hm
    · rw [List.mem_singleton.1 hm]
      simp
  refine ⟨_, _, hrun, ⟨_, List.mem_append_right _ (List.mem_cons_self ..), rfl, by simp⟩, hu, rfl,
    _, _, (List.append_assoc tr₁ (_ :: tr₂) _).symm, ?_⟩
  exact (home_only_after_next hrun hu (List.append_assoc tr₁ (_ :: tr₂) _).symm rfl rfl).1 rfl

/-- The first launch is killed between its two writes: the second one selects the home page, and
Next has never been pressed. -/
theorem exists_home_without_next :
    ¬ ∀ tr d, Run step {} tr d → ∀ tr₁ m tr₂, tr = tr₁ ++ m :: tr₂ → m.event = .resume →
      m.post.launching = none → m.post.screen = some .myHomePage →
      setUp (tr₁.map Move.event) = true := by
  intro hall
  have hexec : exec step {} ([.launch] ++ List.replicate 4 .resume ++ [.kill, .launch] ++
      List.replicate 4 .resume) =
        some ⟨⟨some 2, none, none⟩, some (.numberSet 2), none⟩ := by
    decide
  obtain ⟨tr₁, hrun, hev⟩ := run_of_exec hexec
  have hs : step ⟨⟨some 2, none, none⟩, some (.numberSet 2), none⟩ .resume =
      some ⟨⟨some 2, none, none⟩, none, some .myHomePage⟩ := by
    decide
  have hup := hall _ _ (hrun.snoc hs) tr₁ _ [] rfl rfl rfl rfl
  rw [hev] at hup
  exact absurd hup (by decide)

end

end Launch

end LogoGuess
