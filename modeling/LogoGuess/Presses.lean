/-
**Several presses on Continue.**

The handler of the Continue button does not look at what an earlier press has started.  The button
is on the screen if `c_vis` was set when the screen was built last, so it can be pressed once more
before the next build; that turns `c_vis` back, and the button stays.  Every press starts
`retrieveurl` and `_downloadZip` anew, and all of them go on over the fields of one state.

`LogoGuess.Setup` has room for the methods of one press.  This module adds those of the others.

Main definitions:

* `LogoGuess.Methods` — the progress of the methods that one press has started;
* `LogoGuess.Setup.focus` — the setup screen, seen from the methods of another press;
* `LogoGuess.Presses` — the setup screen with the methods of every press;
* `LogoGuess.Presses.step` — what an event does to it;
* `LogoGuess.Presses.single` — Continue is not pressed again.

Main results:

* `LogoGuess.Setup.step_frame` — the screen writes the preferences but does not read them;
* `LogoGuess.Presses.exists_run_iff` — **as long as Continue is pressed once, the screen is that of
  `LogoGuess.Setup`**.
-/

import LogoGuess.Setup

set_option relaxedAutoImplicit false
set_option autoImplicit false

namespace LogoGuess

open Dart EventLoop

/-- **What one press on Continue has started**: the progress of the two methods, and the local
variable `archive` of `unarchiveAndSave`. -/
structure Methods where
  retrieval : Retrieval := .idle
  download : Download := .idle
  archive : List Entry := []
  deriving DecidableEq

namespace Setup

/-- The methods that the screen has room for. -/
def methods (S : Setup) : Methods := ⟨S.retrieval, S.download, S.archive⟩

/-- **The same screen with the methods of another press.**  The fields of the state are shared. -/
def focus (S : Setup) (m : Methods) : Setup :=
  { S with retrieval := m.retrieval, download := m.download, archive := m.archive }

@[simp] theorem focus_methods (S : Setup) : S.focus S.methods = S := rfl

@[simp] theorem methods_focus (S : Setup) (m : Methods) : (S.focus m).methods = m := rfl

@[simp] theorem focus_focus (S : Setup) (m m' : Methods) :
    (S.focus m).focus m' = S.focus m' := rfl

/-- The events that a method is waiting for. -/
def Event.answers : Event → Bool
  | .directory _ | .press => false
  | .snapshot _ | .noSnapshot | .reply _ => true

/-- **The screen writes the preferences but does not read them.** -/
theorem step_frame {p p' : Prefs} {S S' : Setup} {e : Event} (q : Prefs)
    (h : step (p, S) e = some (p', S')) : ∃ q', step (q, S) e = some (q', S') := by
  have hguard : ∀ {c : Prop} [Decidable c] {T : Setup},
      (if c then some (p, T) else none) = some (p', S') →
      ∃ q', (if c then some (q, T) else none) = some (q', S') := by
    intro c _ T h
    obtain ⟨hc, heq⟩ := of_guard h
    obtain ⟨-, rfl⟩ := Prod.mk.inj heq
    exact ⟨q, if_pos hc⟩
  cases e with
  | directory path => exact hguard h
  | press => exact hguard h
  | snapshot v => exact hguard h
  | noSnapshot => exact hguard h
  | reply r =>
      rw [step] at h ⊢
      cases r with
      | failed => cases hd : S.download <;> simp_all [resume]
      | decoded archive => cases hd : S.download <;> simp_all [resume]
      | done =>
          cases hd : S.download with
          | setString s fileName file archive =>
              by_cases hf : file.isFile = true <;> simp_all [resume]
          | _ => simp_all [resume]

end Setup

/-- **The setup screen with the methods of every press.** -/
structure Presses where
  /-- The fields of the state, with the methods of the first press. -/
  screen : Setup := {}
  /-- The methods of the presses after it. -/
  later : List Methods := []
  /-- Whether Continue is on the screen as it was built last. -/
  built : Bool := true

namespace Presses

/-- What can happen to the screen. -/
inductive Event where
  /-- The screen is built. -/
  | build
  /-- An event of the screen or of the first press; or Continue is pressed, for the first time or
  once more. -/
  | screen (e : Setup.Event)
  /-- The outside world answers a method of a later press. -/
  | later (i : ℕ) (e : Setup.Event)

/-- **Continue is pressed**: the handler is the same every time, but its methods are new. -/
def onPressed (T : Presses) : Presses :=
  if T.screen.download = .idle then { T with screen := T.screen.onPressed }
  else
    let S := (T.screen.focus {}).onPressed
    { T with screen := S.focus T.screen.methods, later := T.later ++ [S.methods] }

/-- The screen, seen from the press that an event belongs to. -/
def view (T : Presses) : Event → Setup
  | .later i _ => T.later[i]?.elim T.screen T.screen.focus
  | _ => T.screen

/-- **One event of the screen.** -/
def step (st : Prefs × Presses) : Event → Option (Prefs × Presses)
  | .build => some (st.1, { st.2 with built := st.2.screen.continueEnabled })
  | .screen .press => if st.2.built = true then some (st.1, st.2.onPressed) else none
  | .screen e =>
      (Setup.step (st.1, st.2.screen) e).map fun st' => (st'.1, { st.2 with screen := st'.2 })
  | .later i e =>
      if e.answers = true then
        st.2.later[i]?.bind fun m => (Setup.step (st.1, st.2.screen.focus m) e).map fun st' =>
          (st'.1,
            { st.2 with
              screen := st'.2.focus st.2.screen.methods
              later := st.2.later.set i st'.2.methods })
      else none

/-- Continue is not pressed again. -/
def single (T : Presses) : Event → Bool
  | .screen .press => T.screen.download = .idle
  | _ => true

/-! ### One press -/

section

variable {p p' q : Prefs} {S S' : Setup} {T T' : Presses} {e : Event}

/-- The events other than a press, as the screen alone has them. -/
theorem step_screen {e : Setup.Event} (he : e ≠ .press) :
    step (p, T) (.screen e) =
      (Setup.step (p, T.screen) e).map fun st' => (st'.1, { T with screen := st'.2 }) := by
  cases e with
  | press => exact absurd rfl he
  | _ => rfl

/-- The first press, as the screen alone has it. -/
theorem setup_step_press (hw : Setup.Wf p S) (hidle : S.download = .idle) :
    Setup.step (p, S) .press = some (p, S.onPressed) :=
  if_pos (hw.waiting.2 hidle)

/-- **Without another press an event does what it does to the screen alone**, if it does not build
the screen. -/
theorem setup_of_step (hw : Setup.Wf p T.screen) (hl : T.later = [])
    (ho : T.single e = true) (hs : step (p, T) e = some (p', T')) :
    (p' = p ∧ e = .build ∧ ∃ b, T' = { T with built := b }) ∨
      ∃ e' S', e = .screen e' ∧ Setup.step (p, T.screen) e' = some (p', S') ∧
        T' = { T with screen := S' } := by
  cases e with
  | build =>
      obtain ⟨rfl, rfl⟩ := Prod.mk.inj (Option.some_inj.1 hs)
      exact Or.inl ⟨rfl, rfl, _, rfl⟩
  | screen e =>
      by_cases he : e = .press
      · subst he
        obtain ⟨-, heq⟩ := of_guard hs
        obtain ⟨rfl, rfl⟩ := Prod.mk.inj heq
        have hidle : T.screen.download = .idle := by simpa [single] using ho
        rw [onPressed, if_pos hidle]
        exact Or.inr ⟨.press, _, rfl, setup_step_press hw hidle, rfl⟩
      · rw [step_screen he] at hs
        obtain ⟨⟨p₁, S₁⟩, hstep, heq⟩ := Option.map_eq_some_iff.1 hs
        obtain ⟨rfl, rfl⟩ := Prod.mk.inj heq
        exact Or.inr ⟨e, S₁, rfl, hstep, rfl⟩
  | later i e =>
      obtain ⟨-, hs⟩ := Option.ite_none_right_eq_some.1 hs
      obtain ⟨m, hm, -⟩ := Option.bind_eq_some_iff.1 hs
      exact absurd hm (by simp [hl])

/-- **An event of the screen alone** is one of the screen with all presses, if Continue is on it as
long as it has not been pressed. -/
theorem step_of_setup {e : Setup.Event} (hw : Setup.Wf p T.screen)
    (hb : T.screen.cVis = true → T.built = true)
    (hs : Setup.step (p, T.screen) e = some (p', S')) :
    step (p, T) (.screen e) = some (p', { T with screen := S' }) ∧
      T.single (.screen e) = true := by
  by_cases he : e = .press
  · subst he
    obtain ⟨hvis, heq⟩ := of_guard hs
    obtain ⟨rfl, rfl⟩ := Prod.mk.inj heq
    have hidle : T.screen.download = .idle := hw.waiting.1 hvis
    refine ⟨?_, by simp [single, hidle]⟩
    rw [step, if_pos (hb hvis), onPressed, if_pos hidle]
  · refine ⟨by rw [step_screen he, hs, Option.map_some], ?_⟩
    cases e with
    | press => exact absurd rfl he
    | _ => rfl

/-- In a run with one press the screen is in a state that it reaches alone. -/
theorem exists_run_of_single {tr : List (Move (Prefs × Presses) Event)} {st : Prefs × Presses}
    (h : Run step (p, {}) tr st) (ho : ∀ m ∈ tr, m.pre.2.single m.event = true) :
    st.2.later = [] ∧ ∃ tr', Run Setup.step (p, {}) tr' (st.1, st.2.screen) := by
  have hinv : Setup.Wf st.1 st.2.screen ∧ st.2.later = [] ∧
      ∃ tr', Run Setup.step (p, {}) tr' (st.1, st.2.screen) := by
    refine Run.invariant (I := fun tr st => (∀ m ∈ tr, m.pre.2.single m.event = true) →
      Setup.Wf st.1 st.2.screen ∧ st.2.later = [] ∧
        ∃ tr', Run Setup.step (p, {}) tr' (st.1, st.2.screen)) ?_ ?_ h ho
    · exact fun _ => ⟨Setup.wf_initial p, rfl, [], .nil⟩
    · intro tr st e st' _ ih hs ho
      obtain ⟨hw, hl, tr', hrun⟩ := ih fun m hm => ho m (List.mem_append_left _ hm)
      obtain ⟨p₁, T₁⟩ := st'
      rcases setup_of_step hw hl (ho ⟨st, e, (p₁, T₁)⟩ (by simp)) hs with
        ⟨rfl, -, b, rfl⟩ | ⟨e', S', -, hstep, rfl⟩
      · exact ⟨hw, hl, tr', hrun⟩
      · exact ⟨(Setup.kept_of_step hw hstep).wf, hl, _, hrun.snoc hstep⟩
  exact hinv.2

/-- The state is that of the screen alone. -/
def Wholly (st : Prefs × Setup) (t : Prefs × Presses) : Prop :=
  Setup.Wf st.1 st.2 ∧ t = (st.1, ⟨st.2, [], true⟩)

/-- **As long as Continue is pressed once, the screen is that of `LogoGuess.Setup`.** -/
theorem exists_run_iff :
    (∃ tr, Run Setup.step (p, {}) tr (q, S)) ↔
      ∃ tr T, Run step (p, {}) tr (q, T) ∧ T.screen = S ∧
        ∀ m ∈ tr, m.pre.2.single m.event = true := by
  constructor
  · rintro ⟨tr, h⟩
    have hmatch : ∀ st e st' (t : Prefs × Presses), Wholly st t → Setup.step st e = some st' →
        ∃ tr' t', Run step t tr' t' ∧ Wholly st' t' ∧
          ∀ m ∈ tr', m.pre.2.single m.event = true := by
      rintro ⟨p₁, S₁⟩ e ⟨p₂, S₂⟩ t ⟨hw, rfl⟩ hs
      obtain ⟨hstep, ho⟩ := step_of_setup (T := ⟨S₁, [], true⟩) hw (fun _ => rfl) hs
      exact ⟨_, _, Run.single hstep, ⟨(Setup.kept_of_step hw hs).wf, rfl⟩, by simpa using ho⟩
    obtain ⟨tr', T, hrun, ⟨-, rfl⟩, ho⟩ :=
      h.simulate Wholly _ ⟨Setup.wf_initial p, rfl⟩ hmatch
    exact ⟨tr', _, hrun, rfl, ho⟩
  · rintro ⟨tr, T, h, rfl, ho⟩
    exact (exists_run_of_single h ho).2

/-- **The screen with all presses does not read the preferences either.** -/
theorem step_frame (q : Prefs) (h : step (p, T) e = some (p', T')) :
    ∃ q', step (q, T) e = some (q', T') := by
  cases e with
  | build =>
      obtain ⟨-, rfl⟩ := Prod.mk.inj (Option.some_inj.1 h)
      exact ⟨q, rfl⟩
  | screen e =>
      by_cases he : e = .press
      · subst he
        obtain ⟨hb, heq⟩ := of_guard h
        obtain ⟨-, rfl⟩ := Prod.mk.inj heq
        exact ⟨q, if_pos hb⟩
      · rw [step_screen he] at h ⊢
        obtain ⟨⟨p₁, S₁⟩, hstep, heq⟩ := Option.map_eq_some_iff.1 h
        obtain ⟨-, rfl⟩ := Prod.mk.inj heq
        obtain ⟨q', hstep'⟩ := Setup.step_frame q hstep
        exact ⟨q', by rw [hstep', Option.map_some]⟩
  | later i e =>
      obtain ⟨ha, h⟩ := Option.ite_none_right_eq_some.1 h
      obtain ⟨m, hm, h⟩ := Option.bind_eq_some_iff.1 h
      obtain ⟨⟨p₁, S₁⟩, hstep, heq⟩ := Option.map_eq_some_iff.1 h
      obtain ⟨-, rfl⟩ := Prod.mk.inj heq
      obtain ⟨q', hstep'⟩ := Setup.step_frame q hstep
      refine ⟨q', ?_⟩
      rw [step, if_pos ha, hm, Option.bind_some, hstep', Option.map_some]

end

end Presses

end LogoGuess
