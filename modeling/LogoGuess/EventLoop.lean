/-
**Handlers and runs of an event loop.**

A user interface is a state that only its handlers change: each event is handed to one handler,
which runs to its end before the next event is looked at.  A handler is not all-or-nothing,
though.  It may be *cut short* — by an exception that nobody catches, or because a loop inside it
has not been left yet — and what it wrote up to that point stays written.

This module is the part of the development that knows nothing about any particular program.

Main definitions:

* `EventLoop.Outcome` — how a handler ends: normally, or cut short with the state it leaves;
* `EventLoop.Outcome.bind` — going on with a second piece of code after a first one;
* `EventLoop.Outcome.Ends` — the postcondition of an outcome, with one condition for a normal end
  and one for being cut short;
* `EventLoop.Run` — the runs of a transition function, with the list of moves they consist of;
* `EventLoop.exec` — running a given list of events;
* `EventLoop.guarded` — the same transition function with fewer events possible.

Main results:

* `EventLoop.Outcome.Ends.bind` — the rule of sequential composition;
* `EventLoop.Run.invariant` — what holds at the start and is kept by every move holds after every
  run; the condition may speak about the moves made so far;
* `EventLoop.Run.append`, `EventLoop.run_of_exec` — runs compose, and a successful execution of a
  list of events is a run;
* `EventLoop.Run.of_append` — the moves of a run are made from states that it reaches;
* `EventLoop.Run.cost_le` — the potential rule: a run costs at most the potential it starts with;
* `EventLoop.exists_run_of_countdown` — the countdown rule: a measure that can always be lowered by
  one reaches zero in as many moves as it says;
* `EventLoop.Run.simulate` — the simulation rule: if every move is matched by a run of another
  system, so is every run;
* `EventLoop.run_guarded_iff` — the runs all of whose moves a guard allows.
-/

import Mathlib.Algebra.BigOperators.Group.List.Basic
import Mathlib.Algebra.GroupWithZero.Nat

set_option relaxedAutoImplicit false
set_option autoImplicit false

namespace EventLoop

/-! ### Outcomes of a handler -/

/-- How a handler ends.  Either it reaches its last statement, or it is cut short for the reason
`e`; in both cases the state it has written is kept. -/
inductive Outcome (ε σ : Type*) where
  /-- The handler ran to its end. -/
  | done (s : σ)
  /-- The handler was cut short. -/
  | stop (e : ε) (s : σ)

namespace Outcome

variable {ε σ : Type*}

/-- The state a handler leaves behind. -/
def state : Outcome ε σ → σ
  | done s => s
  | stop _ s => s

@[simp] theorem state_done (s : σ) : (done s : Outcome ε σ).state = s := rfl

@[simp] theorem state_stop (e : ε) (s : σ) : (stop e s : Outcome ε σ).state = s := rfl

/-- Going on with `f` where `o` ended normally. -/
def bind (o : Outcome ε σ) (f : σ → Outcome ε σ) : Outcome ε σ :=
  match o with
  | done s => f s
  | stop e s => stop e s

@[simp] theorem done_bind (s : σ) (f : σ → Outcome ε σ) : (done s).bind f = f s := rfl

@[simp] theorem stop_bind (e : ε) (s : σ) (f : σ → Outcome ε σ) :
    (stop e s).bind f = stop e s := rfl

/-- **The postcondition of an outcome**: `Q` holds after a normal end, `R` when the handler was
cut short. -/
def Ends (o : Outcome ε σ) (Q : σ → Prop) (R : ε → σ → Prop) : Prop :=
  match o with
  | done s => Q s
  | stop e s => R e s

/-- **Sequential composition**: the intermediate condition is handed from the first piece of code
to the second; a handler cut short in the first piece never enters the second. -/
theorem Ends.bind {o : Outcome ε σ} {f : σ → Outcome ε σ} {P Q : σ → Prop} {R : ε → σ → Prop}
    (ho : o.Ends P R) (hf : ∀ s, P s → (f s).Ends Q R) : (o.bind f).Ends Q R := by
  cases o with
  | done s => exact hf s ho
  | stop e s => exact ho

/-- A condition that holds in both cases holds of the state left behind. -/
theorem Ends.state {o : Outcome ε σ} {P : σ → Prop} (h : o.Ends P fun _ => P) : P o.state := by
  cases o with
  | done s => exact h
  | stop e s => exact h

end Outcome

/-! ### Runs -/

/-- One move of a run: the state an event found, the event, and the state it left. -/
structure Move (σ ε : Type*) where
  /-- The state before the event. -/
  pre : σ
  /-- The event. -/
  event : ε
  /-- The state after the event. -/
  post : σ

/-- What one more move adds to the list that `f` collects from the moves of a run. -/
theorem filterMap_concat {α β : Type*} (f : α → Option β) (l : List α) (a : α) :
    (l ++ [a]).filterMap f = l.filterMap f ++ (f a).toList := by
  rw [List.filterMap_append]
  cases h : f a <;> simp [h]

section Run

variable {σ ε : Type*} {step : σ → ε → Option σ}

/-- An event that is possible under a condition only. -/
theorem of_guard {p : Prop} [Decidable p] {s s' : σ} (h : (if p then some s else none) = some s') :
    p ∧ s = s' := by
  obtain ⟨hp, hs⟩ := Option.ite_none_right_eq_some.1 h
  exact ⟨hp, Option.some_inj.1 hs⟩

/-- **The runs from `s₀`.**  `Run step s₀ tr s` says that the moves `tr`, in this order, lead from
`s₀` to `s`.  The value `none` of `step` means that the event cannot happen in that state. -/
inductive Run (step : σ → ε → Option σ) (s₀ : σ) : List (Move σ ε) → σ → Prop where
  /-- The run without moves. -/
  | nil : Run step s₀ [] s₀
  /-- One more move at the end. -/
  | snoc {tr : List (Move σ ε)} {s s' : σ} {e : ε} (h : Run step s₀ tr s)
      (hs : step s e = some s') : Run step s₀ (tr ++ [⟨s, e, s'⟩]) s'

/-- **The invariant rule.**  The condition may mention the moves made so far, so histories can be
carried through a run. -/
theorem Run.invariant {s₀ : σ} {I : List (Move σ ε) → σ → Prop} (h₀ : I [] s₀)
    (hstep : ∀ tr s e s', Run step s₀ tr s → I tr s → step s e = some s' →
      I (tr ++ [⟨s, e, s'⟩]) s')
    {tr : List (Move σ ε)} {s : σ} (h : Run step s₀ tr s) : I tr s := by
  induction h with
  | nil => exact h₀
  | snoc h hs ih => exact hstep _ _ _ _ h ih hs

/-- A move of a run was made from a state that is reached by the moves before it. -/
theorem Run.of_append {s₀ s : σ} {tr : List (Move σ ε)} (h : Run step s₀ tr s)
    {tr₁ tr₂ : List (Move σ ε)} {m : Move σ ε} (htr : tr = tr₁ ++ m :: tr₂) :
    Run step s₀ tr₁ m.pre ∧ step m.pre m.event = some m.post := by
  induction h generalizing tr₂ with
  | nil => exact absurd htr (by simp)
  | @snoc tr s s' e h hs ih =>
      rcases List.eq_nil_or_concat tr₂ with rfl | ⟨tr₃, m', rfl⟩
      · obtain ⟨rfl, hm⟩ := List.append_inj' htr rfl
        obtain rfl := (List.cons.inj hm).1
        exact ⟨h, hs⟩
      · have hcut : tr ++ [⟨s, e, s'⟩] = (tr₁ ++ m :: tr₃) ++ [m'] := by
          rw [htr]
          simp
        exact ih (List.append_inj' hcut rfl).1

/-- Runs compose. -/
theorem Run.append {s₀ s₁ s₂ : σ} {tr₁ tr₂ : List (Move σ ε)} (h₁ : Run step s₀ tr₁ s₁)
    (h₂ : Run step s₁ tr₂ s₂) : Run step s₀ (tr₁ ++ tr₂) s₂ := by
  induction h₂ with
  | nil => simpa using h₁
  | snoc _ hs ih =>
      rw [← List.append_assoc]
      exact ih.snoc hs

/-- A single move is a run. -/
theorem Run.single {s s' : σ} {e : ε} (h : step s e = some s') :
    Run step s [⟨s, e, s'⟩] s' :=
  Run.nil.snoc h

/-- Running the events of a list, one after the other. -/
def exec (step : σ → ε → Option σ) (s : σ) : List ε → Option σ
  | [] => some s
  | e :: es => (step s e).bind fun s' => exec step s' es

/-- Running two lists of events, one after the other. -/
theorem exec_append (s : σ) (es es' : List ε) :
    exec step s (es ++ es') = (exec step s es).bind fun s' => exec step s' es' := by
  induction es generalizing s with
  | nil => rfl
  | cons e es ih =>
      rw [List.cons_append, exec, exec, Option.bind_assoc]
      exact Option.bind_congr fun s' _ => ih s'

/-- A successful execution of a list of events is a run with these events. -/
theorem run_of_exec {es : List ε} {s s' : σ} (h : exec step s es = some s') :
    ∃ tr, Run step s tr s' ∧ tr.map Move.event = es := by
  induction es generalizing s with
  | nil =>
      obtain rfl : s = s' := Option.some_inj.1 h
      exact ⟨[], Run.nil, rfl⟩
  | cons e es ih =>
      obtain ⟨s₁, h₁, h₂⟩ := Option.bind_eq_some_iff.1 h
      obtain ⟨tr, htr, hev⟩ := ih h₂
      exact ⟨_, (Run.single h₁).append htr, by simp [hev]⟩

/-- An execution whose result is known in part is a run to a state of which that part is known. -/
theorem exists_run_of_exec {α : Type*} {f : σ → α} {a : α} {es : List ε} {s : σ}
    (h : (exec step s es).map f = some a) :
    ∃ tr s', Run step s tr s' ∧ f s' = a ∧ tr.map Move.event = es := by
  obtain ⟨s', hs, hf⟩ := Option.map_eq_some_iff.1 h
  obtain ⟨tr, hrun, hev⟩ := run_of_exec hs
  exact ⟨tr, s', hrun, hf, hev⟩

/-- Counting moves is a way of adding up costs. -/
theorem sum_map_ite {α : Type*} (p : α → Bool) (l : List α) :
    (l.map fun a => if p a = true then 1 else 0).sum = l.countP p := by
  induction l with
  | nil => rfl
  | cons a l ih =>
      rw [List.map_cons, List.sum_cons, ih, List.countP_cons]
      omega

/-- **The potential rule.**  If every move costs at most what it takes from the potential `φ`, a
whole run costs at most what it takes from it. -/
theorem Run.cost_le {φ : σ → ℕ} {cost : Move σ ε → ℕ} {s₀ s : σ} {tr : List (Move σ ε)}
    (h : Run step s₀ tr s)
    (hstep : ∀ tr s e s', Run step s₀ tr s → step s e = some s' → cost ⟨s, e, s'⟩ + φ s' ≤ φ s) :
    (tr.map cost).sum + φ s ≤ φ s₀ := by
  induction h with
  | nil => simp
  | snoc h hs ih =>
      have hlast := hstep _ _ _ _ h hs
      simp only [List.map_append, List.sum_append, List.map_singleton, List.sum_singleton]
      omega

/-- **The countdown rule.**  Let every state in `I` at which the measure `μ` is not yet zero have an
event of the kind `P` that lowers it by one and stays in `I`.  Then as many events of this kind as
the measure says lead to a state in `I` at which it is zero. -/
theorem exists_run_of_countdown {I : σ → Prop} {P : ε → Prop} {μ : σ → ℕ}
    (hstep : ∀ s, I s → 0 < μ s → ∃ e s', P e ∧ step s e = some s' ∧ I s' ∧ μ s' + 1 = μ s) :
    ∀ {s : σ}, I s → ∃ tr s', Run step s tr s' ∧ I s' ∧ μ s' = 0 ∧ (∀ m ∈ tr, P m.event) ∧
      tr.length = μ s := by
  intro s
  induction hm : μ s generalizing s with
  | zero =>
      intro hs
      exact ⟨[], s, .nil, hs, hm, by simp, rfl⟩
  | succ m ih =>
      intro hs
      obtain ⟨e, s₁, he, hstep₁, hs₁, hlt⟩ := hstep s hs (by omega)
      obtain ⟨tr, s', hrun, hs', hzero, hev, hlen⟩ := ih (by omega) hs₁
      refine ⟨_, s', (Run.single hstep₁).append hrun, hs', hzero, ?_, ?_⟩
      · intro m hm
        rcases List.mem_append.1 hm with hm | hm
        · rw [List.mem_singleton.1 hm]
          exact he
        · exact hev m hm
      · rw [List.length_append, List.length_singleton]
        omega

/-- **The simulation rule.**  Let every move from related states be matched by a run that ends in
related states and consists of moves of the kind `P`.  Then so is every run. -/
theorem Run.simulate {τ δ : Type*} {step' : τ → δ → Option τ} {s₀ s : σ} {t₀ : τ}
    {tr : List (Move σ ε)} (h : Run step s₀ tr s) (R : σ → τ → Prop) (P : Move τ δ → Prop)
    (h₀ : R s₀ t₀)
    (hstep : ∀ s e s' t, R s t → step s e = some s' →
      ∃ tr' t', Run step' t tr' t' ∧ R s' t' ∧ ∀ m ∈ tr', P m) :
    ∃ tr' t, Run step' t₀ tr' t ∧ R s t ∧ ∀ m ∈ tr', P m := by
  induction h with
  | nil => exact ⟨[], t₀, .nil, h₀, by simp⟩
  | snoc _ hs ih =>
      obtain ⟨tr₁, t₁, hrun₁, hR₁, hP₁⟩ := ih
      obtain ⟨tr₂, t₂, hrun₂, hR₂, hP₂⟩ := hstep _ _ _ _ hR₁ hs
      refine ⟨tr₁ ++ tr₂, t₂, hrun₁.append hrun₂, hR₂, ?_⟩
      intro m hm
      rcases List.mem_append.1 hm with hm | hm
      · exact hP₁ m hm
      · exact hP₂ m hm

/-- The step function that makes an event possible only where `g` allows it. -/
def guarded (step : σ → ε → Option σ) (g : σ → ε → Bool) (s : σ) (e : ε) : Option σ :=
  if g s e = true then step s e else none

/-- **The guarded runs are the runs all of whose moves are allowed.** -/
theorem run_guarded_iff {g : σ → ε → Bool} {s₀ s : σ} {tr : List (Move σ ε)} :
    Run (guarded step g) s₀ tr s ↔ Run step s₀ tr s ∧ ∀ m ∈ tr, g m.pre m.event = true := by
  constructor
  · intro h
    induction h with
    | nil => exact ⟨.nil, by simp⟩
    | snoc _ hs ih =>
        obtain ⟨hg, hs⟩ := Option.ite_none_right_eq_some.1 hs
        refine ⟨ih.1.snoc hs, ?_⟩
        intro m hm
        rcases List.mem_append.1 hm with hm | hm
        · exact ih.2 m hm
        · rw [List.mem_singleton.1 hm]
          exact hg
  · rintro ⟨h, hg⟩
    induction h with
    | nil => exact .nil
    | @snoc tr s s' e _ hs ih =>
        have hlast : guarded step g s e = some s' := by
          rw [guarded, if_pos (hg ⟨s, e, s'⟩ (by simp))]
          exact hs
        exact (ih fun m hm => hg m (List.mem_append_left _ hm)).snoc hlast

/-- What holds of the events of a list holds of the moves that they make. -/
theorem forall_event {P : ε → Prop} {tr : List (Move σ ε)} {es : List ε}
    (hev : tr.map Move.event = es) (h : ∀ e ∈ es, P e) : ∀ m ∈ tr, P m.event := by
  intro m hm
  refine h m.event ?_
  rw [← hev]
  exact List.mem_map_of_mem hm

end Run

end EventLoop
