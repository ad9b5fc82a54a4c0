/-
**The outcomes of the game of guessing words.**

`LogoGuess.Guessing` says what holds in every game.  This module says what can happen in one: the
words can be drawn in any order, and any selection of those that are displayed can be solved while
the others expire.

Main results:

* `Guessing.exists_solve` — naming the letters of a word one after the other solves it;
* `Guessing.Step.drawing` — the next index that is drawn;
* `Guessing.exists_between` — after any words in any order, with any selection of them solved;
* `Guessing.exists_outcome` — **every order and every selection is the outcome of a game**.
-/

import LogoGuess.Guessing

set_option relaxedAutoImplicit false
set_option autoImplicit false

namespace Guessing

section

variable {α : Type*} [DecidableEq α] {n : ℕ} {word : ℕ → List α} {g g' : Game α}

/-- **Naming the letters of `L` one after the other** solves the word on display, if these are the
ones that are still open. -/
theorem exists_solve {k : ℕ} :
    ∀ (L : List α) {g : Game α}, g.shown = some k → (∃ a ∈ word k, a ∉ g.named) →
      (∀ a ∈ word k, a ∈ g.named ∨ a ∈ L) →
      ∃ N, Relation.ReflTransGen (Step n word) g
        { g with shown := none, named := N, solved := g.solved ++ [k] } := by
  intro L
  induction L with
  | nil =>
      rintro g - ⟨a, ha, hnot⟩ hL
      exact absurd ((hL a ha).resolve_right List.not_mem_nil) hnot
  | cons c L ih =>
      intro g hk _ hL
      by_cases hopen : ∃ a ∈ word k, a ∉ insert c g.named
      · have hL' : ∀ a ∈ word k, a ∈ insert c g.named ∨ a ∈ L := by
          intro a ha
          rcases hL a ha with hin | hin
          · exact Or.inl (Finset.mem_insert_of_mem hin)
          · rcases List.mem_cons.1 hin with rfl | hin
            · exact Or.inl (Finset.mem_insert_self _ _)
            · exact Or.inr hin
        obtain ⟨N, hsteps⟩ := ih (g := { g with named := insert c g.named }) hk hopen hL'
        exact ⟨N, .head (.guess c hk hopen) hsteps⟩
      · push Not at hopen
        exact ⟨g.named, .single (.solve c hk hopen)⟩

/-- **The next index that is drawn**, when no word is on display. -/
theorem Step.drawing (hnone : g.shown = none) (h : Step n word g g') :
    ∃ k < n, k ∉ g.drawn ∧ g'.drawn = g.drawn ++ [k] ∧ g'.solved = g.solved ∧
      g'.expired = g.expired ∧ (g'.shown ≠ none ∨ g'.finished = true) := by
  cases h with
  | guess c hk _ => exact absurd (hk.symm.trans hnone) (by simp)
  | solve c hk _ => exact absurd (hk.symm.trans hnone) (by simp)
  | expire hk => exact absurd (hk.symm.trans hnone) (by simp)
  | draw _ _ hk hnew _ _ => exact ⟨_, hk, hnew, rfl, rfl, rfl, Or.inl (by simp)⟩
  | close _ _ hk hnew _ => exact ⟨_, hk, hnew, rfl, rfl, rfl, Or.inr rfl⟩

/-- After the words of `l` have been displayed in this order, those in `win` solved and the others
taken away. -/
theorem exists_between (win : ℕ → Bool) {l : List ℕ} (hnd : l.Nodup) (hlt : ∀ k ∈ l, k < n)
    (hlen : l.length < n) (hne : ∀ k ∈ l, word k ≠ []) :
    ∃ N, Reachable n word
      ⟨l, none, N, l.filter win, l.filter fun k => !win k, false⟩ := by
  induction l using List.reverseRecOn with
  | nil => exact ⟨∅, .refl⟩
  | append_singleton l k ih =>
      have hk : k ∈ l ++ [k] := List.mem_append_right _ (List.mem_singleton_self k)
      have hin : ∀ x ∈ l, x ∈ l ++ [k] := fun x hx => List.mem_append_left _ hx
      obtain ⟨hndl, -, hdisj⟩ := List.nodup_append.1 hnd
      have hnew : k ∉ l := fun hmem => hdisj k hmem k (List.mem_singleton_self k) rfl
      have hlen' : l.length + 1 < n := by simpa using hlen
      obtain ⟨N, hg⟩ := ih hndl (fun x hx => hlt x (hin x hx)) (by omega)
        fun x hx => hne x (hin x hx)
      have hdraw : Reachable n word
          ⟨l ++ [k], some k, ∅, l.filter win, l.filter fun k => !win k, false⟩ :=
        hg.tail (.draw rfl rfl (hlt k hk) hnew hlen' (hne k hk))
      cases hwin : win k with
      | true =>
          obtain ⟨a, ha⟩ := List.exists_mem_of_ne_nil _ (hne k hk)
          obtain ⟨N', hsteps⟩ := exists_solve (n := n) (word k)
            (g := ⟨l ++ [k], some k, ∅, l.filter win, l.filter fun k => !win k, false⟩) rfl
            ⟨a, ha, by simp⟩ fun a ha => Or.inr ha
          have hsolved : (l ++ [k]).filter win = l.filter win ++ [k] := by simp [hwin]
          have hexpired : ((l ++ [k]).filter fun k => !win k) = l.filter fun k => !win k := by
            simp [hwin]
          rw [hsolved, hexpired]
          exact ⟨N', hdraw.trans hsteps⟩
      | false =>
          have hsolved : (l ++ [k]).filter win = l.filter win := by simp [hwin]
          have hexpired : ((l ++ [k]).filter fun k => !win k) =
              (l.filter fun k => !win k) ++ [k] := by
            simp [hwin]
          rw [hsolved, hexpired]
          exact ⟨∅, hdraw.tail (.expire rfl)⟩

/-- **Every order and every selection is the outcome of a game**: the words of `l` are displayed in
this order, those in `win` are solved and the others expire, and the index `k` ends the game. -/
theorem exists_outcome (win : ℕ → Bool) {l : List ℕ} {k : ℕ} (hnd : (l ++ [k]).Nodup)
    (hlt : ∀ x ∈ l ++ [k], x < n) (hlen : l.length + 1 = n) (hne : ∀ x ∈ l, word x ≠ []) :
    ∃ g, Reachable n word g ∧ g.finished = true ∧ g.drawn = l ++ [k] ∧ g.solved = l.filter win ∧
      g.expired = l.filter fun x => !win x := by
  have hk : k ∈ l ++ [k] := List.mem_append_right _ (List.mem_singleton_self k)
  obtain ⟨hndl, -, hdisj⟩ := List.nodup_append.1 hnd
  have hnew : k ∉ l := fun hmem => hdisj k hmem k (List.mem_singleton_self k) rfl
  obtain ⟨N, hg⟩ := exists_between (n := n) win hndl (fun x hx => hlt x (List.mem_append_left _ hx))
    (by omega) hne
  exact ⟨_, hg.tail (.close rfl rfl (hlt k hk) hnew hlen), rfl, rfl, rfl, rfl⟩

end

end Guessing
