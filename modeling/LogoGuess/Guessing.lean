/-
**The game of guessing words, as such.**

`n` words are put on display one after the other, each at most once, in an order that is drawn at
random.  A player names letters of the word on display; every named letter is shown at all its
positions.  A word whose letters have all been named is *solved*; a word can also be taken away
before that, and then it has *expired*.  The word that is drawn last is not displayed any more:
drawing it ends the game.

Nothing here refers to a program.  The words are lists over an arbitrary type of letters, and the
game is a relation between states that record only what the rules talk about.

Main definitions:

* `Guessing.mask`, `Guessing.reveal`, `Guessing.Hides` — a word of which only some letters are
  shown, showing one more letter, and the letters that are not shown;
* `Guessing.Game`, `Guessing.Step`, `Guessing.Reachable` — the states and the rules of the game;
* `Guessing.Fair` — the invariant: drawing is without replacement, and every word that has been
  drawn is on display, solved, expired or the one that ended the game, and only one of these.

Main results:

* `Guessing.mask_congr` — what is shown of a word depends only on its letters in the set;
* `Guessing.reveal_mask` — revealing a letter adds it to the shown ones;
* `Guessing.hides_mask`, `Guessing.Hides.of_reveal` — the letters that are hidden in a masked word
  and after a letter has been revealed;
* `Guessing.mask_eq_self_iff` — a word is complete when all its letters are shown;
* `Guessing.Reachable.fair` — **the invariant holds in every reachable state**;
* `Guessing.Fair.solved_nodup`, `Guessing.Fair.disjoint` — no word is solved twice, and none is
  both solved and expired;
* `Guessing.exists_fresh` — as long as not all indices have been drawn there is one to draw.
-/

import Mathlib.Data.Finset.Card
import Mathlib.Data.List.Perm.Basic
import Mathlib.Data.List.Range
import Mathlib.Logic.Relation

set_option relaxedAutoImplicit false
set_option autoImplicit false

namespace Guessing

variable {α : Type*}

/-! ### Drawing without replacement -/

/-- As long as fewer than `n` indices have been drawn, one of them is left. -/
theorem exists_fresh {l : List ℕ} {n : ℕ} (h : l.length < n) : ∃ k < n, k ∉ l := by
  by_contra hall
  push Not at hall
  have hsub : List.range n ⊆ l := fun k hk => hall k (List.mem_range.1 hk)
  have hle := List.nodup_range.length_le_of_subset hsub
  rw [List.length_range] at hle
  omega

/-- At most `n` indices can be drawn. -/
theorem length_le_of_lt {l : List ℕ} {n : ℕ} (hnd : l.Nodup) (hlt : ∀ k ∈ l, k < n) :
    l.length ≤ n := by
  have hle := hnd.length_le_of_subset fun k hk => List.mem_range.2 (hlt k hk)
  rwa [List.length_range] at hle

/-- When all `n` indices have been drawn, their list is a permutation of `0, …, n - 1`. -/
theorem perm_range {l : List ℕ} {n : ℕ} (hnd : l.Nodup) (hlt : ∀ k ∈ l, k < n)
    (hlen : l.length = n) : l.Perm (List.range n) := by
  have hsub : l ⊆ List.range n := fun k hk => List.mem_range.2 (hlt k hk)
  refine (hnd.subperm hsub).perm_of_length_le ?_
  rw [List.length_range, hlen]

/-! ### Words of which some letters are shown -/

section Words

variable [DecidableEq α]

/-- Writing the letter `c` into `t` at every position at which the word `w` has it. -/
def reveal (c : α) (w t : List α) : List α := List.zipWith (fun a b => if a = c then c else b) w t

/-- The word `w` with the letters outside `S` replaced by a blank. -/
def mask (blank : α) (w : List α) (S : Finset α) : List α :=
  w.map fun a => if a ∈ S then a else blank

theorem length_reveal {c : α} {w t : List α} (h : t.length = w.length) :
    (reveal c w t).length = w.length := by simp [reveal, h]

/-- What two different letters complete is complete already. -/
theorem eq_of_reveal_eq {a b : α} (hab : a ≠ b) {w t : List α} (hlen : t.length = w.length)
    (ha : w = reveal a w t) (hb : w = reveal b w t) : w = t := by
  induction w generalizing t with
  | nil => exact (List.length_eq_zero_iff.1 hlen).symm
  | cons x w ih =>
      cases t with
      | nil => simp at hlen
      | cons y t =>
          obtain ⟨hxa, hwa⟩ := List.cons.inj ha
          obtain ⟨hxb, hwb⟩ := List.cons.inj hb
          have hxy : x = y := by
            by_cases hx : x = a
            · have hx' : x ≠ b := fun hb => hab (hx.symm.trans hb)
              simpa only [if_neg hx'] using hxb
            · simpa only [if_neg hx] using hxa
          rw [hxy, ← ih (by simpa using hlen) hwa hwb]

@[simp] theorem mask_empty (blank : α) (w : List α) :
    mask blank w ∅ = List.replicate w.length blank := by
  simp [mask]

/-- Only the letters of the word matter for what is shown of it. -/
theorem mask_congr (blank : α) {w : List α} {S T : Finset α} (h : ∀ a ∈ w, a ∈ S ↔ a ∈ T) :
    mask blank w S = mask blank w T := by
  refine List.map_congr_left ?_
  intro a ha
  by_cases hS : a ∈ S
  · rw [if_pos hS, if_pos ((h a ha).1 hS)]
  · rw [if_neg hS, if_neg (mt (h a ha).2 hS)]

/-- **Revealing a letter adds it to the shown ones.** -/
theorem reveal_mask (blank c : α) (w : List α) (S : Finset α) :
    reveal c w (mask blank w S) = mask blank w (insert c S) := by
  induction w with
  | nil => rfl
  | cons a w ih =>
      rw [reveal, mask, mask] at ih
      rw [reveal, mask, mask]
      simp only [List.map_cons, List.zipWith_cons_cons, ih, Finset.mem_insert]
      by_cases h : a = c <;> simp [h]

/-- The letter `a` is hidden in `t`: the word `w` has it at a position at which `t` has a blank. -/
def Hides (blank : α) (w t : List α) (a : α) : Prop := ∃ x : ℕ, w[x]? = some a ∧ t[x]? = some blank

omit [DecidableEq α] in
theorem Hides.mem {blank a : α} {w t : List α} (h : Hides blank w t a) : a ∈ w := by
  obtain ⟨x, hx, -⟩ := h
  exact List.mem_of_getElem? hx

/-- In a masked word the hidden letters are those that are not shown. -/
theorem hides_mask {blank a : α} {w : List α} {S : Finset α} (h : blank ∉ w) :
    Hides blank w (mask blank w S) a ↔ a ∈ w ∧ a ∉ S := by
  constructor
  · rintro ⟨x, hx, ht⟩
    have ha := List.mem_of_getElem? hx
    refine ⟨ha, fun hS => h ?_⟩
    rw [mask, List.getElem?_map, hx, Option.map_some, if_pos hS] at ht
    exact Option.some_inj.1 ht ▸ ha
  · rintro ⟨ha, hS⟩
    obtain ⟨x, hx⟩ := List.mem_iff_getElem?.1 ha
    refine ⟨x, hx, ?_⟩
    rw [mask, List.getElem?_map, hx, Option.map_some, if_neg hS]

/-- Revealing a letter hides no other one, and not the revealed one either. -/
theorem Hides.of_reveal {blank c a : α} {w t : List α} (hc : c ≠ blank)
    (h : Hides blank w (reveal c w t) a) : Hides blank w t a ∧ a ≠ c := by
  obtain ⟨x, hx, ht⟩ := h
  rw [reveal, List.getElem?_zipWith, hx] at ht
  cases hb : t[x]? with
  | none => simp [hb] at ht
  | some b =>
      rw [hb] at ht
      by_cases hac : a = c
      · exact absurd (by simpa [hac] using ht) hc
      · have hblank : b = blank := by simpa [hac] using ht
        exact ⟨⟨x, hx, hblank ▸ hb⟩, hac⟩

/-- **A word is complete when all its letters are shown.** -/
theorem mask_eq_self_iff {blank : α} {w : List α} {S : Finset α} (h : blank ∉ w) :
    mask blank w S = w ↔ ∀ a ∈ w, a ∈ S := by
  constructor
  · intro hw a ha
    by_contra hS
    have hmap : ∀ b ∈ w, (if b ∈ S then b else blank) = id b :=
      List.map_inj_left.1 (hw.trans (List.map_id w).symm)
    have hblank : blank = a := by simpa [hS] using hmap a ha
    exact h (hblank ▸ ha)
  · intro hw
    refine (List.map_congr_left ?_).trans (List.map_id w)
    intro a ha
    rw [if_pos (hw a ha), id]

end Words

/-! ### The rules of the game -/

/-- A state of the game. -/
structure Game (α : Type*) where
  /-- The indices drawn so far, in order. -/
  drawn : List ℕ
  /-- The index of the word on display. -/
  shown : Option ℕ
  /-- The letters named for the word on display. -/
  named : Finset α
  /-- The words that have been solved. -/
  solved : List ℕ
  /-- The words that were taken away. -/
  expired : List ℕ
  /-- Whether the game is over. -/
  finished : Bool

/-- The game before the first draw. -/
def Game.initial : Game α := ⟨[], none, ∅, [], [], false⟩

/-- The words that have been displayed, those that were solved first. -/
def Game.played (g : Game α) : List ℕ := g.solved ++ g.expired

section Rules

variable [DecidableEq α] (n : ℕ) (word : ℕ → List α)

/-- **The rules of the game** with the words `word 0, …, word (n - 1)`. -/
inductive Step : Game α → Game α → Prop where
  /-- Naming a letter that leaves some letter of the word open. -/
  | guess {g : Game α} {k : ℕ} (c : α) (hk : g.shown = some k)
      (hopen : ∃ a ∈ word k, a ∉ insert c g.named) :
      Step g { g with named := insert c g.named }
  /-- Naming the last open letter. -/
  | solve {g : Game α} {k : ℕ} (c : α) (hk : g.shown = some k)
      (hall : ∀ a ∈ word k, a ∈ insert c g.named) :
      Step g { g with shown := none, solved := g.solved ++ [k] }
  /-- Taking the word away. -/
  | expire {g : Game α} {k : ℕ} (hk : g.shown = some k) :
      Step g { g with shown := none, expired := g.expired ++ [k] }
  /-- Drawing a word and displaying it. -/
  | draw {g : Game α} {k : ℕ} (hnone : g.shown = none) (hover : g.finished = false) (hk : k < n)
      (hnew : k ∉ g.drawn) (hlen : g.drawn.length + 1 < n) (hopen : word k ≠ []) :
      Step g { g with drawn := g.drawn ++ [k], shown := some k, named := ∅ }
  /-- Drawing the last word, which ends the game. -/
  | close {g : Game α} {k : ℕ} (hnone : g.shown = none) (hover : g.finished = false) (hk : k < n)
      (hnew : k ∉ g.drawn) (hlen : g.drawn.length + 1 = n) :
      Step g { g with drawn := g.drawn ++ [k], finished := true }

/-- The states that can occur in a game. -/
def Reachable (g : Game α) : Prop := Relation.ReflTransGen (Step n word) Game.initial g

end Rules

/-! ### The invariant -/

/-- **The invariant of the game.** -/
structure Fair (n : ℕ) (word : ℕ → List α) (g : Game α) : Prop where
  /-- Drawing is without replacement. -/
  nodup : g.drawn.Nodup
  /-- Only indices of words are drawn. -/
  lt : ∀ k ∈ g.drawn, k < n
  /-- The word on display was drawn last, and all words drawn before it have been played. -/
  shown : ∀ k, g.shown = some k → g.finished = false ∧ g.drawn.length < n ∧
    (∃ a ∈ word k, a ∉ g.named) ∧ ∃ d, g.drawn = d ++ [k] ∧ g.played.Perm d
  /-- Between two words all drawn ones have been played. -/
  between : g.shown = none → g.finished = false → g.drawn.length < n ∧ g.played.Perm g.drawn
  /-- At the end all words but the last one have been played. -/
  finished : g.finished = true → g.shown = none ∧ g.drawn.length = n ∧
    ∃ d k, g.drawn = d ++ [k] ∧ g.played.Perm d

theorem fair_initial (n : ℕ) (word : ℕ → List α) (hn : 0 < n) : Fair n word Game.initial where
  nodup := List.nodup_nil
  lt := by simp [Game.initial]
  shown := by simp [Game.initial]
  between _ _ := ⟨hn, List.Perm.refl _⟩
  finished := by simp [Game.initial]

variable {n : ℕ} {word : ℕ → List α}

/-- A word that leaves the display joins the played ones. -/
theorem Fair.leave {g : Game α} (h : Fair n word g) {k : ℕ} (hk : g.shown = some k)
    {s e : List ℕ} (hperm : (s ++ e).Perm (g.played ++ [k])) :
    Fair n word { g with shown := none, solved := s, expired := e } := by
  obtain ⟨hover, hlen, -, d, hd, hplayed⟩ := h.shown k hk
  refine ⟨h.nodup, h.lt, by simp, fun _ _ => ⟨hlen, ?_⟩, ?_⟩
  · rw [hd]
    exact hperm.trans (hplayed.append_right [k])
  · intro ho
    exact absurd ho (by simp [hover])

/-- **Every rule keeps the invariant.** -/
theorem Fair.step [DecidableEq α] {g g' : Game α} (h : Fair n word g) (hs : Step n word g g') :
    Fair n word g' := by
  cases hs with
  | @guess k c hk hopen =>
      obtain ⟨hover, hlen, -, d, hd, hplayed⟩ := h.shown k hk
      refine ⟨h.nodup, h.lt, ?_, ?_, ?_⟩
      · intro k' hk'
        obtain rfl : k = k' := Option.some_inj.1 (hk.symm.trans hk')
        exact ⟨hover, hlen, hopen, d, hd, hplayed⟩
      · intro hnone _
        exact absurd (hk.symm.trans hnone) (by simp)
      · intro ho
        exact absurd ho (by simp [hover])
  | @solve k c hk hall =>
      refine h.leave hk ?_
      rw [Game.played, List.append_assoc, List.append_assoc]
      exact List.perm_append_comm.append_left _
  | @expire k hk =>
      refine h.leave hk ?_
      rw [Game.played, List.append_assoc]
  | @draw k hnone hover hk hnew hlen hopen =>
      obtain ⟨-, hplayed⟩ := h.between hnone hover
      refine ⟨List.concat_eq_append ▸ h.nodup.concat hnew, ?_, ?_, by simp, ?_⟩
      · intro k' hk'
        rcases List.mem_append.1 hk' with hk' | hk'
        · exact h.lt k' hk'
        · exact List.mem_singleton.1 hk' ▸ hk
      · intro k' hk'
        obtain rfl : k = k' := Option.some_inj.1 hk'
        obtain ⟨a, ha⟩ := List.exists_mem_of_ne_nil _ hopen
        exact ⟨hover, by simpa using hlen, ⟨a, ha, by simp⟩, g.drawn, rfl, hplayed⟩
      · intro ho
        exact absurd ho (by simp [hover])
  | @close k hnone hover hk hnew hlen =>
      obtain ⟨-, hplayed⟩ := h.between hnone hover
      refine ⟨List.concat_eq_append ▸ h.nodup.concat hnew, ?_, ?_, by simp, ?_⟩
      · intro k' hk'
        rcases List.mem_append.1 hk' with hk' | hk'
        · exact h.lt k' hk'
        · exact List.mem_singleton.1 hk' ▸ hk
      · intro k' hk'
        exact absurd (hnone.symm.trans hk') (by simp)
      · intro _
        exact ⟨hnone, by simpa using hlen, g.drawn, k, rfl, hplayed⟩

/-- **The invariant holds in every reachable state.** -/
theorem Reachable.fair [DecidableEq α] (hn : 0 < n) {g : Game α} (h : Reachable n word g) :
    Fair n word g := by
  induction h with
  | refl => exact fair_initial n word hn
  | tail _ hs ih => exact ih.step hs

/-! ### What the invariant says -/

/-- The played words are among the drawn ones, without repetitions, and at least one drawn word
has not been played once the game is over or a word is on display. -/
theorem Fair.played_sublist {g : Game α} (h : Fair n word g) :
    g.played.Nodup ∧ g.played ⊆ g.drawn ∧ g.played.length ≤ n ∧
      (g.finished = true → g.played.length + 1 = n) := by
  cases hk : g.shown with
  | some k =>
      obtain ⟨hover, hlen, -, d, hd, hplayed⟩ := h.shown k hk
      have hnd : d.Nodup := (List.nodup_append.1 (hd ▸ h.nodup)).1
      have hdl : d.length + 1 < n := by simpa [hd] using hlen
      refine ⟨hplayed.nodup_iff.2 hnd, ?_, ?_, fun ho => absurd ho (by simp [hover])⟩
      · rw [hd]
        exact fun x hx => List.mem_append_left _ (hplayed.subset hx)
      · rw [hplayed.length_eq]
        omega
  | none =>
      cases hover : g.finished with
      | false =>
          obtain ⟨hlen, hplayed⟩ := h.between hk hover
          refine ⟨hplayed.nodup_iff.2 h.nodup, hplayed.subset, ?_, by simp⟩
          rw [hplayed.length_eq]
          omega
      | true =>
          obtain ⟨-, hlen, d, k, hd, hplayed⟩ := h.finished hover
          have hnd : d.Nodup := (List.nodup_append.1 (hd ▸ h.nodup)).1
          have hdl : d.length + 1 = n := by simpa [hd] using hlen
          refine ⟨hplayed.nodup_iff.2 hnd, ?_, ?_, ?_⟩
          · rw [hd]
            exact fun x hx => List.mem_append_left _ (hplayed.subset hx)
          · rw [hplayed.length_eq]
            omega
          · intro _
            rw [hplayed.length_eq, hdl]

/-- No word is solved twice. -/
theorem Fair.solved_nodup {g : Game α} (h : Fair n word g) : g.solved.Nodup :=
  (List.nodup_append.1 h.played_sublist.1).1

/-- No word is both solved and taken away. -/
theorem Fair.disjoint {g : Game α} (h : Fair n word g) : g.solved.Disjoint g.expired := by
  intro k hs he
  exact (List.nodup_append.1 h.played_sublist.1).2.2 k hs k he rfl

end Guessing
