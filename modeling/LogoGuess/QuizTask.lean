/-
**What a call of `task` does.**

The loops of `LogoGuess.Quiz.task` are put in closed form here, and then the whole call: there are
five ways in which it can go, and each of them leaves a state that can be written down.  Every
later statement about the game goes through `LogoGuess.Quiz.taskResult` and never unfolds `task`
again.

Main definitions:

* `LogoGuess.titleOf`, `LogoGuess.letters` — the title a path is cut down to, and the letters of
  its answer;
* `LogoGuess.Dealable`, `LogoGuess.WellFormed` — the paths on which `task` does not throw, and
  those whose answer has at least one letter as well;
* `LogoGuess.Quiz.TaskResult` — the five results of a call.

Main results:

* `LogoGuess.titleOf_eq_some_iff` — the extraction succeeds exactly on the paths with a last
  segment of at least four units, and then yields that segment without its last four units;
* `LogoGuess.Quiz.spell_eq`, `LogoGuess.Quiz.fill_eq`, `LogoGuess.Quiz.split_zero` — the loops;
* `LogoGuess.Quiz.taskResult` — **every call of `task` on a non-empty list has one of the five
  results**;
* `LogoGuess.Quiz.title_of_task` — the title and the answer of the path that a call draws.
-/

import LogoGuess.Quiz
import Mathlib.Data.List.TakeWhile
import Mathlib.Tactic.Common

set_option relaxedAutoImplicit false
set_option autoImplicit false

namespace LogoGuess

open Dart EventLoop

/-! ### Titles and answers -/

/-- The title of a path: what the extraction of `task` makes of it, with `none` for the
`RangeError`. -/
def titleOf (p : Str) : Option Str :=
  (substring p.reverse 4 (indexOf '/' p.reverse)).map List.reverse

/-- The answer of a title ends before its first `-`. -/
def answer (title : Str) : Str := title.takeWhile (· ≠ '-')

/-- The letters of the answer of a title. -/
def letters (U : CaseMap) (title : Str) : List Str := (answer title).map U.toUpperCase

/-- The base name of a path without its last four units. -/
def stem (b : Str) : Str := b.take (b.length - 4)

/-- A path on which `task` does not throw: its base name `b` has at least four units and its
answer at most fifteen letters. -/
def Dealable (p : Str) : Prop :=
  ∃ d b, p = d ++ '/' :: b ∧ '/' ∉ b ∧ 4 ≤ b.length ∧ (answer (stem b)).length ≤ 15

/-- **A well-formed path**: the answer has between one and fifteen letters. -/
def WellFormed (p : Str) : Prop :=
  ∃ d b, p = d ++ '/' :: b ∧ '/' ∉ b ∧ 4 ≤ b.length ∧
    1 ≤ (answer (stem b)).length ∧ (answer (stem b)).length ≤ 15

theorem WellFormed.dealable {p : Str} (h : WellFormed p) : Dealable p := by
  obtain ⟨d, b, hp, hb, h4, -, h15⟩ := h
  exact ⟨d, b, hp, hb, h4, h15⟩

/-- A logo whose answer is the letter `A`. -/
def logoPath : Str := ['d', '/', 'A', '.', 'p', 'n', 'g']

/-- A logo whose answer is `AB`. -/
def pairPath : Str := ['d', '/', 'A', 'B', '.', 'p', 'n', 'g']

/-- The entry of a directory. -/
def folderPath : Str := ['d', '/']

theorem wellFormed_logoPath : WellFormed logoPath :=
  ⟨['d'], ['A', '.', 'p', 'n', 'g'], rfl, by decide, by decide, by decide, by decide⟩

theorem wellFormed_pairPath : WellFormed pairPath :=
  ⟨['d'], ['A', 'B', '.', 'p', 'n', 'g'], rfl, by decide, by decide, by decide, by decide⟩

/-- The title of a path that is split at its last `/`. -/
theorem titleOf_append_cons {d b : Str} (hb : '/' ∉ b) :
    titleOf (d ++ '/' :: b) = if 4 ≤ b.length then some (stem b) else none := by
  have h := substring_reverse_indexOf (d := d) hb 4
  rw [titleOf, show (4 : ℤ) = ((4 : ℕ) : ℤ) from rfl, h]
  by_cases h4 : 4 ≤ b.length
  · simp [h4, stem]
  · simp [h4]

theorem titleOf_of_notMem {p : Str} (h : '/' ∉ p) : titleOf p = none := by
  have h' : '/' ∉ p.reverse := by simpa using h
  rw [titleOf, show (4 : ℤ) = ((4 : ℕ) : ℤ) from rfl, substring_indexOf_of_notMem h' 4]
  rfl

/-- **The extraction** succeeds exactly on the paths whose base name has at least four units. -/
theorem titleOf_eq_some_iff {p t : Str} :
    titleOf p = some t ↔ ∃ d b, p = d ++ '/' :: b ∧ '/' ∉ b ∧ 4 ≤ b.length ∧ t = stem b := by
  constructor
  · intro h
    by_cases hp : '/' ∈ p
    · obtain ⟨d, b, rfl, hb⟩ := exists_last_segment hp
      rw [titleOf_append_cons hb] at h
      by_cases h4 : 4 ≤ b.length
      · rw [if_pos h4] at h
        exact ⟨d, b, rfl, hb, h4, (Option.some_inj.1 h).symm⟩
      · rw [if_neg h4] at h
        exact absurd h (by simp)
    · rw [titleOf_of_notMem hp] at h
      exact absurd h (by simp)
  · rintro ⟨d, b, rfl, hb, h4, rfl⟩
    rw [titleOf_append_cons hb, if_pos h4]

/-- The extraction throws exactly on the paths without a `/` and on those with a shorter base
name. -/
theorem titleOf_eq_none_iff {p : Str} :
    titleOf p = none ↔ '/' ∉ p ∨ ∃ d b, p = d ++ '/' :: b ∧ '/' ∉ b ∧ b.length < 4 := by
  constructor
  · intro h
    by_cases hp : '/' ∈ p
    · obtain ⟨d, b, rfl, hb⟩ := exists_last_segment hp
      refine Or.inr ⟨d, b, rfl, hb, ?_⟩
      by_contra h4
      rw [titleOf_append_cons hb, if_pos (by omega)] at h
      exact absurd h (by simp)
    · exact Or.inl hp
  · rintro (hp | ⟨d, b, rfl, hb, h4⟩)
    · exact titleOf_of_notMem hp
    · rw [titleOf_append_cons hb, if_neg (by omega)]

/-- The longest prefix of `t` without a `-`. -/
def LongestPrefix (q t : Str) : Prop :=
  q <+: t ∧ '-' ∉ q ∧ ∀ q', q' <+: t → '-' ∉ q' → q'.length ≤ q.length

theorem longestPrefix_answer (t : Str) : LongestPrefix (answer t) t := by
  refine ⟨List.takeWhile_prefix _, ?_, ?_⟩
  · intro h
    exact absurd (List.mem_takeWhile_imp h) (by simp)
  · rintro q' ⟨u, rfl⟩ hq'
    have hall : ∀ c ∈ q', decide (c ≠ '-') = true := by
      intro c hc
      have hne : c ≠ '-' := by
        rintro rfl
        exact hq' hc
      simpa using hne
    rw [answer, List.takeWhile_append_of_pos hall, List.length_append]
    exact Nat.le_add_right _ _

theorem letters_length (U : CaseMap) (t : Str) : (letters U t).length = (answer t).length := by
  rw [letters, List.length_map]

/-- On a dealable path the extraction succeeds and the answer fits on the cards. -/
theorem dealable_iff {p : Str} :
    Dealable p ↔ ∃ t, titleOf p = some t ∧ (answer t).length ≤ 15 := by
  constructor
  · rintro ⟨d, b, hp, hb, h4, h15⟩
    exact ⟨stem b, titleOf_eq_some_iff.2 ⟨d, b, hp, hb, h4, rfl⟩, h15⟩
  · rintro ⟨t, ht, h15⟩
    obtain ⟨d, b, hp, hb, h4, rfl⟩ := titleOf_eq_some_iff.1 ht
    exact ⟨d, b, hp, hb, h4, h15⟩

instance : DecidablePred Dealable := fun p =>
  decidable_of_iff ((titleOf p).any fun t => (answer t).length ≤ 15) <| by
    rw [dealable_iff, Option.any_eq_true]
    simp

/-- A letter of an answer is never the empty string, which marks an open position. -/
theorem ne_nil_of_mem_letters {U : CaseMap} {t a : Str} (h : a ∈ letters U t) : a ≠ [] := by
  obtain ⟨c, -, rfl⟩ := List.mem_map.1 h
  exact U.toUpperCase_ne_nil c

theorem letters_cons_dash (U : CaseMap) (t : Str) : letters U ('-' :: t) = [] := rfl

theorem letters_cons {c : Char} (h : c ≠ '-') (U : CaseMap) (t : Str) :
    letters U (c :: t) = U.toUpperCase c :: letters U t := by
  simp [letters, answer, h]

namespace Quiz

/-! ### The loops of `task` -/

theorem spell_eq (U : CaseMap) (t : Str) (s : Quiz) :
    spell U t s =
      { s with
        randomalphabets := s.randomalphabets ++ letters U t
        text := s.text ++ List.replicate (letters U t).length []
        correct := s.correct ++ letters U t } := by
  induction t generalizing s with
  | nil => simp [spell, letters, answer]
  | cons c t ih =>
      by_cases hc : c = '-'
      · subst hc
        simp [spell, letters_cons_dash]
      · rw [spell, if_neg hc, ih, letters_cons hc]
        simp [List.replicate_succ]

theorem fill_eq (U : CaseMap) (t : Str) (s : Quiz) :
    fill U t s =
      { s with randomalphabets := s.randomalphabets ++ t.map U.toUpperCase } := by
  induction t generalizing s with
  | nil => simp [fill]
  | cons c t ih =>
      rw [fill, ih]
      simp

/-- The letters that the row of the positions `lo, …, lo + 4` receives from `l`, when the counter of
the distributing loop stands at `y`. -/
def slice (lo y : ℕ) (l : List Str) : List Str := (l.drop (lo - y)).take (lo + 5 - max lo y)

/-- One round of the distributing loop, as one row sees it. -/
theorem slice_cons (lo y : ℕ) (a : Str) (l : List Str) :
    slice lo y (a :: l) = (if lo ≤ y ∧ y < lo + 5 then [a] else []) ++ slice lo (y + 1) l := by
  rcases Nat.lt_or_ge y lo with hlo | hlo
  · have hdrop : lo - y = lo - (y + 1) + 1 := by omega
    have hmax : max lo y = max lo (y + 1) := by omega
    rw [if_neg (by omega), slice, slice, hdrop, hmax, List.drop_succ_cons, List.nil_append]
  · have hdrop : lo - y = 0 := by omega
    have hdrop' : lo - (y + 1) = 0 := by omega
    rcases Nat.lt_or_ge y (lo + 5) with hhi | hhi
    · have htake : lo + 5 - max lo y = lo + 5 - max lo (y + 1) + 1 := by omega
      rw [if_pos ⟨hlo, hhi⟩, slice, slice, hdrop, hdrop', htake]
      rfl
    · have htake : lo + 5 - max lo y = 0 := by omega
      have htake' : lo + 5 - max lo (y + 1) = 0 := by omega
      rw [if_neg (by omega), slice, slice, htake, htake', List.take_zero, List.take_zero]
      rfl

theorem split_eq (y : ℕ) (l : List Str) (s : Quiz) :
    split y l s =
      { s with
        r1 := s.r1 ++ slice 0 y l
        r2 := s.r2 ++ slice 5 y l
        r3 := s.r3 ++ slice 10 y l } := by
  induction l generalizing y s with
  | nil => simp [split, slice]
  | cons a l ih =>
      have happ : ∀ (p : Prop) [Decidable p] (u v : List Str),
          u ++ ((if p then [a] else []) ++ v) = (if p then u ++ [a] else u) ++ v := by
        intro p _ u v
        by_cases h : p <;> simp [h]
      rw [split, ih, slice_cons 0, slice_cons 5, slice_cons 10, happ, happ, happ]
      simp

/-- The whole distribution: three rows of five. -/
theorem split_zero (l : List Str) (s : Quiz) :
    split 0 l s =
      { s with
        r1 := s.r1 ++ l.take 5
        r2 := s.r2 ++ (l.drop 5).take 5
        r3 := s.r3 ++ (l.drop 10).take 5 } := by
  rw [split_eq]
  rfl

/-! ### The draw -/

/-- The redraw loop ends at an index that has not been drawn before, or has only seen indices that
have. -/
theorem redraw_cases (s : Quiz) (ks : List ℕ) :
    (∃ k, s.redraw ks = .stop .drawing { s with picCount := k, inLoop := true } ∧
        ∀ x ∈ ks, x % s.images.length ∈ s.repeated) ∨
      ∃ x ∈ ks, x % s.images.length ∉ s.repeated ∧
        s.redraw ks = .done { s with picCount := x % s.images.length } := by
  induction ks generalizing s with
  | nil => exact Or.inl ⟨s.picCount, rfl, by simp⟩
  | cons x ks ih =>
      by_cases hx : x % s.images.length ∈ s.repeated
      · have hred : s.redraw (x :: ks) =
            redraw { s with picCount := x % s.images.length } ks := by
          rw [redraw]
          exact if_pos hx
        rcases ih { s with picCount := x % s.images.length } with ⟨k, hk, hall⟩ | ⟨y, hy, hy', hk⟩
        · refine Or.inl ⟨k, by rw [hred, hk], ?_⟩
          intro z hz
          rcases List.mem_cons.1 hz with rfl | hz
          · exact hx
          · exact hall z hz
        · exact Or.inr ⟨y, List.mem_cons_of_mem x hy, hy', by rw [hred, hk]⟩
      · refine Or.inr ⟨x, List.mem_cons_self .., hx, ?_⟩
        rw [redraw]
        exact if_neg hx

/-! ### The results of a call -/

/-- The index `k` has been drawn. -/
def drawn (s : Quiz) (k : ℕ) : Quiz :=
  { s.clear with
    picCount := k
    repeated := s.repeated ++ [k] }

/-- The path `p` at the index `k` is about to be taken apart. -/
def picked (s : Quiz) (k : ℕ) (p : Str) : Quiz :=
  { s.drawn k with
    count := s.count + 1
    firstpic := p
    title := p.reverse }

/-- The title `t` has been spelled out. -/
def spelled (U : CaseMap) (s : Quiz) (k : ℕ) (p t : Str) : Quiz :=
  { s.picked k p with
    title := t
    randomalphabets := letters U t
    text := List.replicate (letters U t).length []
    correct := letters U t }

/-- The letter bank of a title: the letters of the answer and the random ones, shuffled. -/
def bank (U : CaseMap) (rnd : Rand) (t : Str) : List Str :=
  rnd.shuffle
    (letters U t ++ (rnd.randomAlpha (15 - (letters U t).length)).map U.toUpperCase)

/-- The logo at the index `k` is on display. -/
def dealt (U : CaseMap) (rnd : Rand) (s : Quiz) (k : ℕ) (p t : Str) : Quiz :=
  { s.spelled U k p t with
    r := rnd.randomAlpha (15 - (letters U t).length)
    randomalphabets := bank U rnd t
    r1 := (bank U rnd t).take 5
    r2 := ((bank U rnd t).drop 5).take 5
    r3 := ((bank U rnd t).drop 10).take 5
    loopCount := s.loopCount + 1 }

/-- The index `k` is drawn by the redraw loop. -/
structure Fresh (rnd : Rand) (s : Quiz) (k : ℕ) : Prop where
  lt : k < s.images.length
  new : k ∉ s.repeated
  drawn : ∃ x ∈ rnd.nextInt, x % s.images.length = k

/-- Random sources that answer with the index `k`, fill up with the letter `x` and shuffle
nothing. -/
def onlyDraws (k : ℕ) : Rand := ⟨[k], fun n => List.replicate n 'x', fun l => l⟩

/-- With these sources the only index that can be drawn is `k`. -/
theorem Fresh.eq_of_onlyDraws {s : Quiz} {k x : ℕ} (hk : k < s.images.length)
    (h : Fresh (onlyDraws k) s x) : x = k := by
  obtain ⟨y, hy, rfl⟩ := h.drawn
  rw [List.mem_singleton.1 hy, Nat.mod_eq_of_lt hk]

/-- **The results of a call of `task`.** -/
inductive TaskResult (U : CaseMap) (rnd : Rand) (s : Quiz) : Outcome Cut Quiz → Prop where
  /-- The redraw loop is still running. -/
  | drawing {k : ℕ} (hall : ∀ x ∈ rnd.nextInt, x % s.images.length ∈ s.repeated) :
      TaskResult U rnd s (.stop .drawing { s.clear with picCount := k, inLoop := true })
  /-- The title cannot be cut out of the path. -/
  | unread {k : ℕ} {p : Str} (hk : Fresh rnd s k) (hloop : s.loopCount < s.images.length - 1)
      (hp : s.images[k]? = some p)
      (ht : titleOf p = none) : TaskResult U rnd s (.stop .rangeError (s.picked k p))
  /-- The answer has more letters than there are cards. -/
  | misfit {k : ℕ} {p t : Str} (hk : Fresh rnd s k) (hloop : s.loopCount < s.images.length - 1)
      (hp : s.images[k]? = some p)
      (ht : titleOf p = some t) (hlen : 15 < (answer t).length) :
      TaskResult U rnd s (.stop .negativeLength (s.spelled U k p t))
  /-- A logo is dealt. -/
  | dealt {k : ℕ} {p t : Str} (hk : Fresh rnd s k) (hloop : s.loopCount < s.images.length - 1)
      (hp : s.images[k]? = some p)
      (ht : titleOf p = some t) (hlen : (answer t).length ≤ 15) :
      TaskResult U rnd s (.done (s.dealt U rnd k p t))
  /-- The game is over. -/
  | ending {k : ℕ} (hk : Fresh rnd s k) (hloop : ¬ s.loopCount < s.images.length - 1) :
      TaskResult U rnd s (.done { s.drawn k with ended := true })

/-- The part after the title has been found. -/
theorem dealTitle_picked (U : CaseMap) (rnd : Rand) (s : Quiz) (k : ℕ) (p t : Str) :
    dealTitle U rnd t (s.picked k p) =
      if 15 < (answer t).length then .stop .negativeLength (s.spelled U k p t)
      else .done (s.dealt U rnd k p t) := by
  have hspell : spell U t { s.picked k p with title := t } = s.spelled U k p t := by
    rw [spell_eq]
    rfl
  rw [← letters_length U t, dealTitle, hspell]
  simp only [fill_eq, split_zero]
  rfl

/-- The part after the draw, as a call with a given index. -/
theorem deal_result (U : CaseMap) {rnd : Rand} {s : Quiz} {k : ℕ} (hk : Fresh rnd s k) :
    TaskResult U rnd s (deal U rnd { s.clear with picCount := k }) := by
  by_cases hloop : s.loopCount < s.images.length - 1
  · obtain ⟨p, hp⟩ : ∃ p, s.images[k]? = some p := ⟨_, List.getElem?_eq_getElem hk.lt⟩
    cases hcut : substring p.reverse 4 (indexOf '/' p.reverse) with
    | none =>
        have hdeal : deal U rnd { s.clear with picCount := k } =
            .stop .rangeError (s.picked k p) := by
          rw [deal]
          simp only [clear, hloop, if_true, hp, hcut]
          rfl
        rw [hdeal]
        exact .unread hk hloop hp (by rw [titleOf, hcut]; rfl)
    | some title =>
        have ht : titleOf p = some title.reverse := by rw [titleOf, hcut]; rfl
        have hdeal : deal U rnd { s.clear with picCount := k } =
            dealTitle U rnd title.reverse (s.picked k p) := by
          rw [deal]
          simp only [clear, hloop, if_true, hp, hcut]
          rfl
        rw [hdeal, dealTitle_picked]
        by_cases hlen : 15 < (answer title.reverse).length
        · rw [if_pos hlen]
          exact .misfit hk hloop hp ht hlen
        · rw [if_neg hlen]
          exact .dealt hk hloop hp ht (by omega)
  · have hdeal : deal U rnd { s.clear with picCount := k } =
        .done { s.drawn k with ended := true } := by
      rw [deal]
      simp only [clear, hloop, if_false]
      rfl
    rw [hdeal]
    exact .ending hk hloop

/-- Without paths `random.nextInt(0)` throws. -/
theorem task_of_empty (U : CaseMap) (rnd : Rand) {s : Quiz} (h : ¬ 0 < s.images.length) :
    task U rnd s = .stop .rangeError s.clear := by
  have hzero : s.clear.images.length = 0 := by
    change s.images.length = 0
    omega
  rw [task, if_pos hzero]

/-- **Every call of `task` on a non-empty list of paths has one of the five results.** -/
theorem taskResult (U : CaseMap) (rnd : Rand) {s : Quiz} (h : 0 < s.images.length) :
    TaskResult U rnd s (task U rnd s) := by
  have hne : ¬ s.clear.images.length = 0 := by
    change ¬ s.images.length = 0
    omega
  rw [task, if_neg hne]
  rcases redraw_cases s.clear rnd.nextInt with ⟨k, hk, hall⟩ | ⟨x, hx, hnew, hk⟩
  · rw [hk]
    exact .drawing hall
  · rw [hk]
    exact deal_result U ⟨Nat.mod_lt x h, hnew, x, hx, rfl⟩

/-! ### The title and the answer of the drawn path -/

/-- **The title and the answer of the drawn path.**  Let a call of `task` that is not the last one
draw the path `p`.  If `p` has a base name `b` of at least four units, then reversing, searching,
cutting and reversing again yields `b` without its last four units; the letters of the answer are
those of its longest prefix without `-`, in upper case, and the text has as many open positions.
The extraction throws exactly when `p` has no `/` or a shorter base name. -/
theorem title_of_task (U : CaseMap) (rnd : Rand) {s : Quiz} {p : Str}
    (hloop : s.loopCount < s.images.length - 1) (hdrawn : (task U rnd s).state.inLoop = false)
    (hp : s.images[(task U rnd s).state.picCount]? = some p) :
    (∀ d b, p = d ++ '/' :: b → '/' ∉ b → 4 ≤ b.length →
        titleOf p = some (b.take (b.length - 4)) ∧
        (task U rnd s).state.title = b.take (b.length - 4) ∧
        ∃ q, LongestPrefix q (b.take (b.length - 4)) ∧
          (task U rnd s).state.correct = q.map U.toUpperCase ∧
          (task U rnd s).state.text = List.replicate q.length []) ∧
      ((∃ k, task U rnd s = .stop .rangeError (s.picked k p)) ↔
        '/' ∉ p ∨ ∃ d b, p = d ++ '/' :: b ∧ '/' ∉ b ∧ b.length < 4) := by
  have hres := taskResult U rnd (s := s) (by omega)
  rw [← titleOf_eq_none_iff]
  -- what has been spelled when the title is `t`, whether or not the answer fits on the cards
  have hspelled : ∀ {t : Str}, titleOf p = some t → ∀ d b, p = d ++ '/' :: b → '/' ∉ b →
      4 ≤ b.length → titleOf p = some (b.take (b.length - 4)) ∧ t = b.take (b.length - 4) ∧
        ∃ q, LongestPrefix q (b.take (b.length - 4)) ∧ letters U t = q.map U.toUpperCase ∧
          List.replicate (letters U t).length ([] : Str) = List.replicate q.length [] := by
    intro t ht d b hpb hb h4
    have htitle : titleOf p = some (stem b) := titleOf_eq_some_iff.2 ⟨d, b, hpb, hb, h4, rfl⟩
    obtain rfl : t = stem b := Option.some_inj.1 (ht.symm.trans htitle)
    refine ⟨htitle, rfl, answer (stem b), longestPrefix_answer (stem b), rfl, ?_⟩
    rw [letters_length]
  generalize task U rnd s = o at hdrawn hp hres
  cases hres with
  | drawing hall => exact absurd hdrawn (by simp)
  | @unread k p' hk hlt hp' ht =>
      obtain rfl : p' = p := Option.some_inj.1 (hp'.symm.trans hp)
      refine ⟨?_, fun _ => ht, fun _ => ⟨k, rfl⟩⟩
      intro d b hpb hb h4
      rw [titleOf_eq_some_iff.2 ⟨d, b, hpb, hb, h4, rfl⟩] at ht
      exact absurd ht (by simp)
  | @misfit k p' t hk hlt hp' ht hlen =>
      obtain rfl : p' = p := Option.some_inj.1 (hp'.symm.trans hp)
      refine ⟨hspelled ht, ?_, fun hnone => absurd (hnone.symm.trans ht) (by simp)⟩
      rintro ⟨k', hstop⟩
      exact absurd hstop (by simp)
  | @dealt k p' t hk hlt hp' ht hlen =>
      obtain rfl : p' = p := Option.some_inj.1 (hp'.symm.trans hp)
      refine ⟨hspelled ht, ?_, fun hnone => absurd (hnone.symm.trans ht) (by simp)⟩
      rintro ⟨k', hstop⟩
      exact absurd hstop (by simp)
  | ending hk hlt => exact absurd hloop hlt

/-- Two logos: the first one is drawn. -/
theorem title_of_task_logoPath :
    (task .ascii (onlyDraws 0) { images := [logoPath, logoPath] }).state.title = ['A'] := by
  have h := title_of_task (s := { images := [logoPath, logoPath] }) (p := logoPath) .ascii
    (onlyDraws 0) (by decide) (by decide) (by decide)
  exact (h.1 ['d'] ['A', '.', 'p', 'n', 'g'] rfl (by decide) (by decide)).2.1

end Quiz

end LogoGuess
