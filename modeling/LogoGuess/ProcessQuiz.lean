/-
**From the archive to the game.**

The quiz knows the archive only through the text of a list of paths: the setup screen makes a path
from the name of each entry, stores the list, and `task` cuts the answer out of a path again.  In
between processes are killed and the list goes through the store.  This module follows the entries
all the way and states what the player sees and scores in terms of the archive.

Main definitions:

* `LogoGuess.Entry.base`, `LogoGuess.Entry.word` — the base name of an entry, and the word that is
  guessed for it;
* `LogoGuess.Setup.Linked` — the recorded paths lead to the entries of the archive, one for one;
* `LogoGuess.Quiz.Faced` — the picture and the answer on display belong to the drawn path.

Main results:

* `LogoGuess.Setup.linked_of_run`, `LogoGuess.Quiz.faced_of_play` — so it is in every run;
* `LogoGuess.Process.shows_archive` — **the quiz shows the entries of the latest archive**;
* `LogoGuess.Process.scores_archive` — **a result counts the entries of the latest archive**.
-/

import LogoGuess.ProcessSetup
import LogoGuess.ThankYou

set_option relaxedAutoImplicit false
set_option autoImplicit false

namespace LogoGuess

open Dart EventLoop

/-! ### The word of an entry -/

namespace Entry

/-- The base name of an entry: what follows the last `/` of its name. -/
def base (file : Entry) : Str := (file.name.reverse.takeWhile (· ≠ '/')).reverse

/-- **The word that is guessed for an entry**; there is none when its base name is too short. -/
def word (U : CaseMap) (file : Entry) : List Str :=
  if 4 ≤ file.base.length then letters U (stem file.base) else []

/-- **An entry for a logo**: its word has between one and fifteen letters. -/
def Logo (file : Entry) : Prop :=
  4 ≤ file.base.length ∧ 1 ≤ (answer (stem file.base)).length ∧
    (answer (stem file.base)).length ≤ 15

/-- Reading backwards, the first `/` is not met inside a text without one. -/
theorem takeWhile_reverse {b : Str} (hb : '/' ∉ b) (l : Str) :
    (b.reverse ++ l).takeWhile (· ≠ '/') = b.reverse ++ l.takeWhile (· ≠ '/') := by
  refine List.takeWhile_append_of_pos ?_
  intro x hx
  refine decide_eq_true ?_
  rintro rfl
  exact hb (List.mem_reverse.1 hx)

/-- The base name of an entry is the base name of its path. -/
theorem exists_base (dir : Str) (file : Entry) :
    ∃ d, dir ++ '/' :: file.name = d ++ '/' :: file.base ∧ '/' ∉ file.base := by
  by_cases hmem : '/' ∈ file.name
  · obtain ⟨d, b, hname, hb⟩ := exists_last_segment hmem
    have hbase : file.base = b := by
      rw [base, hname, List.reverse_append, List.reverse_cons, List.append_assoc,
        takeWhile_reverse hb]
      simp
    exact ⟨dir ++ '/' :: d, by simp [hname, hbase], hbase ▸ hb⟩
  · have hbase : file.base = file.name := by
      rw [base, ← List.append_nil file.name.reverse, takeWhile_reverse hmem]
      simp
    exact ⟨dir, by rw [hbase], hbase ▸ hmem⟩

/-- **`task` cuts the word out of the path again.** -/
theorem titleOf_path (dir : Str) (file : Entry) :
    titleOf (dir ++ '/' :: file.name) =
      if 4 ≤ file.base.length then some (stem file.base) else none := by
  obtain ⟨d, hd, hb⟩ := exists_base dir file
  rw [hd, titleOf_append_cons hb]

theorem Logo.wellFormed {file : Entry} (h : file.Logo) (dir : Str) :
    WellFormed (dir ++ '/' :: file.name) := by
  obtain ⟨d, hd, hb⟩ := exists_base dir file
  exact ⟨d, file.base, hd, hb, h⟩

end Entry

/-! ### The recorded paths -/

namespace Setup

/-- **The recorded paths lead to the entries of the archive**, one for one. -/
def Linked (S : Setup) : Prop :=
  ∀ (i : ℕ) (fileName : Str) (file : Entry), S.images[i]? = some fileName →
    S.archive[i]? = some file → ∃ dir, fileName = dir ++ '/' :: file.name

section

variable {p p' : Prefs} {S S' : Setup}

/-- The head of the loop. -/
theorem linked_nextEntry (log : List (Str × Entry)) {archive : List Entry} (h : S.Linked)
    (hproc : Processed log archive S.archive S.images) : (S.nextEntry archive).Linked := by
  cases archive with
  | nil => exact h
  | cons file archive =>
      obtain ⟨harchive, himages⟩ := hproc
      have hlen : S.images.length = (log.map Prod.snd).length := by simp [himages]
      intro i fileName entry hi he
      change (S.images ++ [S.path file.name])[i]? = some fileName at hi
      change S.archive[i]? = some entry at he
      by_cases hlt : i < S.images.length
      · rw [List.getElem?_append_left hlt] at hi
        exact h i fileName entry hi he
      · -- the path that has just been appended
        rw [List.getElem?_append_right (by omega)] at hi
        rw [harchive, List.getElem?_append_right (by omega), ← hlen] at he
        rw [List.getElem?_singleton] at hi
        obtain ⟨hzero, heq⟩ := Option.ite_none_right_eq_some.1 hi
        rw [hzero, List.getElem?_cons_zero] at he
        obtain rfl := Option.some_inj.1 heq
        obtain rfl := Option.some_inj.1 he
        exact ⟨S.dir.getD ['n', 'u', 'l', 'l'], rfl⟩

/-- **A resumption of the download keeps the links.** -/
theorem Resumes.linked (hf : Filed p S) (h : S.Linked) (hr : Resumes p S p' S') : S'.Linked := by
  rw [Filed] at hf
  cases hr with
  | @decoded file archive hd =>
      rw [hd] at hf
      have himages : S.images = [] := hf.1
      have hempty : Linked { S with archive := archive } := by
        intro i fileName entry hi
        change S.images[i]? = some fileName at hi
        simp [himages] at hi
      exact linked_nextEntry [] hempty ⟨rfl, himages⟩
  | written hd =>
      rw [hd] at hf
      obtain ⟨log, hproc, -⟩ := hf
      exact linked_nextEntry _ h hproc
  | directory hd _ =>
      rw [hd] at hf
      obtain ⟨log, hproc, -⟩ := hf
      exact linked_nextEntry _ h hproc
  | _ => exact h

/-- **The links hold in every run of the setup screen.** -/
theorem linked_of_run {p₀ : Prefs} {tr : List (Move (Prefs × Setup) Event)} {st : Prefs × Setup}
    (h : Run step (p₀, {}) tr st) : st.2.Linked := by
  refine Run.invariant (I := fun _ st => st.2.Linked) (fun i _ _ hi => by simp at hi) ?_ h
  intro tr st e st' hrun ih hs
  obtain ⟨p, S⟩ := st
  cases e with
  | directory path =>
      obtain ⟨-, rfl⟩ := of_guard hs
      exact ih
  | press =>
      obtain ⟨-, rfl⟩ := of_guard hs
      exact ih
  | snapshot v =>
      obtain ⟨-, rfl⟩ := of_guard hs
      obtain ⟨-, himages, harchive, -⟩ := download_retrieveurl S v
      change (S.retrieveurl v).Linked
      rw [Linked, himages, harchive]
      exact ih
  | noSnapshot =>
      obtain ⟨-, rfl⟩ := of_guard hs
      exact ih
  | reply r => exact (resumes_of_resume hs).linked (filed_of_run hrun).2 ih

/-- **The files have been written** under the recorded paths, when the download is complete. -/
theorem mem_written {p₀ p : Prefs} {tr : List (Move (Prefs × Setup) Event)}
    (h : Run step (p₀, {}) tr (p, S)) (hd : S.download = .returned) {i : ℕ} {fileName : Str}
    {file : Entry} (hi : S.images[i]? = some fileName) (he : S.archive[i]? = some file)
    (hf : file.isFile = true) : fileName ∈ S.written := by
  have hfiled := (filed_of_run h).2
  rw [Filed] at hfiled
  simp only [hd] at hfiled
  obtain ⟨log, ⟨harchive, himages⟩, -, hwritten, -⟩ := hfiled
  rw [List.append_nil] at harchive
  have hentry : log[i]? = some (fileName, file) := by
    rw [himages, List.getElem?_map] at hi
    rw [harchive, List.getElem?_map] at he
    obtain ⟨x, hx, rfl⟩ := Option.map_eq_some_iff.1 hi
    obtain ⟨y, hy, rfl⟩ := Option.map_eq_some_iff.1 he
    obtain rfl := Option.some_inj.1 (hx.symm.trans hy)
    exact hx
  rw [hwritten, filesOf]
  refine List.mem_map.2 ⟨(fileName, file), ?_, rfl⟩
  exact List.mem_filter.2 ⟨List.mem_of_getElem? hentry, hf⟩

end

end Setup

/-! ### The path on display -/

namespace Quiz

/-- **The picture and the answer on display belong to the drawn path.** -/
def Faced (U : CaseMap) (s : Quiz) : Prop :=
  s.start = .next → s.ended = false → s.inLoop = false →
    s.images[s.picCount]? = some s.firstpic ∧ s.correct = word U s.images s.picCount

section

variable {U : CaseMap} {names : List Str} {s s' : Quiz} {rnd : Rand}

/-- Whatever a call of `task` ends with: when the title cannot be cut out of the path there is no
answer. -/
theorem TaskResult.faced {o : Outcome Cut Quiz} (hr : TaskResult U rnd s o) : Faced U o.state := by
  cases hr with
  | drawing => exact fun _ _ hi => absurd hi (by simp)
  | @unread k p _ _ hp ht =>
      refine fun _ _ _ => ⟨hp, ?_⟩
      change [] = word U s.images k
      rw [word, hp, Option.bind_some, ht]
      rfl
  | misfit _ _ hp ht _ => exact fun _ _ _ => ⟨hp, (word_eq hp ht).symm⟩
  | dealt _ _ hp ht _ => exact fun _ _ _ => ⟨hp, (word_eq hp ht).symm⟩
  | ending => exact fun _ he => absurd he (by simp)

theorem Effect.faced {e : Event} (h : Faced U s) (he : Effect U names s e s') : Faced U s' := by
  cases he with
  | start _ hr => exact hr.faced
  | idle _ => exact h
  | hit _ _ _ => exact h
  | solved _ _ _ hr => exact hr.faced
  | gift _ _ _ hr => exact hr.faced
  | count _ _ _ => exact h
  | finish _ _ _ => exact h
  | expireCut _ _ hr => exact hr.faced
  | expire _ _ hr _ => exact hr.faced
  | expireEnd _ _ hr _ => exact hr.faced

/-- **In every run the picture and the answer belong to the drawn path**, whatever the paths are. -/
theorem faced_of_play (hn : 0 < names.length) {tr : List (Move Quiz Event)}
    (h : Play U names tr s) : Faced U s := by
  refine Run.invariant (I := fun _ s => Faced U s) (fun hs => absurd hs (by simp)) ?_ h
  intro tr s e s' hrun ih hs
  have hpre : s = {} ∨ Core names s := by
    rcases core_of_play hn hrun with ⟨-, rfl⟩ | ⟨-, hcore, -⟩
    · exact Or.inl rfl
    · exact Or.inr hcore
  exact (effect_of_step hn hpre hs).faced ih

end

end Quiz

/-! ### What the player sees and scores -/

namespace Process

section

variable {P : Process} {tr₀ : List (Move Process Event)} {names : List Str} {S : Setup}
  {U : CaseMap} {s : Quiz} {tr : List (Move Quiz Quiz.Event)}

/-- The paths that the quiz is given, and the entries that they lead to. -/
theorem exists_entries (h₀ : Run step {} tr₀ P) (ho : Orderly tr₀)
    (hq : ∃ r ∈ P.app.routes, r ≠ .iDownload) (hl : App.getIm P.app.prefs = some names)
    (hS : P.app.latest = some S) (hne : S.archive ≠ []) :
    names.length = S.archive.length ∧ ∀ (k : ℕ) (p : Str), names[k]? = some p →
      ∃ file, S.archive[k]? = some file ∧ (∃ dir, p = dir ++ '/' :: file.name) ∧
        (file.isFile = true → p ∈ S.written) := by
  obtain ⟨T, hT, hwhole⟩ := (durable_of_run h₀ ho).getIm_eq hq hl
  obtain rfl := Option.some_inj.1 (hS.symm.trans hT)
  obtain ⟨rfl, hlen⟩ := hwhole hne
  obtain ⟨hret, p₀, tr', p', hrun⟩ := exists_run_latest h₀ ho hS
  refine ⟨hlen, ?_⟩
  intro k p hk
  have hlt : k < S.archive.length := hlen ▸ (List.getElem?_eq_some_iff.1 hk).1
  have he : S.archive[k]? = some S.archive[k] := List.getElem?_eq_getElem hlt
  exact ⟨_, he, Setup.linked_of_run hrun k p _ hk he, Setup.mem_written hrun hret hk he⟩

/-- **The quiz shows the entries of the latest archive.**  In every orderly history that leads to
the quiz, with kills at any moment and exceptions at any `await` of the setup, of Next and of Help,
and in every game over the list that `getIm` finds there, if the latest archive had an entry:
whenever a logo is on display, its picture is at the path of an entry of the latest archive, which
has been written if the entry is a file; and the answer is spelled from the name of this entry. -/
theorem shows_archive (h₀ : Run step {} tr₀ P) (ho : Orderly tr₀)
    (hq : ∃ r ∈ P.app.routes, r ≠ .iDownload) (hl : App.getIm P.app.prefs = some names)
    (hS : P.app.latest = some S) (hne : S.archive ≠ []) (h : Quiz.Play U names tr s)
    (hstart : tr ≠ []) (hend : s.ended = false) (hloop : s.inLoop = false) :
    ∃ file, S.archive[s.picCount]? = some file ∧ s.correct = file.word U ∧
      (∃ dir, s.firstpic = dir ++ '/' :: file.name) ∧
      (file.isFile = true → s.firstpic ∈ S.written) := by
  obtain ⟨hlen, hentry⟩ := exists_entries h₀ ho hq hl hS hne
  have hn : 0 < names.length := by rwa [hlen, List.length_pos_iff]
  rcases Quiz.core_of_play hn h with ⟨hnil, -⟩ | ⟨-, hcore, -⟩
  · exact absurd hnil hstart
  obtain ⟨hpic, hcorrect⟩ := Quiz.faced_of_play hn h hcore.started hend hloop
  rw [hcore.images] at hpic hcorrect
  obtain ⟨file, hfile, ⟨dir, hdir⟩, hwritten⟩ := hentry _ _ hpic
  refine ⟨file, hfile, ?_, ⟨dir, hdir⟩, hwritten⟩
  rw [hcorrect, Quiz.word, hpic, Option.bind_some, hdir, file.titleOf_path, Entry.word]
  split <;> rfl

end

/-- A first launch, the setup with an archive of two logos, and Play. -/
def twoLogos : List Event :=
  started 7 ++ installed [Setup.logoEntry, Setup.logoEntry] ++ nextPressed ++ [.app .play]

theorem exists_run_twoLogos :
    ∃ tr P S, Run step {} tr P ∧ Orderly tr ∧ (∃ r ∈ P.app.routes, r ≠ .iDownload) ∧
      App.getIm P.app.prefs = some [logoPath, logoPath] ∧ P.app.latest = some S ∧
      S.archive = [Setup.logoEntry, Setup.logoEntry] := by
  have hexec : (exec (guarded step orderly) {} twoLogos).map
      (fun P => (P.app.routes.head?, P.app.prefs.names, P.app.latest.map Setup.archive)) =
        some (some .quiz, some (Json.encode [logoPath, logoPath]),
          some [Setup.logoEntry, Setup.logoEntry]) := by
    decide
  obtain ⟨tr, P, hrun, hfields, -⟩ := exists_run_of_exec hexec
  obtain ⟨hrun, ho⟩ := run_guarded_iff.1 hrun
  obtain ⟨hhead, hrest⟩ := Prod.mk.inj hfields
  obtain ⟨hnames, hlatest⟩ := Prod.mk.inj hrest
  obtain ⟨S, hS, harchive⟩ := Option.map_eq_some_iff.1 hlatest
  refine ⟨tr, P, S, hrun, ho, ⟨.quiz, List.mem_of_head? hhead, by simp⟩, ?_, hS, harchive⟩
  rw [App.getIm, hnames, Option.bind_some, Json.decode_encode]

/-- Start deals the first of the two logos. -/
theorem shows_archive_twoLogos :
    ∃ tr s, Quiz.Play .ascii [logoPath, logoPath] tr s ∧
      ∃ file ∈ [Setup.logoEntry, Setup.logoEntry], s.correct = file.word .ascii := by
  obtain ⟨tr₀, P, S, hrun₀, ho, hq, hl, hS, harchive⟩ := exists_run_twoLogos
  have hexec : (exec (Quiz.step .ascii [logoPath, logoPath]) {}
      [.start (Quiz.onlyDraws 0)]).map (fun s => (s.ended, s.inLoop)) = some (false, false) := by
    decide
  obtain ⟨tr, s, hrun, hfields, hev⟩ := exists_run_of_exec hexec
  obtain ⟨hend, hloop⟩ := Prod.mk.inj hfields
  have hstart : tr ≠ [] := by
    rintro rfl
    exact absurd hev (by simp)
  obtain ⟨file, hfile, hcorrect, -⟩ :=
    shows_archive hrun₀ ho hq hl hS (by simp [harchive]) hrun hstart hend hloop
  exact ⟨tr, s, hrun, file, harchive ▸ List.mem_of_getElem? hfile, hcorrect⟩

section

variable {P : Process} {tr₀ : List (Move Process Event)} {names : List Str} {S : Setup}
  {U : CaseMap} {s : Quiz} {tr : List (Move Quiz Quiz.Event)}

/-- **A result counts the entries of the latest archive.**  In every orderly history that leads to
the quiz after the download of an archive of logos, which has an entry, and in every game over the
list that `getIm` finds there: the result shows how many different entries of the archive have been
solved, out of the number of its entries, and at least one entry is missing. -/
theorem scores_archive (h₀ : Run step {} tr₀ P) (ho : Orderly tr₀)
    (hq : ∃ r ∈ P.app.routes, r ≠ .iDownload) (hl : App.getIm P.app.prefs = some names)
    (hS : P.app.latest = some S) (hne : S.archive ≠ [])
    (hlogo : ∀ file ∈ S.archive, file.Logo) (h : Quiz.Play U names tr s) {sc : Score}
    (hsc : sc ∈ s.pushed) :
    (Quiz.solvedIn tr).Nodup ∧ (∀ k ∈ Quiz.solvedIn tr, k < S.archive.length) ∧
      (Quiz.solvedIn tr).length < S.archive.length ∧
      ThankYou.center sc =
        intToString (Quiz.solvedIn tr).length ++ '/' :: intToString S.archive.length := by
  obtain ⟨hlen, hentry⟩ := exists_entries h₀ ho hq hl hS hne
  have hn : 0 < names.length := by rwa [hlen, List.length_pos_iff]
  have hw : ∀ p ∈ names, WellFormed p := by
    intro p hp
    obtain ⟨k, hk⟩ := List.mem_iff_getElem?.1 hp
    obtain ⟨file, hfile, ⟨dir, rfl⟩, -⟩ := hentry k p hk
    exact (hlogo file (List.mem_of_getElem? hfile)).wellFormed dir
  have hstart : tr ≠ [] := by
    rcases Quiz.core_of_play hn h with ⟨-, rfl⟩ | ⟨hstart, -⟩
    · exact absurd hsc List.not_mem_nil
    · exact hstart
  obtain ⟨hle, rfl⟩ := Quiz.pushed_of_play hn hw h hsc
  obtain ⟨-, g, hg, -, hsolved, -⟩ := Quiz.game_of_play hn hw h hstart
  have hf := hg.fair hn
  rw [← hlen]
  refine ⟨hsolved ▸ hf.solved_nodup, ?_, by omega, rfl⟩
  intro k hk
  exact hf.lt k (hf.played_sublist.2.1 (List.mem_append_left _ (hsolved ▸ hk)))

end

/-- The first of the two logos is solved. -/
theorem scores_archive_twoLogos :
    ∃ tr s, Quiz.Play .ascii [logoPath, logoPath] tr s ∧ ∃ sc ∈ s.pushed,
      ThankYou.center sc = intToString (Quiz.solvedIn tr).length ++ '/' :: intToString 2 := by
  obtain ⟨tr₀, P, S, hrun₀, ho, hq, hl, hS, harchive⟩ := exists_run_twoLogos
  obtain ⟨tr, s, hrun, -, hpushed⟩ := Quiz.exists_play_solved
  have hlogo : ∀ file ∈ S.archive, file.Logo := by
    intro file hfile
    rw [harchive] at hfile
    obtain rfl : file = Setup.logoEntry := by simpa using hfile
    exact ⟨by decide, by decide, by decide⟩
  have hsc : (⟨['1'], ['2']⟩ : Score) ∈ s.pushed := by simp [hpushed]
  have hcenter :=
    (scores_archive hrun₀ ho hq hl hS (by simp [harchive]) hlogo hrun hsc).2.2.2
  rw [harchive] at hcenter
  exact ⟨tr, s, hrun, _, hsc, hcenter⟩

end Process

end LogoGuess
