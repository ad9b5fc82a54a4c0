/-
**The files of the archive and the stored list of paths.**

The loop of `unarchiveAndSave` fills two lists.  Every entry of the archive is appended to `images`,
whose text is stored under `names` for the quiz to read; but only the entries that are files are
appended to `_tempImages` and written.  This module follows the loop from entry to entry and
compares the two lists when it has come to its end.  A download that is answered comes there.

Main definitions:

* `LogoGuess.Setup.filesOf` — the paths of the files among the entries that have been processed;
* `LogoGuess.Setup.Filed` — what the two lists hold, as far as the loop has come;
* `LogoGuess.Setup.Recorded` — the stored list is the list of the files that were written;
* `LogoGuess.Setup.answered` — the answers of the outside world to a whole download.

Main results:

* `LogoGuess.Setup.filesOf_eq_iff` — all paths are kept exactly when all entries are files;
* `LogoGuess.Setup.filed_of_run` — the loop invariant holds in every run of the setup screen;
* `LogoGuess.Setup.recorded_iff` — **the stored list is that of the written files exactly when the
  archive has no entry for a directory**;
* `LogoGuess.Setup.exists_download` — a download that is answered records a path for each entry.
-/

import LogoGuess.Setup

set_option relaxedAutoImplicit false
set_option autoImplicit false

namespace LogoGuess

namespace Setup

open Dart EventLoop

/-! ### The two lists -/

/-- The paths of the files among the processed entries. -/
def filesOf (log : List (Str × Entry)) : List Str :=
  (log.filter fun e => e.2.isFile).map Prod.fst

/-- The entries of `log` have been appended to `images`, each under its path, and those of `rest`
are still ahead. -/
def Processed (log : List (Str × Entry)) (rest archive : List Entry) (images : List Str) : Prop :=
  archive = log.map Prod.snd ++ rest ∧ images = log.map Prod.fst

/-- **What the two lists hold**, as far as the download has come. -/
def Filed (p : Prefs) (S : Setup) : Prop :=
  match S.download with
  | .idle | .get | .writeZip _ | .downloadFile _ =>
      S.images = [] ∧ S.tempImages = [] ∧ S.written = []
  | .getInstance _ fileName file archive | .setString _ fileName file archive =>
      ∃ log, Processed (log ++ [(fileName, file)]) archive S.archive S.images ∧
        S.tempImages = filesOf log ∧ S.written = filesOf log
  | .create fileName file archive | .writeEntry fileName file archive =>
      ∃ log, Processed (log ++ [(fileName, file)]) archive S.archive S.images ∧
        S.tempImages = filesOf (log ++ [(fileName, file)]) ∧ file.isFile = true ∧
        S.written = filesOf log
  | .unarchive =>
      ∃ log, Processed log [] S.archive S.images ∧ S.tempImages = filesOf log ∧
        S.written = filesOf log
  | .returned =>
      ∃ log, Processed log [] S.archive S.images ∧ S.tempImages = filesOf log ∧
        S.written = filesOf log ∧ (S.images ≠ [] → p.names = some (Json.encode S.images))
  | .threw _ => True

/-- **The stored list is the list of the written files**, and so is `_tempImages`. -/
def Recorded (p : Prefs) (S : Setup) : Prop :=
  p.names.bind Json.decode = some S.tempImages ∧ S.tempImages = S.written

theorem filesOf_concat (log : List (Str × Entry)) (fileName : Str) (file : Entry) :
    filesOf (log ++ [(fileName, file)]) =
      filesOf log ++ if file.isFile = true then [fileName] else [] := by
  rw [filesOf, List.filter_append, List.map_append]
  by_cases hf : file.isFile = true
  · simp [filesOf, hf]
  · simp [filesOf, hf]

/-- **All paths are kept exactly when all entries are files.** -/
theorem filesOf_eq_iff (log : List (Str × Entry)) :
    filesOf log = log.map Prod.fst ↔ ∀ file ∈ log.map Prod.snd, file.isFile = true := by
  constructor
  · intro h file hfile
    obtain ⟨e, he, rfl⟩ := List.mem_map.1 hfile
    have hlen : (log.filter fun e => e.2.isFile).length = log.length := by
      simpa [filesOf] using congrArg List.length h
    exact List.length_filter_eq_length_iff.1 hlen e he
  · intro h
    have hall : (log.filter fun e => e.2.isFile) = log :=
      List.filter_eq_self.2 fun e he => h e.2 (List.mem_map_of_mem he)
    rw [filesOf, hall]

/-! ### The loop -/

section

variable {p p' : Prefs} {S S' : Setup}

/-- The head of the loop. -/
theorem filed_nextEntry (log : List (Str × Entry)) {archive : List Entry}
    (h : Processed log archive S.archive S.images) (ht : S.tempImages = filesOf log)
    (hw : S.written = filesOf log) : Filed p (S.nextEntry archive) := by
  cases archive with
  | nil => exact ⟨log, h, ht, hw⟩
  | cons file archive =>
      refine ⟨log, ⟨?_, ?_⟩, ht, hw⟩
      · change S.archive = _
        rw [h.1]
        simp
      · change S.images ++ [S.path file.name] = _
        rw [h.2]
        simp

/-- **A resumption of the download keeps the loop invariant.** -/
theorem Resumes.filed (hw : Wf p S) (h : Filed p S) (hr : Resumes p S p' S') : Filed p' S' := by
  have hs := hw.stored
  rw [Stored] at hs
  rw [Filed] at h
  cases hr with
  | failed _ _ => exact trivial
  | fetched hd =>
      rw [hd] at h
      exact h
  | saved hd =>
      rw [hd] at h
      exact h
  | @decoded file archive hd =>
      rw [hd] at h
      obtain ⟨himages, htemp, hwritten⟩ := h
      exact filed_nextEntry [] ⟨rfl, himages⟩ htemp hwritten
  | stored hd =>
      rw [hd] at h
      exact h
  | @file _ fileName file archive hd hf =>
      rw [hd] at h
      obtain ⟨log, hproc, htemp, hwritten⟩ := h
      refine ⟨log, hproc, ?_, hf, hwritten⟩
      change S.tempImages ++ [fileName] = _
      rw [htemp, filesOf_concat, if_pos hf]
  | created hd =>
      rw [hd] at h
      exact h
  | @written fileName file archive hd =>
      rw [hd] at h
      obtain ⟨log, hproc, htemp, hf, hwritten⟩ := h
      refine filed_nextEntry (log ++ [(fileName, file)]) hproc htemp ?_
      change S.written ++ [fileName] = _
      rw [hwritten, filesOf_concat, if_pos hf]
  | @directory _ fileName file archive hd hf =>
      rw [hd] at h
      obtain ⟨log, hproc, htemp, hwritten⟩ := h
      have hsame : filesOf (log ++ [(fileName, file)]) = filesOf log := by
        rw [filesOf_concat, if_neg (by simp [hf]), List.append_nil]
      exact filed_nextEntry _ hproc (by rw [htemp, hsame]) (by rw [hwritten, hsame])
  | finished hd =>
      rw [hd] at h hs
      obtain ⟨log, hproc, htemp, hwritten⟩ := h
      exact ⟨log, hproc, htemp, hwritten, hs.1⟩

/-- `retrieveurl` leaves the lists of the files alone. -/
theorem files_retrieveurl (S : Setup) (v : Dyn) :
    (S.retrieveurl v).tempImages = S.tempImages ∧ (S.retrieveurl v).written = S.written := by
  cases v with
  | null => exact ⟨rfl, rfl⟩
  | _ =>
      rw [retrieveurl]
      · simp only
        split <;> exact ⟨rfl, rfl⟩
      · simp

/-- **Every event of the setup screen keeps the loop invariant.** -/
theorem Filed.step {st st' : Prefs × Setup} {e : Event} (hw : Wf st.1 st.2)
    (h : Filed st.1 st.2) (hs : step st e = some st') : Filed st'.1 st'.2 := by
  cases e with
  | directory path =>
      obtain ⟨-, rfl⟩ := of_guard hs
      exact h
  | press =>
      obtain ⟨hvis, rfl⟩ := of_guard hs
      have hidle : st.2.download = .idle := hw.waiting.1 hvis
      rw [Filed, hidle] at h
      exact ⟨h.1, rfl, h.2.2⟩
  | snapshot v =>
      obtain ⟨-, rfl⟩ := of_guard hs
      obtain ⟨hd, himages, harchive, -⟩ := download_retrieveurl st.2 v
      obtain ⟨htemp, hwritten⟩ := files_retrieveurl st.2 v
      change Filed st.1 (st.2.retrieveurl v)
      rw [Filed, hd, himages, harchive, htemp, hwritten]
      exact h
  | noSnapshot =>
      obtain ⟨-, rfl⟩ := of_guard hs
      exact h
  | reply r => exact (resumes_of_resume hs).filed hw h

/-- **The loop invariant holds in every run of the setup screen.** -/
theorem filed_of_run {tr : List (Move (Prefs × Setup) Event)} {st : Prefs × Setup}
    (h : Run step (p, {}) tr st) : Wf st.1 st.2 ∧ Filed st.1 st.2 := by
  refine Run.invariant (I := fun _ st => Wf st.1 st.2 ∧ Filed st.1 st.2) ?_ ?_ h
  · exact ⟨wf_initial p, rfl, rfl, rfl⟩
  · intro tr st e st' _ ih hs
    exact ⟨(kept_of_step ih.1 hs).wf, ih.2.step ih.1 hs⟩

/-! ### The stored list -/

/-- **The stored list is that of the written files exactly when the archive has no entry for a
directory.**  On a fresh setup screen, whatever happens and in whatever order, once
`unarchiveAndSave` has come to its end over an archive that is not empty. -/
theorem recorded_iff {tr : List (Move (Prefs × Setup) Event)} {st : Prefs × Setup}
    (h : Run step (p, {}) tr st)
    (hd : st.2.download = .unarchive ∨ st.2.download = .returned) (hne : st.2.archive ≠ []) :
    Recorded st.1 st.2 ↔ ∀ file ∈ st.2.archive, file.isFile = true := by
  obtain ⟨hw, hfiled⟩ := filed_of_run h
  have hend : ∃ log, Processed log [] st.2.archive st.2.images ∧
      st.2.tempImages = filesOf log ∧ st.2.written = filesOf log ∧
      (st.2.images ≠ [] → st.1.names = some (Json.encode st.2.images)) := by
    rw [Filed] at hfiled
    rcases hd with hd | hd
    · have hs := hw.stored
      rw [Stored, hd] at hs
      rw [hd] at hfiled
      obtain ⟨log, hproc, htemp, hwritten⟩ := hfiled
      exact ⟨log, hproc, htemp, hwritten, hs.1⟩
    · rw [hd] at hfiled
      exact hfiled
  obtain ⟨log, ⟨harchive, himages⟩, htemp, hwritten, hnames⟩ := hend
  rw [List.append_nil] at harchive
  have hlog : log ≠ [] := by
    rintro rfl
    exact hne harchive
  have hdecode : st.1.names.bind Json.decode = some (log.map Prod.fst) := by
    rw [hnames (by simpa [himages] using hlog), Option.bind_some, Json.decode_encode, himages]
  rw [Recorded, hdecode, htemp, hwritten, harchive, ← filesOf_eq_iff, Option.some_inj]
  simp [eq_comm]

end

/-- An entry for a logo, and one for a directory. -/
def logoEntry : Entry := ⟨['A', '.', 'p', 'n', 'g'], true⟩

def folderEntry : Entry := ⟨['d', '/'], false⟩

/-- An archive with two logos. -/
theorem recorded_iff_logoEntry :
    ∃ tr st, Run step ({}, {}) tr st ∧ st.2.download = .returned ∧
      st.2.archive = [logoEntry, ⟨['B', '.', 'p', 'n', 'g'], true⟩] ∧ Recorded st.1 st.2 := by
  have hexec : (exec step ({}, {}) ([.directory ['f'], .press, .reply .done, .reply .done,
      .reply (.decoded [logoEntry, ⟨['B', '.', 'p', 'n', 'g'], true⟩])] ++
        List.replicate 9 (.reply .done))).map (fun st => (st.2.download, st.2.archive)) =
      some (.returned, [logoEntry, ⟨['B', '.', 'p', 'n', 'g'], true⟩]) := by
    decide
  obtain ⟨tr, st, hrun, hfields, -⟩ := exists_run_of_exec hexec
  obtain ⟨hd, harchive⟩ := Prod.mk.inj hfields
  refine ⟨tr, st, hrun, hd, harchive,
    (recorded_iff hrun (Or.inr hd) (by simp [harchive])).2 ?_⟩
  simp [harchive, logoEntry]

/-- An archive with an entry for a directory: its path is stored for the quiz, but it is not among
the files. -/
theorem not_recorded_folderEntry :
    ¬ ∀ tr st, Run step ({}, {}) tr st → st.2.download = .returned → st.2.archive ≠ [] →
      Recorded st.1 st.2 := by
  intro hall
  have hexec : (exec step ({}, {}) ([.directory ['f'], .press, .reply .done, .reply .done,
      .reply (.decoded [folderEntry, logoEntry])] ++ List.replicate 7 (.reply .done))).map
        (fun st => (st.2.download, st.2.archive, st.2.tempImages.length, st.1.names)) =
      some (.returned, [folderEntry, logoEntry], 1,
        some (Json.encode [['f', '/', 'd', '/'], ['f', '/', 'A', '.', 'p', 'n', 'g']])) := by
    decide
  obtain ⟨tr, st, hrun, hfields, -⟩ := exists_run_of_exec hexec
  obtain ⟨hd, hrest⟩ := Prod.mk.inj hfields
  obtain ⟨harchive, hrest⟩ := Prod.mk.inj hrest
  obtain ⟨hlen, hnames⟩ := Prod.mk.inj hrest
  have hrec := (hall tr st hrun hd (by simp [harchive])).1
  rw [hnames, Option.bind_some, Json.decode_encode] at hrec
  rw [← Option.some_inj.1 hrec] at hlen
  exact absurd hlen (by decide)

/-! ### A download that is answered -/

/-- The answers of the outside world to the download of an entry: the preferences, the write of the
list, and for a file its creation and the write of its content. -/
def answers (file : Entry) : List Event :=
  List.replicate (if file.isFile = true then 4 else 2) (.reply .done)

/-- **The loop over the archive**, when everything is answered. -/
theorem exec_answers (archive : List Entry) (p : Prefs) (S : Setup)
    (hn : S.images ≠ [] → p.names = some (Json.encode S.images)) :
    ∃ p' S', exec step (p, S.nextEntry archive) (archive.flatMap answers) = some (p', S') ∧
      S'.download = .unarchive ∧
      S'.images = S.images ++ archive.map (fun file => S.path file.name) ∧
      (S'.images ≠ [] → p'.names = some (Json.encode S'.images)) ∧ S'.cVis = S.cVis := by
  induction archive generalizing p S with
  | nil => exact ⟨p, _, rfl, rfl, by simp [nextEntry], hn, rfl⟩
  | cons file archive ih =>
      -- the state in which the loop comes to its head again
      have hround : ∃ S₁ : Setup, exec step (p, S.nextEntry (file :: archive)) (answers file) =
          some ({ p with names := some (Json.encode (S.images ++ [S.path file.name])) },
            S₁.nextEntry archive) ∧
          S₁.images = S.images ++ [S.path file.name] ∧ S₁.dir = S.dir ∧ S₁.cVis = S.cVis := by
        by_cases hf : file.isFile = true
        · rw [answers, if_pos hf]
          refine ⟨{ S with
            images := S.images ++ [S.path file.name]
            tempImages := S.tempImages ++ [S.path file.name]
            written := S.written ++ [S.path file.name]
            download := .writeEntry (S.path file.name) file archive }, ?_, rfl, rfl, rfl⟩
          simp [exec, step, resume, nextEntry, hf, List.replicate]
        · rw [answers, if_neg hf]
          refine ⟨{ S with
            images := S.images ++ [S.path file.name]
            download := .setString (Json.encode (S.images ++ [S.path file.name]))
              (S.path file.name) file archive }, ?_, rfl, rfl, rfl⟩
          simp [exec, step, resume, nextEntry, hf, List.replicate]
      obtain ⟨S₁, hexec, himages, hdir, hvis⟩ := hround
      obtain ⟨p', S', hexec', hdown, himages', hnames, hvis'⟩ :=
        ih { p with names := some (Json.encode (S.images ++ [S.path file.name])) } S₁
          fun _ => by rw [himages]
      have hpath : ∀ name, S₁.path name = S.path name := by
        intro name
        rw [path, path, hdir]
      refine ⟨p', S', ?_, hdown, ?_, hnames, hvis'.trans hvis⟩
      · rw [List.flatMap_cons, exec_append, hexec, Option.bind_some, hexec']
      · rw [himages', himages]
        simp [hpath]

/-- The answers to a whole download: the directory, Continue, the archive and its entries. -/
def answered (dir : Str) (archive : List Entry) : List Event :=
  [.directory dir, .press, .reply .done, .reply .done, .reply (.decoded archive)] ++
    archive.flatMap answers ++ [.reply .done]

/-- The setup screen when the archive has been decoded. -/
def unpacking (dir : Str) (archive : List Entry) : Setup :=
  { ({ dir := some dir, initDir := false } : Setup).onPressed with
    download := .downloadFile (dir ++ '/' :: ({} : Setup).localZipFileName)
    archive := archive }

/-- **A download that is answered** records a path for each entry of the archive, in its order, and
enables Next. -/
theorem exists_download (p : Prefs) (dir : Str) {archive : List Entry} (hne : archive ≠ []) :
    ∃ p' S', exec step (p, {}) (answered dir archive) = some (p', S') ∧ S'.nextEnabled = true ∧
      p'.names = some (Json.encode (archive.map fun file => dir ++ '/' :: file.name)) := by
  have hbegin : exec step (p, {})
      [.directory dir, .press, .reply .done, .reply .done, .reply (.decoded archive)] =
      some (p, (unpacking dir archive).nextEntry archive) := rfl
  obtain ⟨p', S', hexec, hdown, himages, hnames, hvis⟩ :=
    exec_answers archive p (unpacking dir archive) fun hn => absurd rfl hn
  obtain ⟨S'', hend, hnext⟩ : ∃ S'', exec step (p', S') [.reply .done] = some (p', S'') ∧
      S''.nextEnabled = true := by
    refine ⟨{ S' with
      shown := S'.shown ++ S'.tempImages
      downloading := false
      download := .returned }, by simp [exec, step, resume, hdown], ?_⟩
    rw [nextEnabled]
    simp only [hvis]
    rfl
  have hlist : S'.images = archive.map fun file => dir ++ '/' :: file.name := himages
  refine ⟨p', S'', ?_, hnext, ?_⟩
  · rw [answered, exec_append, exec_append, hbegin, Option.bind_some, hexec, Option.bind_some, hend]
  · rw [← hlist]
    refine hnames ?_
    rw [hlist]
    simpa using hne

end Setup

end LogoGuess
