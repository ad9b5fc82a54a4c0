/-
**The setup screen.**

This module transcribes the state class `_IDownloadState` of `lib/imagedownload.dart`.  A press on
Continue starts two asynchronous methods and waits for neither: `retrieveurl` asks the database for
the address of the archive, and `_downloadZip` fetches the archive, unpacks it and stores the list
of the unpacked paths under the key `names`.  Each of them goes on, from one `await` to the next,
whenever the outside world answers it, so they can be interleaved in any way.

Continue is pressed once here: the press takes it off the screen.  The handler itself would not mind
being called again before the screen is built; that is the subject of `LogoGuess.Presses`.

Main definitions:

* `LogoGuess.Dyn` — the values that a database snapshot consists of;
* `LogoGuess.Setup` — the fields of `_IDownloadState`, with the points at which the two methods are
  suspended;
* `LogoGuess.Setup.retrieveurl`, `LogoGuess.Setup.resume` — the two methods, from one `await` to the
  next;
* `LogoGuess.Setup.step` — what an event does to the screen and to the stored preferences;
* `LogoGuess.Setup.Delivered` — the address has been found and handed to the download.

Main results:

* `LogoGuess.Setup.Stale.step` — the address is never found, and the download has been started with
  the initial one;
* `LogoGuess.Setup.url_never_delivered` — **no order of the resumptions delivers the address**.
-/

import LogoGuess.DartJson
import LogoGuess.Launch

set_option relaxedAutoImplicit false
set_option autoImplicit false

namespace LogoGuess

open Dart EventLoop

/-! ### Snapshots of the database -/

/-- The keys of a map. -/
inductive Key where
  | int (i : ℤ)
  | str (s : Str)
  deriving DecidableEq

/-- The values that a snapshot consists of. -/
inductive Dyn where
  | null
  | bool (b : Bool)
  | int (i : ℤ)
  | double (x : ℚ)
  | str (s : Str)
  | list (l : List Dyn)
  | map (m : List (Key × Dyn))

/-- The exceptions that the methods of the setup screen can end with. -/
inductive Fault where
  /-- An index is out of range. -/
  | rangeError
  /-- The operator is not defined on the value. -/
  | noSuchMethod
  /-- A value has the wrong type. -/
  | typeError
  /-- The network, the file system, the preferences or the decoder have failed. -/
  | outside
  deriving DecidableEq

/-- The operator `[]` on a list. -/
def indexList {α : Type} (l : List α) (i : ℤ) : Except Fault α :=
  if 0 ≤ i then
    match l[i.toNat]? with
    | some a => .ok a
    | none => .error .rangeError
  else .error .rangeError

/-- The operator `[]` on a value whose type is not known. -/
def Dyn.index : Dyn → Key → Except Fault Dyn
  | .list l, .int i => indexList l i
  | .list _, .str _ => .error .typeError
  | .map m, k => .ok (((m.find? fun e => e.1 = k).map Prod.snd).getD .null)
  | .str s, .int i => (indexList s i).map fun c => .str [c]
  | .str _, .str _ => .error .typeError
  | _, _ => .error .noSuchMethod

/-- An entry of the decoded archive. -/
structure Entry where
  name : Str
  isFile : Bool
  deriving DecidableEq

/-! ### The state of the screen -/

/-- Where `retrieveurl` is. -/
inductive Retrieval where
  | idle
  /-- `await FirebaseDatabase.instance.reference().child("Data").once()`. -/
  | once
  | returned
  | threw (e : Fault)
  deriving DecidableEq

/-- Where `_downloadZip` is, with the local variables that are still needed. -/
inductive Download where
  | idle
  /-- `await http.Client().get(Uri.parse(url))` in `_downloadFile`. -/
  | get
  /-- `file.writeAsBytes(req.bodyBytes)` in `_downloadFile`. -/
  | writeZip (file : Str)
  /-- `await _downloadFile(_zipPath, _localZipFileName)`. -/
  | downloadFile (zippedFile : Str)
  /-- `await SharedPreferences.getInstance()` in `unarchiveAndSave`. -/
  | getInstance (s fileName : Str) (file : Entry) (archive : List Entry)
  /-- `await prefs.setString("names", s)`. -/
  | setString (s fileName : Str) (file : Entry) (archive : List Entry)
  /-- `await outFile.create(recursive: true)`. -/
  | create (fileName : Str) (file : Entry) (archive : List Entry)
  /-- `await outFile.writeAsBytes(file.content)`. -/
  | writeEntry (fileName : Str) (file : Entry) (archive : List Entry)
  /-- `await unarchiveAndSave(zippedFile)`. -/
  | unarchive
  | returned
  | threw (e : Fault)
  deriving DecidableEq

/-- **The state of the setup screen**: the fields of `_IDownloadState` with the values that they are
declared with or that `initState` gives them, and the progress of its methods.  The fields `_images`
and `images` of the source are `shown` and `images` here. -/
structure Setup where
  downloading : Bool := false
  dir : Option Str := none
  shown : List Str := []
  tempImages : List Str := []
  localZipFileName : Str := ['l', 'o', 'g', 'o', 'I', 'm', 'a', 'g', 'e', 's', '.', 'z', 'i', 'p']
  zipPath : Option Str := some []
  clicked : Bool := false
  data : List Dyn := []
  cVis : Bool := true
  images : List Str := []
  /-- Whether `_initDir` is still waiting for the documents directory. -/
  initDir : Bool := true
  retrieval : Retrieval := .idle
  download : Download := .idle
  /-- The local variable `archive` of `unarchiveAndSave`. -/
  archive : List Entry := []
  /-- The addresses that have been passed to `_downloadFile`. -/
  requested : List (Option Str) := []
  /-- The files of the archive that have been written. -/
  written : List Str := []

namespace Setup

/-! ### The methods -/

/-- The text `$_dir/name`; a field that is `null` is printed as such. -/
def path (S : Setup) (name : Str) : Str := S.dir.getD ['n', 'u', 'l', 'l'] ++ '/' :: name

/-- The key of the address. -/
def urlKey : Key := .str ['u', 'r', 'l']

/-- The expression `data[1][1]['url']`, assigned to a field of type `String`. -/
def zipPathOf (data : List Dyn) : Except Fault (Option Str) :=
  (indexList data 1).bind fun a => (a.index (.int 1)).bind fun b => (b.index urlKey).bind fun c =>
    match c with
    | .str s => .ok (some s)
    | .null => .ok none
    | _ => .error .typeError

/-- `retrieveurl`, from the answer of the database on. -/
def retrieveurl (S : Setup) (value : Dyn) : Setup :=
  match value with
  | .null => { S with retrieval := .returned }
  | value =>
      let S := { S with data := S.data ++ [value] }
      match zipPathOf S.data with
      | .ok zipPath => { S with zipPath := zipPath, retrieval := .returned }
      | .error e => { S with retrieval := .threw e }

/-- `_downloadZip`, up to its first `await`: the address is read here. -/
def downloadZip (S : Setup) : Setup :=
  { S with
    downloading := true
    shown := []
    tempImages := []
    requested := S.requested ++ [S.zipPath]
    download := .get }

/-- The handler of the Continue button. -/
def onPressed (S : Setup) : Setup :=
  let S := downloadZip { S with retrieval := .once }
  { S with clicked := !S.clicked, cVis := !S.cVis }

/-- The head of the loop of `unarchiveAndSave`. -/
def nextEntry (S : Setup) : List Entry → Setup
  | [] => { S with download := .unarchive }
  | file :: archive =>
      let fileName := S.path file.name
      let images := S.images ++ [fileName]
      { S with
        images := images
        download := .getInstance (Json.encode images) fileName file archive }

/-- What the outside world answers to a suspended `_downloadZip`. -/
inductive Reply where
  | done
  /-- The archive has been read and decoded. -/
  | decoded (archive : List Entry)
  | failed

/-- **`_downloadZip` goes on from one `await` to the next.** -/
def resume (p : Prefs) (S : Setup) : Reply → Option (Prefs × Setup)
  | .failed =>
      match S.download with
      | .idle | .returned | .threw _ => none
      | _ => some (p, { S with download := .threw .outside })
  | .decoded archive =>
      match S.download with
      | .downloadFile _ => some (p, nextEntry { S with archive := archive } archive)
      | _ => none
  | .done =>
      match S.download with
      | .get => some (p, { S with download := .writeZip (S.path S.localZipFileName) })
      | .writeZip file => some (p, { S with download := .downloadFile file })
      | .getInstance s fileName file archive =>
          some ({ p with names := some s },
            { S with download := .setString s fileName file archive })
      | .setString _ fileName file archive =>
          if file.isFile then
            some (p,
              { S with
                tempImages := S.tempImages ++ [fileName]
                download := .create fileName file archive })
          else some (p, S.nextEntry archive)
      | .create fileName file archive =>
          some (p, { S with download := .writeEntry fileName file archive })
      | .writeEntry fileName _ archive =>
          some (p, nextEntry { S with written := S.written ++ [fileName] } archive)
      | .unarchive =>
          some (p,
            { S with
              shown := S.shown ++ S.tempImages
              downloading := false
              download := .returned })
      | _ => none

/-- Whether the Continue button is on the screen. -/
def continueEnabled (S : Setup) : Bool := S.cVis

/-- Whether the Next button is on the screen. -/
def nextEnabled (S : Setup) : Bool := !S.downloading && !S.cVis

/-- What can happen to the setup screen. -/
inductive Event where
  /-- The documents directory is known. -/
  | directory (path : Str)
  /-- Continue is pressed. -/
  | press
  /-- The database answers with the snapshot of a value, or fails. -/
  | snapshot (value : Dyn)
  | noSnapshot
  /-- The outside world answers the download. -/
  | reply (r : Reply)

/-- **One event of the setup screen**, when Continue is pressed once. -/
def step (st : Prefs × Setup) : Event → Option (Prefs × Setup)
  | .directory path =>
      if st.2.initDir then some (st.1, { st.2 with dir := some path, initDir := false }) else none
  | .press => if st.2.continueEnabled then some (st.1, st.2.onPressed) else none
  | .snapshot value =>
      if st.2.retrieval = .once then some (st.1, st.2.retrieveurl value) else none
  | .noSnapshot =>
      if st.2.retrieval = .once then some (st.1, { st.2 with retrieval := .threw .outside })
      else none
  | .reply r => resume st.1 st.2 r

/-! ### What a resumption of the download can do -/

/-- **The results of a resumption of `_downloadZip`.** -/
inductive Resumes (p : Prefs) (S : Setup) : Prefs → Setup → Prop where
  /-- The outside world fails. -/
  | failed (hidle : S.download ≠ .idle) (hret : S.download ≠ .returned) :
      Resumes p S p { S with download := .threw .outside }
  /-- The archive is fetched and written. -/
  | fetched (h : S.download = .get) :
      Resumes p S p { S with download := .writeZip (S.path S.localZipFileName) }
  | saved {file : Str} (h : S.download = .writeZip file) :
      Resumes p S p { S with download := .downloadFile file }
  /-- The archive is decoded. -/
  | decoded {file : Str} {archive : List Entry} (h : S.download = .downloadFile file) :
      Resumes p S p (nextEntry { S with archive := archive } archive)
  /-- The paths so far are stored. -/
  | stored {s fileName : Str} {file : Entry} {archive : List Entry}
      (h : S.download = .getInstance s fileName file archive) :
      Resumes p S { p with names := some s }
        { S with download := .setString s fileName file archive }
  /-- The entry is a file, which is created and written. -/
  | file {s fileName : Str} {file : Entry} {archive : List Entry}
      (h : S.download = .setString s fileName file archive) (hf : file.isFile = true) :
      Resumes p S p
        { S with
          tempImages := S.tempImages ++ [fileName]
          download := .create fileName file archive }
  | created {fileName : Str} {file : Entry} {archive : List Entry}
      (h : S.download = .create fileName file archive) :
      Resumes p S p { S with download := .writeEntry fileName file archive }
  | written {fileName : Str} {file : Entry} {archive : List Entry}
      (h : S.download = .writeEntry fileName file archive) :
      Resumes p S p (nextEntry { S with written := S.written ++ [fileName] } archive)
  /-- The entry is a directory. -/
  | directory {s fileName : Str} {file : Entry} {archive : List Entry}
      (h : S.download = .setString s fileName file archive) (hf : file.isFile = false) :
      Resumes p S p (S.nextEntry archive)
  /-- The download is complete. -/
  | finished (h : S.download = .unarchive) :
      Resumes p S p
        { S with
          shown := S.shown ++ S.tempImages
          downloading := false
          download := .returned }

/-- **Every resumption has one of these results.** -/
theorem resumes_of_resume {p : Prefs} {S : Setup} {r : Reply} {st : Prefs × Setup}
    (h : resume p S r = some st) : Resumes p S st.1 st.2 := by
  cases r with
  | failed =>
      have hst : S.download ≠ .idle ∧ S.download ≠ .returned ∧
          st = (p, { S with download := .threw .outside }) := by
        rw [resume] at h
        split at h
        all_goals simp_all
      obtain ⟨hidle, hret, rfl⟩ := hst
      exact .failed hidle hret
  | decoded archive =>
      rw [resume] at h
      split at h
      · rename_i hd
        obtain rfl := Option.some_inj.1 h
        exact .decoded hd
      · exact absurd h (by simp)
  | done =>
      rw [resume] at h
      split at h
      · rename_i hd
        obtain rfl := Option.some_inj.1 h
        exact .fetched hd
      · rename_i hd
        obtain rfl := Option.some_inj.1 h
        exact .saved hd
      · rename_i hd
        obtain rfl := Option.some_inj.1 h
        exact .stored hd
      · rename_i hd
        split at h
        · rename_i hf
          obtain rfl := Option.some_inj.1 h
          exact .file hd hf
        · rename_i hf
          obtain rfl := Option.some_inj.1 h
          exact .directory hd (by simpa using hf)
      · rename_i hd
        obtain rfl := Option.some_inj.1 h
        exact .created hd
      · rename_i hd
        obtain rfl := Option.some_inj.1 h
        exact .written hd
      · rename_i hd
        obtain rfl := Option.some_inj.1 h
        exact .finished hd
      · exact absurd h (by simp)

/-- The fields that the download does not write. -/
structure Framed (S S' : Setup) : Prop where
  retrieval : S'.retrieval = S.retrieval
  requested : S'.requested = S.requested
  data : S'.data = S.data
  zipPath : S'.zipPath = S.zipPath
  cVis : S'.cVis = S.cVis

theorem framed_nextEntry (S : Setup) (archive : List Entry) : Framed S (S.nextEntry archive) := by
  cases archive <;> exact ⟨rfl, rfl, rfl, rfl, rfl⟩

/-- The download leaves alone what belongs to the address. -/
theorem Resumes.frame {p p' : Prefs} {S S' : Setup} (h : Resumes p S p' S') : Framed S S' := by
  cases h with
  | decoded _ => exact { framed_nextEntry _ _ with }
  | written _ => exact { framed_nextEntry _ _ with }
  | directory _ _ => exact framed_nextEntry S _
  | _ => exact ⟨rfl, rfl, rfl, rfl, rfl⟩

/-! ### What the download stores -/

/-- **The list of paths and the stored text**, as far as the download has come. -/
def Stored (p : Prefs) (S : Setup) : Prop :=
  match S.download with
  | .idle | .get | .writeZip _ | .downloadFile _ => S.images = []
  | .getInstance s _ _ archive =>
      s = Json.encode S.images ∧ S.images ≠ [] ∧
        S.archive.length = S.images.length + archive.length
  | .setString s _ _ archive =>
      s = Json.encode S.images ∧ p.names = some (Json.encode S.images) ∧
        S.archive.length = S.images.length + archive.length
  | .create _ _ archive | .writeEntry _ _ archive =>
      p.names = some (Json.encode S.images) ∧
        S.archive.length = S.images.length + archive.length
  | .unarchive =>
      (S.images ≠ [] → p.names = some (Json.encode S.images)) ∧
        S.archive.length = S.images.length
  | .returned => S.archive.length = S.images.length
  | .threw _ => True

/-- **The invariant of the setup screen**: Continue is there until it is pressed, and Next when the
download is complete. -/
structure Wf (p : Prefs) (S : Setup) : Prop where
  waiting : S.cVis = true ↔ S.download = .idle
  done : S.cVis = false → S.downloading = false → S.download = .returned
  stored : Stored p S

section

variable {p p' : Prefs} {S S' : Setup}

theorem wf_initial (p : Prefs) : Wf p {} := ⟨by simp, fun h => absurd h (by simp), rfl⟩

theorem Resumes.busy (h : Resumes p S p' S') :
    S.download ≠ .idle ∧ S.download ≠ .returned := by
  cases h with
  | failed hidle hret => exact ⟨hidle, hret⟩
  | _ => simp [*]

/-- The head of the loop, when the paths so far have been stored. -/
theorem stored_nextEntry {archive : List Entry}
    (hn : S.images ≠ [] → p.names = some (Json.encode S.images))
    (hl : S.archive.length = S.images.length + archive.length) :
    Stored p (S.nextEntry archive) := by
  cases archive with
  | nil => exact ⟨hn, hl⟩
  | cons file archive =>
      refine ⟨rfl, by simp [nextEntry], ?_⟩
      change S.archive.length = (S.images ++ [S.path file.name]).length + archive.length
      rw [hl]
      simp only [List.length_append, List.length_cons, List.length_nil]
      omega

/-- **A resumption of the download keeps the list of paths and the stored text in step.** -/
theorem Resumes.keeps_stored (h : Resumes p S p' S') (hs : Stored p S) : Stored p' S' := by
  rw [Stored] at hs
  cases h with
  | failed _ _ => exact trivial
  | fetched h =>
      rw [h] at hs
      exact hs
  | saved h =>
      rw [h] at hs
      exact hs
  | @decoded file archive h =>
      rw [h] at hs
      have hnil : S.images = [] := hs
      refine stored_nextEntry (fun hne => absurd hnil hne) ?_
      change archive.length = S.images.length + archive.length
      rw [hnil, List.length_nil, Nat.zero_add]
  | stored h =>
      rw [h] at hs
      exact ⟨hs.1, congrArg some hs.1, hs.2.2⟩
  | file h _ =>
      rw [h] at hs
      exact hs.2
  | created h =>
      rw [h] at hs
      exact hs
  | written h =>
      rw [h] at hs
      exact stored_nextEntry (fun _ => hs.1) hs.2
  | directory h _ =>
      rw [h] at hs
      exact stored_nextEntry (fun _ => hs.2.1) hs.2.2
  | finished h =>
      rw [h] at hs
      exact hs.2

theorem downloading_nextEntry (S : Setup) (archive : List Entry) :
    (S.nextEntry archive).downloading = S.downloading := by
  cases archive <;> rfl

/-- A download that has gone on is not waiting for a press. -/
theorem Resumes.ne_idle (h : Resumes p S p' S') : S'.download ≠ .idle := by
  have hentry : ∀ {T : Setup} {archive : List Entry}, (T.nextEntry archive).download ≠ .idle := by
    intro T archive
    cases archive <;> simp [nextEntry]
  cases h with
  | decoded _ => exact hentry
  | written _ => exact hentry
  | directory _ _ => exact hentry
  | _ => simp

theorem Wf.resume (h : Wf p S) (hr : Resumes p S p' S') : Wf p' S' := by
  obtain ⟨hidle, hret⟩ := hr.busy
  refine ⟨?_, ?_, hr.keeps_stored h.stored⟩
  · rw [hr.frame.cVis, h.waiting]
    exact iff_of_false hidle hr.ne_idle
  · intro hvis hdown
    rw [hr.frame.cVis] at hvis
    have hbusy : S.downloading = false → S'.download = .returned :=
      fun hd => absurd (h.done hvis hd) hret
    cases hr with
    | decoded _ =>
        rw [downloading_nextEntry] at hdown
        exact hbusy hdown
    | written _ =>
        rw [downloading_nextEntry] at hdown
        exact hbusy hdown
    | directory _ _ =>
        rw [downloading_nextEntry] at hdown
        exact hbusy hdown
    | finished _ => rfl
    | _ => exact hbusy hdown

/-- What an event of the setup screen means for the rest of the app: the keys `number` and `check`
are left alone; after the download is complete nothing is stored any more; and when it completes,
the list of paths has been stored unless it is empty. -/
structure Kept (st st' : Prefs × Setup) : Prop where
  wf : Wf st'.1 st'.2
  number : st'.1.number = st.1.number
  check : st'.1.check = st.1.check
  after : st.2.download = .returned → st'.2.download = .returned ∧ st'.1 = st.1
  completed : st.2.download ≠ .returned → st'.2.download = .returned →
    st'.2.archive.length = st'.2.images.length ∧
      (st'.2.images ≠ [] → st'.1.names = some (Json.encode st'.2.images))

theorem download_retrieveurl (S : Setup) (v : Dyn) :
    (S.retrieveurl v).download = S.download ∧ (S.retrieveurl v).images = S.images ∧
      (S.retrieveurl v).archive = S.archive ∧ (S.retrieveurl v).cVis = S.cVis ∧
      (S.retrieveurl v).downloading = S.downloading := by
  cases v with
  | null => exact ⟨rfl, rfl, rfl, rfl, rfl⟩
  | _ =>
      rw [retrieveurl]
      · simp only
        split <;> exact ⟨rfl, rfl, rfl, rfl, rfl⟩
      · simp

theorem Resumes.kept (hw : Wf p S) (h : Resumes p S p' S') : Kept (p, S) (p', S') where
  wf := hw.resume h
  number := by cases h <;> rfl
  check := by cases h <;> rfl
  after hret := absurd hret h.busy.2
  completed _ hret := by
    have hs := hw.stored
    rw [Stored] at hs
    have hentry : ∀ {T : Setup} {archive : List Entry},
        (T.nextEntry archive).download ≠ .returned := by
      intro T archive
      cases archive <;> simp [nextEntry]
    cases h with
    | decoded _ => exact absurd hret hentry
    | written _ => exact absurd hret hentry
    | directory _ _ => exact absurd hret hentry
    | finished h =>
        rw [h] at hs
        exact ⟨hs.2, hs.1⟩
    | _ => exact absurd hret (by simp)

/-- **Every event of the setup screen.** -/
theorem kept_of_step {st st' : Prefs × Setup} {e : Event} (hw : Wf st.1 st.2)
    (hs : step st e = some st') : Kept st st' := by
  -- the events that do not belong to the download
  have hsame : ∀ {S' : Setup}, S'.download = st.2.download → S'.images = st.2.images →
      S'.archive = st.2.archive → S'.cVis = st.2.cVis → S'.downloading = st.2.downloading →
      Kept st (st.1, S') := by
    intro S' hd hi ha hc hl
    refine ⟨⟨?_, ?_, ?_⟩, rfl, rfl, fun hret => ⟨hd.trans hret, rfl⟩, ?_⟩
    · rw [hc, hd]
      exact hw.waiting
    · rw [hc, hl, hd]
      exact hw.done
    · rw [Stored, hd, hi, ha]
      exact hw.stored
    · intro hne hret
      exact absurd (hd.symm.trans hret) hne
  cases e with
  | directory path =>
      obtain ⟨-, rfl⟩ := of_guard hs
      exact hsame rfl rfl rfl rfl rfl
  | press =>
      obtain ⟨hvis, rfl⟩ := of_guard hs
      have hidle : st.2.download = .idle := hw.waiting.1 hvis
      have himages : st.2.images = [] := by
        have hs := hw.stored
        rwa [Stored, hidle] at hs
      refine ⟨⟨?_, ?_, himages⟩, rfl, rfl, ?_, ?_⟩
      · have hcv : st.2.onPressed.cVis = false := by
          change (!st.2.cVis) = false
          rw [show st.2.cVis = true from hvis]
          rfl
        exact iff_of_false (by simp [hcv]) (by simp [onPressed, downloadZip])
      · intro _ hd
        exact absurd hd (by simp [onPressed, downloadZip])
      · intro hret
        exact absurd (hidle.symm.trans hret) (by simp)
      · intro _ hret
        exact absurd hret (by simp [onPressed, downloadZip])
  | snapshot v =>
      obtain ⟨-, rfl⟩ := of_guard hs
      obtain ⟨hd, hi, ha, hc, hl⟩ := download_retrieveurl st.2 v
      exact hsame hd hi ha hc hl
  | noSnapshot =>
      obtain ⟨-, rfl⟩ := of_guard hs
      exact hsame rfl rfl rfl rfl rfl
  | reply r => exact (resumes_of_resume hs).kept hw

end

/-! ### The address of the archive -/

/-- The address `u` has been found and handed to the download. -/
def Delivered (u : Str) (S : Setup) : Prop :=
  S.retrieval = .returned ∧ S.requested = [some u]

/-- The value has the address `u` where `retrieveurl` means to look for it. -/
def HasUrl (v : Dyn) (u : Str) : Prop :=
  ((v.index (.int 1)).bind fun a => a.index urlKey) = .ok (.str u)

/-- **What becomes of the address**: before the press nothing has been requested, and after it the
initial address has been, while the snapshot has not come or has made `retrieveurl` throw. -/
def Stale (S : Setup) : Prop :=
  (S.retrieval = .idle ∧ S.requested = [] ∧ S.data = [] ∧ S.zipPath = some [] ∧ S.cVis = true) ∨
    (S.requested = [some []] ∧ S.cVis = false ∧
      ((S.retrieval = .once ∧ S.data = []) ∨ ∃ e, S.retrieval = .threw e))

/-- A single snapshot has no second element. -/
theorem zipPathOf_singleton (v : Dyn) : zipPathOf [v] = .error .rangeError := rfl

theorem HasUrl.retrieveurl {v : Dyn} {u : Str} (hv : HasUrl v u) {S : Setup} (hd : S.data = []) :
    S.retrieveurl v = { S with data := [v], retrieval := .threw .rangeError } := by
  have hdata : S.data ++ [v] = [v] := by rw [hd, List.nil_append]
  cases v with
  | null => exact absurd hv (by simp [HasUrl, Dyn.index, Except.bind])
  | _ =>
      rw [Setup.retrieveurl]
      · simp only [hdata, zipPathOf_singleton]
      · simp

/-- **No event finds the address or asks for another one.** -/
theorem Stale.step {v : Dyn} {u : Str} (hv : HasUrl v u) {st st' : Prefs × Setup} {e : Event}
    (h : Stale st.2) (he : ∀ w, e = .snapshot w → w = v) (hs : step st e = some st') :
    Stale st'.2 := by
  cases e with
  | directory path =>
      obtain ⟨-, rfl⟩ := of_guard hs
      exact h
  | press =>
      obtain ⟨hvis, rfl⟩ := of_guard hs
      rcases h with ⟨-, hreq, hdata, hzip, hcv⟩ | ⟨-, hcv, -⟩
      · refine Or.inr ⟨?_, ?_, Or.inl ⟨rfl, hdata⟩⟩
        · change st.2.requested ++ [st.2.zipPath] = [some []]
          rw [hreq, hzip, List.nil_append]
        · change (!st.2.cVis) = false
          rw [hcv]
          rfl
      · exact absurd (hvis.symm.trans hcv) (by simp)
  | snapshot w =>
      obtain ⟨honce, rfl⟩ := of_guard hs
      obtain rfl := he w rfl
      rcases h with ⟨hidle, -⟩ | ⟨hreq, hcv, ⟨-, hdata⟩ | ⟨e, hthrew⟩⟩
      · exact absurd (honce.symm.trans hidle) (by simp)
      · -- the snapshot becomes the only element of the list
        rw [hv.retrieveurl hdata]
        exact Or.inr ⟨hreq, hcv, Or.inr ⟨.rangeError, rfl⟩⟩
      · exact absurd (honce.symm.trans hthrew) (by simp)
  | noSnapshot =>
      obtain ⟨honce, rfl⟩ := of_guard hs
      rcases h with ⟨hidle, -⟩ | ⟨hreq, hcv, -⟩
      · exact absurd (honce.symm.trans hidle) (by simp)
      · exact Or.inr ⟨hreq, hcv, Or.inr ⟨.outside, rfl⟩⟩
  | reply r =>
      obtain ⟨hret, hreq, hdata, hzip, hcv⟩ := (resumes_of_resume hs).frame
      rwa [Stale, hret, hreq, hdata, hzip, hcv]

/-- **No order of the resumptions delivers the address.**  On a fresh setup screen, whatever value
with the address `u` the database answers with and in whatever order the two methods go on:
`retrieveurl` does not return, since the answer makes it throw, and the download asks for the empty
address. -/
theorem url_never_delivered {v : Dyn} {u : Str} (hv : HasUrl v u) {p : Prefs}
    {tr : List (Move (Prefs × Setup) Event)} {st : Prefs × Setup} (h : Run step (p, {}) tr st)
    (hsnap : ∀ m ∈ tr, ∀ w, m.event = .snapshot w → w = v) :
    ¬ Delivered u st.2 ∧ st.2.retrieval ≠ .returned ∧ ∀ z ∈ st.2.requested, z = some [] := by
  have hstale : Stale st.2 := by
    refine Run.invariant (I := fun tr st => (∀ m ∈ tr, ∀ w, m.event = .snapshot w → w = v) →
      Stale st.2) ?_ ?_ h hsnap
    · exact fun _ => Or.inl ⟨rfl, rfl, rfl, rfl, rfl⟩
    · intro tr st e st' _ ih hs hsnap
      exact (ih fun m hm => hsnap m (List.mem_append_left _ hm)).step hv
        (hsnap ⟨st, e, st'⟩ (by simp)) hs
  have hret : st.2.retrieval ≠ .returned := by
    rcases hstale with ⟨hidle, -⟩ | ⟨-, -, ⟨honce, -⟩ | ⟨e, hthrew⟩⟩
    · simp [hidle]
    · simp [honce]
    · simp [hthrew]
  refine ⟨fun hd => hret hd.1, hret, ?_⟩
  intro z hz
  rcases hstale with ⟨-, hreq, -⟩ | ⟨hreq, -⟩
  · rw [hreq] at hz
    exact absurd hz List.not_mem_nil
  · rw [hreq] at hz
    exact List.mem_singleton.1 hz

/-- A snapshot with an address at the place where `retrieveurl` means to look. -/
def snapshotWithUrl : Dyn := .list [.null, .map [(urlKey, .str ['u'])]]

theorem hasUrl_snapshotWithUrl : HasUrl snapshotWithUrl ['u'] := rfl

/-- Continue is pressed and the database answers. -/
theorem exists_run_snapshotWithUrl :
    ∃ tr st, Run step ({}, {}) tr st ∧
      (∀ m ∈ tr, ∀ w, m.event = .snapshot w → w = snapshotWithUrl) ∧
      st.2.retrieval = .threw .rangeError ∧ st.2.requested = [some []] := by
  have hexec : (exec step ({}, {}) [.press, .snapshot snapshotWithUrl]).map
      (fun st => (st.2.retrieval, st.2.requested)) = some (.threw .rangeError, [some []]) := rfl
  obtain ⟨tr, st, hrun, hfields, hev⟩ := exists_run_of_exec hexec
  obtain ⟨hret, hreq⟩ := Prod.mk.inj hfields
  have hsnap : ∀ m ∈ tr, ∀ w, m.event = .snapshot w → w = snapshotWithUrl :=
    forall_event (P := fun e => ∀ w, e = .snapshot w → w = snapshotWithUrl) hev
      (by simp [eq_comm])
  exact ⟨tr, st, hrun, hsnap, hret, hreq⟩

theorem url_never_delivered_snapshotWithUrl :
    ∃ tr st, Run step ({}, {}) tr st ∧ st.2.retrieval = .threw .rangeError ∧
      ¬ Delivered ['u'] st.2 := by
  obtain ⟨tr, st, hrun, hsnap, hret, -⟩ := exists_run_snapshotWithUrl
  exact ⟨tr, st, hrun, hret, (url_never_delivered hasUrl_snapshotWithUrl hrun hsnap).1⟩

/-- The snapshot has the address `u`, but `retrieveurl` throws and the empty address is asked
for. -/
theorem not_delivered_snapshotWithUrl :
    HasUrl snapshotWithUrl ['u'] ∧
      ¬ ∀ tr st, Run step ({}, {}) tr st →
        (∀ m ∈ tr, ∀ w, m.event = .snapshot w → w = snapshotWithUrl) →
        st.2.retrieval ≠ .idle → st.2.retrieval ≠ .once → Delivered ['u'] st.2 := by
  refine ⟨hasUrl_snapshotWithUrl, ?_⟩
  intro hall
  obtain ⟨tr, st, hrun, hsnap, hret, -⟩ := exists_run_snapshotWithUrl
  have hd := hall tr st hrun hsnap (by simp [hret]) (by simp [hret])
  exact absurd (hret.symm.trans hd.1) (by simp)

end Setup

end LogoGuess
