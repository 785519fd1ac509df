import Etymon.Proofs.DatedSessions
import Etymon.Proofs.Fragments

/-!
# Fragments are independent of one another

The fragments of a book are evolved one after the other in one session, whose caches each of them fills
a bit further, also where it fails. What stands for a fragment does not depend on that: it is what a
session would give that was opened for this fragment alone, without any caches. All other characters of
the book stay as they are.

## Main definitions

* `Session.Uncached`: files with the same rule file and lexicon, and without a file of evolved forms.
* `Session.afresh`: what a newly opened session makes of a sentence.

## Main results

* `Book.expandSpans_eq`: what stands for a fragment is what stands for it if there is no other.
* `Book.expand_independently`: a book is expanded fragment by fragment.
-/

namespace Etymon

variable {σ : Type} {engine : Engine σ} {laws : String → Law} {running : σ → Option String}
  {texts : Set String} {project : Project}

/-! ## Sessions that are opened anew -/

namespace Session

variable {files files' bare : FileStore} {s s' : Session σ} {state : σ}

/-- Files of the same project before a session has saved its caches: the rule file is read the same, the
same lexicon is loaded from them, if any, and there is no file of evolved forms. -/
structure Uncached (texts : Set String) (project : Project) (files bare : FileStore) : Prop where
  holds : bare.Holds texts
  rules : bare.read project.changesPath = files.read project.changesPath
  lexicon : (loadLexicon bare project).toOption = (loadLexicon files project).toOption
  evolved : ∀ f, bare.node? (bare.target (Evolver.evolvedFile project.cacheDir)) ≠ some (.file f)

/-- What a sentence comes to in a session that is opened for it. -/
def afresh (engine : Engine σ) (bare : FileStore) (project : Project) (metadata : Metadata) (state : σ)
    (text : String) : Except Error (List Evolved) :=
  ((evolve engine bare text).result (.opened bare project metadata state)).1

theorem Uncached.onTime_opened (h : Uncached texts project files bare) (laws : String → Law)
    (metadata : Metadata) (hidle : running state = none) :
    (opened bare project metadata state).OnTime laws running texts bare project := by
  refine ⟨dated_opened h.holds (fun f hf => absurd hf (h.evolved f)) metadata hidle,
    Evolver.timely_opened (fun text hread => ?_) _ _ _⟩
  obtain ⟨f, hfind, -⟩ := FileStore.exists_find_of_read hread
  exact h.evolved f (FileStore.find_eq_ok_iff.1 hfind).2

section

variable (hengine : engine.WordWise laws project.changesPath running)
  (hdigest : Set.InjOn textDigest texts) (hholds : files.Holds texts)
  (hs : s.OnTime laws running texts files project)
include hengine hdigest hholds hs

/-- Sessions with the same rule file, lexicon and metadata come to the same, whatever their caches
hold. -/
theorem OnTime.toOption_evolve_eq (hholds' : files'.Holds texts)
    (hs' : s'.OnTime laws running texts files' project)
    (hrules : files'.read project.changesPath = files.read project.changesPath)
    (hlexicon : (loadLexicon files' project).toOption = (loadLexicon files project).toOption)
    (hmetadata : s'.metadata = s.metadata) (text : String) :
    ((Session.evolve engine files' text).result s').1.toOption =
      ((Session.evolve engine files text).result s).1.toOption := by
  obtain ⟨answer, _, hresult, -, -, hanswer⟩ := hs.evolve hengine hdigest hholds text
  obtain ⟨answer', _, hresult', -, -, hanswer'⟩ := hs'.evolve hengine hdigest hholds' text
  rw [hresult, hresult']
  refine Option.ext fun es => ?_
  rw [toOption_eq_some_iff, toOption_eq_some_iff, hanswer, hanswer', hmetadata,
    Evolves.congr hrules hlexicon]

/-- What a sentence comes to in a session that is opened for it, it comes to in all of them. -/
theorem Uncached.toOption_afresh (h : Uncached texts project files bare)
    (hidle : running state = none) (text : String) :
    (afresh engine bare project s.metadata state text).toOption =
      ((Session.evolve engine files text).result s).1.toOption :=
  hs.toOption_evolve_eq hengine hdigest hholds h.holds
    (h.onTime_opened laws s.metadata hidle) h.rules h.lexicon rfl text

end

end Session

/-! ## Books -/

namespace Book

variable {w w' : Workspace σ}

theorem fst_expandFragment (engine : Engine σ) (f : Fragment) (w : Workspace σ) :
    (expandFragment engine f w).1 =
      textFor f ((Session.evolve engine w.files f.sentence).result w.session).1.toOption :=
  (expandFragment_eq rfl).1

/-- What stands for a span if there is no other. -/
def aloneText (engine : Engine σ) (w : Workspace σ) : Span → String
  | .char c => c.toString
  | .fragment f => (expandFragment engine f w).1

section

variable (hengine : engine.WordWise laws project.changesPath running)
  (hdigest : Set.InjOn textDigest texts) (hholds : w.files.Holds texts)
  (hs : w.session.OnTime laws running texts w.files project)
include hengine hdigest hholds hs

theorem aloneText_eq (hfiles : w'.files = w.files)
    (hs' : w'.session.OnTime laws running texts w.files project)
    (hmetadata : w'.session.metadata = w.session.metadata) :
    aloneText engine w' = aloneText engine w := by
  funext span
  cases span with
  | char c => rfl
  | fragment f =>
    rw [aloneText, aloneText, fst_expandFragment, fst_expandFragment, hfiles,
      hs.toOption_evolve_eq hengine hdigest hholds hholds hs' rfl rfl hmetadata]

/-- What stands for a fragment is what stands for it if there is no other. -/
theorem expandSpans_eq (pieces : List Span) :
    (expandSpans engine pieces w).1 = pieces.map (aloneText engine w) ∧
      (expandSpans engine pieces w).2.files = w.files := by
  induction pieces generalizing w with
  | nil => exact ⟨rfl, rfl⟩
  | cons piece rest ih =>
    cases piece with
    | char c =>
      obtain ⟨htexts, hfiles⟩ := ih hholds hs
      exact ⟨congrArg (c.toString :: ·) htexts, hfiles⟩
    | fragment f =>
      obtain ⟨answer, s, hresult, hs', hmetadata, -⟩ := hs.evolve hengine hdigest hholds f.sentence
      obtain ⟨-, hkept, rfl⟩ := expandFragment_eq hresult
      -- the session behind this fragment has other caches, but gives the same for those that follow
      obtain ⟨htexts, hfiles⟩ := ih (by rwa [hkept]) (by rwa [hkept])
      rw [aloneText_eq hengine hdigest hholds hs hkept hs' hmetadata] at htexts
      exact ⟨congrArg ((expandFragment engine f w).1 :: ·) htexts, hfiles.trans hkept⟩

end

/-- Where no escape can stand, a text is no escaped one. -/
theorem failureMark_ne_escaped (cs : List Char) : String.ofList (escapeMarkdown cs) ≠ failureMark := by
  intro heq
  have hlist := congrArg String.toList heq
  rw [String.toList_ofList] at hlist
  have hhead := head?_escapeMarkdown cs '?' (by rw [hlist]; rfl) (by decide)
  exact absurd hhead (by decide)

/-- Whatever has happened in a session, a book is expanded fragment by fragment. There is one way to
split it into fragments and what stands between them, which stays as it is. What stands for a fragment
then is what stands for it if it is the only one: the mark of failure exactly if a newly opened session
without caches fails to evolve its sentence, and else, up to escapes, the words that such a session
gives. The times have to tell texts of the rule file apart if the session has not evolved anything
yet. -/
theorem expand_independently {w : Workspace σ}
    (hengine : engine.WordWise laws project.changesPath running)
    (hdigest : Set.InjOn textDigest texts)
    (hw : Session.Desk.Lived engine running texts project ⟨w.files, w.session⟩)
    (htimes : w.session.evolver.Timely w.files) :
    (∀ source : String, (expand engine source w).2.files = w.files ∧
      (∃! split : List Char × List (Fragment × List Char), Splits source.toList split.1 split.2) ∧
      ∀ before pieces, Splits source.toList before pieces →
        (expand engine source w).1.toList =
          before ++ pieces.flatMap fun piece =>
            (expandFragment engine piece.1 w).1.toList ++ piece.2) ∧
    ∀ f bare state, Session.Uncached texts project w.files bare → running state = none →
      ((expandFragment engine f w).1 = "???" ↔
        ∃ e, Session.afresh engine bare project w.session.metadata state f.sentence = .error e) ∧
      ∀ words, Session.afresh engine bare project w.session.metadata state f.sentence = .ok words →
        unescape (expandFragment engine f w).1.toList = (showWords f.shown words).toList := by
  obtain ⟨hholds, -, hsession⟩ := Session.Desk.dated_of_lived hengine hdigest hw
  have hs : w.session.OnTime laws running texts w.files project := ⟨hsession, htimes⟩
  constructor
  · intro source
    obtain ⟨htexts, hfiles⟩ := expandSpans_eq hengine hdigest hholds hs (spans source.toList)
    refine ⟨hfiles, ⟨Span.gather (spans source.toList), splits_iff.2 rfl,
      fun split hsplit => (splits_iff.1 hsplit).symm⟩, fun before pieces hsplits => ?_⟩
    have hshown : (expand engine source w).1.toList = (spans source.toList).flatMap
        (Span.shown fun f => (expandFragment engine f w).1.toList) := by
      change (String.join (expandSpans engine (spans source.toList) w).1).toList = _
      rw [htexts, String.toList_join, List.flatMap_map]
      congr 1
      funext span
      cases span with
      | char c => simp [aloneText, Span.shown]
      | fragment f => rfl
    rw [hshown, flatMap_shown, splits_iff.1 hsplits]
  · intro f bare state hbare hidle
    rw [fst_expandFragment, ← hbare.toOption_afresh hengine hdigest hholds hs hidle]
    cases Session.afresh engine bare project w.session.metadata state f.sentence with
    | error e =>
      refine ⟨⟨fun _ => ⟨e, rfl⟩, fun _ => rfl⟩, fun words hwords => ?_⟩
      cases hwords
    | ok words =>
      refine ⟨⟨fun hmark => absurd hmark (failureMark_ne_escaped _), ?_⟩, fun words' hwords => ?_⟩
      · rintro ⟨e, he⟩
        cases he
      · cases hwords
        simp [Except.toOption, textFor, unescape_escapeMarkdown]

/-- Voicing, for words without a certain sound. -/
def waryVoicing : String → Law := fun rules start stop word =>
  if 'q' ∈ word.toList then .error (.evolve "unknown sound" []) else voicing rules start stop word

def waryEngine : Engine (Option String) :=
  .ofLaw waryVoicing ⟨"changes.lsc"⟩

def waryFiles : FileStore :=
  Session.includingFiles (some Session.stoneText)

def waryMetadata : Metadata :=
  ⟨"", "", true, none, none⟩

def waryBook : String :=
  "a [[*aqa]] [[ <stone> |phonetic]]."

theorem uncached_waryFiles :
    Session.Uncached {text | text ∈ Session.includingTexts} ⟨⟨""⟩⟩ waryFiles waryFiles := by
  have hnone : waryFiles.node? (waryFiles.target (Evolver.evolvedFile (Project.cacheDir ⟨⟨""⟩⟩))) =
      none := by decide
  refine ⟨Session.holds_includingFiles fun text h => ?_, rfl, rfl, fun f => hnone ▸ nofun⟩
  simp [← Option.some.inj h, Session.includingTexts]

set_option maxRecDepth 100000 in
/-- A word that the rules refuse does no harm to the one behind it, also if the session has tried to
evolve it before. -/
theorem expand_independently_wary : ∃ w : Workspace (Option String),
    Session.Desk.Lived waryEngine id {text | text ∈ Session.includingTexts} ⟨⟨""⟩⟩
      ⟨w.files, w.session⟩ ∧
    w.session.evolver.Timely w.files ∧
    ∃ stone, (expand waryEngine waryBook w).1.toList =
        "a ".toList ++ ("???".toList ++ " ".toList ++ (stone ++ ".".toList)) ∧
      unescape stone = "/ada/".toList := by
  have hengine : waryEngine.WordWise waryVoicing ⟨"changes.lsc"⟩ id :=
    Engine.wordWise_ofLaw waryVoicing ⟨"changes.lsc"⟩
  have hbare := uncached_waryFiles
  have honTime : (Session.opened waryFiles ⟨⟨""⟩⟩ waryMetadata none).OnTime waryVoicing id
      {text | text ∈ Session.includingTexts} waryFiles ⟨⟨""⟩⟩ :=
    hbare.onTime_opened waryVoicing waryMetadata rfl
  have htried := Session.OnTime.preserves_call hengine Session.injOn_includingTexts hbare.holds
    (.evolve "*aqa") _ honTime
  have hmetadata := Session.preserves_metadata_call waryEngine waryFiles waryMetadata
    (.evolve "*aqa") (.opened waryFiles ⟨⟨""⟩⟩ waryMetadata none) rfl
  have hopened : Session.Desk.Lived waryEngine id {text | text ∈ Session.includingTexts} ⟨⟨""⟩⟩
      ⟨waryFiles, .opened waryFiles ⟨⟨""⟩⟩ waryMetadata none⟩ :=
    .opened waryFiles waryMetadata none hbare.holds hbare.evolved rfl
  have hlived := hopened.turn (.call _ (.evolve "*aqa") fun _ => honTime.timely)
  generalize (((Session.Request.evolve "*aqa").call waryEngine waryFiles).result _).2 = s
    at htried hmetadata hlived
  obtain ⟨hexpand, hstands⟩ := expand_independently (w := ⟨waryFiles, s, []⟩) hengine
    Session.injOn_includingTexts hlived htried.timely
  have hsplits : Splits waryBook.toList "a ".toList
      [(⟨"*aqa", .modern⟩, " ".toList), (⟨"<stone>", .phonetic⟩, ".".toList)] :=
    splits_iff.2 (by decide)
  obtain ⟨hrefused, hanswered⟩ :
      (Session.afresh waryEngine waryFiles ⟨⟨""⟩⟩ waryMetadata none "*aqa").toOption = none ∧
      (Session.afresh waryEngine waryFiles ⟨⟨""⟩⟩ waryMetadata none "<stone>").toOption =
        some [⟨"ata", "ada", "ada"⟩] := by
    decide +kernel
  rw [toOption_eq_some_iff] at hanswered
  have hmark := (hstands ⟨"*aqa", .modern⟩ waryFiles none hbare rfl).1.2
  have hstone := (hstands ⟨"<stone>", .phonetic⟩ waryFiles none hbare rfl).2
  dsimp only at hmark hstone
  rw [hmetadata] at hmark hstone
  refine ⟨⟨waryFiles, s, []⟩, hlived, htried.timely, _, ?_, hstone _ hanswered⟩
  rw [(hexpand waryBook).2.2 _ _ hsplits, List.flatMap_cons, List.flatMap_cons, List.flatMap_nil,
    List.append_nil]
  dsimp only
  rw [hmark ?_]
  · cases hafresh : Session.afresh waryEngine waryFiles ⟨⟨""⟩⟩ waryMetadata none "*aqa" with
    | error e => exact ⟨e, rfl⟩
    | ok words =>
      rw [hafresh] at hrefused
      cases hrefused

end Book

end Etymon
