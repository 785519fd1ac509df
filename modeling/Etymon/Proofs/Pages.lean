import Etymon.Book.Page
import Etymon.Proofs.CurrentLexicon
import Etymon.Proofs.Settling

/-!
# Pages that are rendered again

What a fragment shows is told by the lexicon, if one can be loaded, by the rule file, and by what the
evolver has settled of its forms. All of this stays as it is when the page is rendered again, so the
page comes out the same, as long as the files that it depends on are read the same and no lexicon can be
loaded where none could. Any function may turn the text of a book into markup.

## Main definitions

* `Session.Tells`: what a sentence comes to.
* `Session.InOrder`: a session whose caches are grounded in what the files have been.
* `Session.Leads`: what calls leave as it is.
* `Book.Prints`: what the page of the book is.

## Main results

* `Session.exists_evolve`: a call tells what its sentence comes to.
* `Book.Prints.unique`: there is one page.
* `Book.exists_render`: a book that can be read is rendered as it prints.
-/

namespace Etymon

/-! ## Sentences -/

namespace Session

variable {σ : Type} {engine : Engine σ} {law : Law} {laws : String → Law}
  {running : σ → Option String} {texts : Set String} {dir : Location} {project : Project}
  {metadata : Metadata} {rules text : String} {loaded : Option (Lexicon × List Path)} {scope : Scope}
  {files : FileStore} {v v' : Evolver σ} {s s' s'' : Session σ}

/-- The rule file and the lexicon can be loaded. -/
def Loads (files : FileStore) (project : Project) : Prop :=
  ∃ loaded, loadLexicon files project = .ok loaded

/-- The forms of a sentence, if a lexicon could be loaded and the sentence can be resolved in it. -/
def formsOf? (loaded : Option (Lexicon × List Path)) (scope : Scope) (text : String) :
    Option (List Form) := do
  let sentence ← (Sentence.parse text).toOption
  let (lex, _) ← loaded
  (lex.resolveSentence sentence scope).toOption

theorem loads_of_formsOf? {forms : List Form}
    (h : formsOf? (loadLexicon files project).toOption scope text = some forms) :
    Loads files project := by
  cases hload : loadLexicon files project with
  | ok loaded => exact ⟨loaded, hload⟩
  | error e =>
    rw [hload, formsOf?] at h
    cases (Sentence.parse text).toOption <;> simp [Except.toOption] at h

/-- Where a lexicon can be loaded, the rule file can be read. -/
theorem Loads.exists_rules (h : Loads files project) :
    ∃ rules, files.read project.changesPath = .ok rules := by
  obtain ⟨⟨lex, paths⟩, hload⟩ := h
  obtain ⟨order, base, horder, -⟩ := loadLexicon_eq_ok_iff.1 hload
  obtain ⟨rules, hread, -⟩ := RuleOrder.load_eq_ok_iff.1 horder
  exact ⟨rules, hread⟩

/-- What a sentence comes to. An evolver at work on the rules has settled the forms of a sentence that
can be resolved. -/
inductive Tells (law : Law) (rules : String) (loaded : Option (Lexicon × List Path)) (scope : Scope)
    (v : Evolver σ) (text : String) : Option (List Evolved) → Prop
  | unresolved (hforms : formsOf? loaded scope text = none) :
      Tells law rules loaded scope v text none
  | resolved {forms : List Form} {answer : Option (List Evolved)}
      (hforms : formsOf? loaded scope text = some forms)
      (hhash : v.rulesHash = some (textDigest rules))
      (hsettles : v.Settles law (.parse rules) (forms.map .form) answer) :
      Tells law rules loaded scope v text answer

theorem Tells.unique {answer answer' : Option (List Evolved)}
    (h : Tells law rules loaded scope v text answer)
    (h' : Tells law rules loaded scope v text answer') : answer = answer' := by
  cases h with
  | unresolved hforms =>
    cases h' with
    | unresolved _ => rfl
    | resolved hforms' _ _ => cases hforms.symm.trans hforms'
  | resolved hforms _ hsettles =>
    cases h' with
    | unresolved hforms' => cases hforms'.symm.trans hforms
    | resolved hforms' _ hsettles' =>
      cases hforms.symm.trans hforms'
      exact hsettles.unique hsettles'

theorem Tells.mono {answer : Option (List Evolved)} (h : Tells law rules loaded scope v text answer)
    (hlater : v.Persists law rules v') : Tells law rules loaded scope v' text answer := by
  cases h with
  | unresolved hforms => exact .unresolved hforms
  | resolved hforms hhash hsettles =>
    obtain ⟨hhash', hcontinues⟩ := hlater hhash
    exact .resolved hforms hhash' (hsettles.mono hcontinues)

/-! ### Calls -/

/-- A sentence is resolved in the lexicon that would be loaded. -/
theorem exists_resolve (hdigest : Set.InjOn textDigest texts) (hholds : files.Holds texts)
    (hs : Grounded texts files.workDir s.project s.lexicon) (text : String) :
    ∃ outcome cache, (resolve files text).result s = (outcome, { s with lexicon := cache }) ∧
      Grounded texts files.workDir s.project cache ∧
      outcome.toOption = formsOf? (loadLexicon files s.project).toOption s.metadata.defaultScope text ∧
      (¬ Loads files s.project → cache = s.lexicon) := by
  rw [resolve, readSentence, Action.result_bind, Action.result_ofExcept, formsOf?]
  cases Sentence.parse text with
  | error e => exact ⟨_, s.lexicon, rfl, hs, rfl, fun _ => rfl⟩
  | ok sentence =>
    dsimp only
    rcases currentLexicon_cases hdigest hholds hs with
      ⟨lex, paths, cache, hload, hresult, hcache⟩ | ⟨e, e', hload, hresult⟩
    · rw [Action.result_bind_ok hresult, hload]
      exact ⟨_, cache, rfl, hcache, rfl, absurd ⟨_, hload⟩⟩
    · rw [Action.result_bind_error hresult, hload]
      exact ⟨_, s.lexicon, rfl, hs, rfl, fun _ => rfl⟩

/-- The lexicon is grounded in what the files have been, the evolver is at work on the rule file, and
its caches are kept in the directory of the project. -/
structure InOrder (running : σ → Option String) (texts : Set String) (dir : Location)
    (project : Project) (metadata : Metadata) (s : Session σ) : Prop where
  lexicon : s.IsGrounded texts dir project
  described : s.metadata = metadata
  evolver : s.evolver.Ready running texts project.changesPath
  evolvedPath : s.evolver.evolved.path = Evolver.evolvedFile project.cacheDir
  tracesPath : s.evolver.traces.path = Evolver.tracesFile project.cacheDir

/-- What calls leave as it is: the order, and what is settled; all of the session if no lexicon can be
loaded. -/
structure Leads (law : Law) (running : σ → Option String) (texts : Set String) (files : FileStore)
    (project : Project) (metadata : Metadata) (rules : String) (s s' : Session σ) : Prop where
  order : s'.InOrder running texts files.workDir project metadata
  persists : s.evolver.Persists law rules s'.evolver
  idle : ¬ Loads files project → s' = s

theorem Leads.refl (law : Law) (rules : String)
    (hs : s.InOrder running texts files.workDir project metadata) :
    s.Leads law running texts files project metadata rules s :=
  ⟨hs, .refl _ _ _, fun _ => rfl⟩

theorem Leads.trans (h : s.Leads law running texts files project metadata rules s')
    (h' : s'.Leads law running texts files project metadata rules s'') :
    s.Leads law running texts files project metadata rules s'' :=
  ⟨h'.order, h.persists.trans h'.persists, fun hnone => (h'.idle hnone).trans (h.idle hnone)⟩

/-- The current lexicon is the one that would be loaded, if one would. -/
theorem exists_currentLexicon (law : Law) (rules : String) (hdigest : Set.InjOn textDigest texts)
    (hholds : files.Holds texts) (hs : s.InOrder running texts files.workDir project metadata) :
    ∃ outcome s', (currentLexicon files).result s = (outcome, s') ∧
      s.Leads law running texts files project metadata rules s' ∧ s'.evolver = s.evolver ∧
      outcome.toOption = (loadLexicon files project).toOption.map Prod.fst := by
  obtain ⟨⟨rfl, hlexicon⟩, rfl, hevolver, hpath, hpath'⟩ := hs
  rcases currentLexicon_cases hdigest hholds hlexicon with
    ⟨lex, paths, cache, hload, hresult, hcache⟩ | ⟨e, e', hload, hresult⟩
  · exact ⟨_, _, hresult, ⟨⟨⟨rfl, hcache⟩, rfl, hevolver, hpath, hpath'⟩, .refl _ _ _,
      absurd ⟨_, hload⟩⟩, rfl, by rw [hload]; rfl⟩
  · exact ⟨_, _, hresult, .refl _ _ ⟨⟨rfl, hlexicon⟩, rfl, hevolver, hpath, hpath'⟩, rfl,
      by rw [hload]; rfl⟩

/-- The rules are those of the rule file, if that and the lexicon can be loaded. -/
def Governs (rules : String) (files : FileStore) (project : Project) : Prop :=
  Loads files project → files.read project.changesPath = .ok rules

theorem exists_governs (files : FileStore) (project : Project) :
    ∃ rules, Governs rules files project := by
  by_cases hloads : Loads files project
  · obtain ⟨rules, hread⟩ := hloads.exists_rules
    exact ⟨rules, fun _ => hread⟩
  · exact ⟨"", fun h => absurd h hloads⟩

/-- A call tells what its sentence comes to. -/
theorem exists_evolve (hengine : engine.WordWise laws project.changesPath running)
    (hdigest : Set.InjOn textDigest texts) (hholds : files.Holds texts)
    (hrules : Governs rules files project)
    (hs : s.InOrder running texts files.workDir project metadata) (text : String) :
    ∃ answer s', (evolve engine files text).result s = (answer, s') ∧
      s.Leads (laws rules) running texts files project metadata rules s' ∧
      Tells (laws rules) rules (loadLexicon files project).toOption metadata.defaultScope s'.evolver text
        answer.toOption := by
  obtain ⟨⟨rfl, hlexicon⟩, rfl, hevolver, hpath, hpath'⟩ := hs
  obtain ⟨outcome, cache, hresolve, hcache, hforms, hkept⟩ :=
    exists_resolve hdigest hholds hlexicon text
  rw [evolve]
  cases outcome with
  | error e =>
    rw [Action.result_bind_error hresolve]
    refine ⟨.error e, _, rfl, ⟨⟨⟨rfl, hcache⟩, rfl, hevolver, hpath, hpath'⟩, .refl _ _ _,
      fun hnone => ?_⟩, .unresolved hforms.symm⟩
    rw [hkept hnone]
  | ok forms =>
    have hloads : Loads files s.project := loads_of_formsOf? hforms.symm
    have hread := hrules hloads
    obtain ⟨answer, u, hresult, hready, hhash, halike, halike', hsettles, hpersists⟩ :=
      hevolver.evolve hengine hdigest (hholds _ _ hread) hread (forms.map .form)
    rw [Action.result_bind_ok hresolve, onEvolver, Action.result_part, hresult]
    exact ⟨answer, _, rfl, ⟨⟨⟨rfl, hcache⟩, rfl, hready, halike.1.trans hpath, halike'.1.trans hpath'⟩,
      hpersists, absurd hloads⟩, .resolved hforms.symm hhash hsettles⟩

end Session

/-! ## Pages -/

namespace Book

variable {σ : Type} {toHtml : String → String} {engine : Engine σ} {law : Law} {laws : String → Law}
  {running : σ → Option String} {texts : Set String} {project : Project} {metadata : Metadata}
  {rules text text' : String} {loaded : Option (Lexicon × List Path)} {scope : Scope}
  {files files' : FileStore} {v v' : Evolver σ} {w : Workspace σ} {piece : Span}

/-- What stands for a fragment whose sentence has come to the given results, or to none. -/
def textFor (f : Fragment) : Option (List Evolved) → String
  | some words => String.ofList (escapeMarkdown (showWords f.shown words).toList)
  | none => failureMark

/-- What stands for a piece of the book. -/
inductive Shows (law : Law) (rules : String) (loaded : Option (Lexicon × List Path)) (scope : Scope)
    (v : Evolver σ) : Span → String → Prop
  | char (c : Char) : Shows law rules loaded scope v (.char c) c.toString
  | fragment {f : Fragment} {answer : Option (List Evolved)}
      (htells : Session.Tells law rules loaded scope v f.sentence answer) :
      Shows law rules loaded scope v (.fragment f) (textFor f answer)

theorem Shows.unique (h : Shows law rules loaded scope v piece text)
    (h' : Shows law rules loaded scope v piece text') : text = text' := by
  cases h with
  | char c =>
    cases h' with
    | char => rfl
  | fragment htells =>
    cases h' with
    | fragment htells' => rw [htells.unique htells']

theorem Shows.mono (h : Shows law rules loaded scope v piece text)
    (hlater : v.Persists law rules v') : Shows law rules loaded scope v' piece text := by
  cases h with
  | char c => exact .char c
  | fragment htells => exact .fragment (htells.mono hlater)

/-- The page of a book that can be read. -/
def Prints (toHtml : String → String) (law : Law) (rules : String) (files : FileStore)
    (project : Project) (metadata : Metadata) (v : Evolver σ) (text : String) : Prop :=
  ∃ source shown, files.read project.bookPath = .ok source ∧
    List.Forall₂ (Shows law rules (Session.loadLexicon files project).toOption metadata.defaultScope v)
      (spans source.toList) shown ∧
    text = page metadata.name (toHtml (String.join shown))

theorem Prints.unique (h : Prints toHtml law rules files project metadata v text)
    (h' : Prints toHtml law rules files project metadata v text') : text = text' := by
  obtain ⟨source, shown, hread, hshown, rfl⟩ := h
  obtain ⟨source', shown', hread', hshown', rfl⟩ := h'
  rw [hread, Except.ok.injEq] at hread'
  subst hread'
  have hunique : Relator.RightUnique (Shows law rules (Session.loadLexicon files project).toOption
      metadata.defaultScope v) := fun _ _ _ => Shows.unique
  rw [List.right_unique_forall₂' hunique hshown hshown']

theorem Prints.mono (h : Prints toHtml law rules files project metadata v text)
    (hlater : v.Persists law rules v') : Prints toHtml law rules files project metadata v' text := by
  obtain ⟨source, shown, hread, hshown, rfl⟩ := h
  exact ⟨source, shown, hread, hshown.imp fun _ _ h => h.mono hlater, rfl⟩

theorem Prints.congr (h : Prints toHtml law rules files project metadata v text)
    (hbook : files'.read project.bookPath = files.read project.bookPath)
    (hloaded : (Session.loadLexicon files' project).toOption =
      (Session.loadLexicon files project).toOption) :
    Prints toHtml law rules files' project metadata v text := by
  rw [Prints, hbook, hloaded]
  exact h

/-! ### Rendering -/

theorem result_onSession {α : Type} (act : FileStore → Action (Session σ) α) (w : Workspace σ) :
    (Workspace.onSession act).result w =
      (((act w.files).result w.session).1,
        { w with session := ((act w.files).result w.session).2 }) :=
  rfl

theorem expandFragment_eq {f : Fragment} {answer : Except Error (List Evolved)} {s : Session σ}
    (h : (Session.evolve engine w.files f.sentence).result w.session = (answer, s)) :
    (expandFragment engine f w).1 = textFor f answer.toOption ∧
      (expandFragment engine f w).2.files = w.files ∧ (expandFragment engine f w).2.session = s := by
  rw [expandFragment, result_onSession, h]
  cases answer <;> exact ⟨rfl, rfl, rfl⟩

section

variable (hengine : engine.WordWise laws project.changesPath running)
  (hdigest : Set.InjOn textDigest texts) (hholds : w.files.Holds texts)
  (hrules : Session.Governs rules w.files project)
  (hw : w.session.InOrder running texts w.files.workDir project metadata)

include hengine hdigest hholds hrules hw

/-- The pieces of a book are shown as they are when all of them have been. -/
theorem expandSpans_shows (pieces : List Span) :
    (expandSpans engine pieces w).2.files = w.files ∧
      w.session.Leads (laws rules) running texts w.files project metadata rules
        (expandSpans engine pieces w).2.session ∧
      List.Forall₂ (Shows (laws rules) rules (Session.loadLexicon w.files project).toOption
        metadata.defaultScope (expandSpans engine pieces w).2.session.evolver) pieces
          (expandSpans engine pieces w).1 := by
  induction pieces generalizing w with
  | nil => exact ⟨rfl, .refl _ _ hw, .nil⟩
  | cons piece rest ih =>
    cases piece with
    | char c =>
      obtain ⟨hfiles, hleads, hshown⟩ := ih hholds hrules hw
      exact ⟨hfiles, hleads, .cons (.char c) hshown⟩
    | fragment f =>
      obtain ⟨answer, s, hresult, hfirst, htells⟩ :=
        Session.exists_evolve hengine hdigest hholds hrules hw f.sentence
      obtain ⟨htext, hkept, rfl⟩ := expandFragment_eq hresult
      obtain ⟨hfiles, hleads, hshown⟩ := ih (by rwa [hkept]) (by rwa [hkept])
        (by rw [hkept]; exact hfirst.order)
      rw [hkept] at hfiles hleads hshown
      refine ⟨hfiles, hfirst.trans hleads, .cons ?_ hshown⟩
      change Shows _ _ _ _ _ _ (expandFragment engine f w).1
      rw [htext]
      exact .fragment (htells.mono hleads.persists)

/-- A book that can be read is rendered as it prints afterwards. -/
theorem exists_render {source : String} (hbook : w.files.read project.bookPath = .ok source) :
    ∃ text w', (renderWith toHtml engine).result w = (.ok (text, dependencies project
        ((Session.loadLexicon w.files project).toOption.elim [] (·.1.sources))), w') ∧
      w'.files = w.files ∧
      w.session.Leads (laws rules) running texts w.files project metadata rules w'.session ∧
      Prints toHtml (laws rules) rules w.files project metadata w'.session.evolver text := by
  obtain ⟨hfiles, hleads, hshown⟩ := expandSpans_shows hengine hdigest hholds hrules hw
    (spans source.toList)
  obtain rfl := hw.lexicon.belongs
  obtain rfl := hw.described
  rw [renderWith, Action.result_bind_get, Action.result_bind, Action.result_ofExcept, hbook]
  dsimp only [Except.mapError]
  rw [Action.result_bind, Action.result_ofFunction, expand]
  rcases hexpand : expandSpans engine (spans source.toList) w with ⟨shown, w₁⟩
  rw [hexpand] at hfiles hleads hshown
  dsimp only at hfiles hleads hshown ⊢
  rw [← hfiles] at hholds hbook hleads hshown ⊢
  obtain ⟨outcome, s, hresult, hlast, hevolver, houtcome⟩ :=
    Session.exists_currentLexicon (laws rules) rules hdigest hholds hleads.order
  have hsources : outcome.toOption.elim [] Lexicon.sources =
      (Session.loadLexicon w₁.files w.session.project).toOption.elim [] (·.1.sources) := by
    rw [houtcome]
    cases (Session.loadLexicon w₁.files w.session.project).toOption <;> rfl
  have hprints : Prints toHtml (laws rules) rules w₁.files w.session.project w.session.metadata s.evolver
      (page w.session.metadata.name (toHtml (String.join shown))) :=
    ⟨source, shown, hbook, by rwa [hevolver], rfl⟩
  rw [Action.result_bind, Action.result_ofFunction, result_onSession, hresult, ← hsources]
  cases outcome with
  | error e => exact ⟨_, _, rfl, rfl, hleads.trans hlast, hprints⟩
  | ok lex => exact ⟨_, _, rfl, rfl, hleads.trans hlast, hprints⟩

/-- A page that was printed is rendered again. -/
theorem render_again
    (hprints : Prints toHtml (laws rules) rules w.files project metadata w.session.evolver text) :
    ∃ paths w', (renderWith toHtml engine).result w = (.ok (text, paths), w') ∧
      w'.files = w.files ∧ w'.session.project = project := by
  obtain ⟨source, shown, hbook, -⟩ := id hprints
  obtain ⟨text', w', hresult, hfiles, hleads, hprints'⟩ :=
    exists_render hengine hdigest hholds hrules hw hbook
  rw [(hprints.mono hleads.persists).unique hprints']
  exact ⟨_, w', hresult, hfiles, hleads.order.lexicon.belongs⟩

end

theorem render_of_unreadable {fault : IoFault}
    (hbook : w.files.read w.session.project.bookPath = .error fault) :
    (renderWith toHtml engine).result w = (.error (.io w.session.project.bookPath fault), w) := by
  rw [renderWith, Action.result_bind_get, Action.result_bind, Action.result_ofExcept, hbook]
  rfl

/-! ### Dependencies -/

/-- The known paths, and another one unless it is a spelling of one of them. -/
def addSource (known : List Path) (p : Path) : List Path :=
  if known.any (·.same p) then known else known ++ [p]

theorem dependencies_eq (project : Project) (sources : List Path) : dependencies project sources =
    sources.foldl addSource [project.bookPath, project.changesPath, project.lexiconPath] :=
  rfl

theorem subset_addSource (known : List Path) (p : Path) : known ⊆ addSource known p := by
  rw [addSource]
  split
  · exact List.Subset.refl _
  · exact List.subset_append_left _ _

theorem exists_same_addSource (known : List Path) (p : Path) :
    ∃ d ∈ addSource known p, d.same p = true := by
  rw [addSource]
  split
  · next h => exact List.any_eq_true.1 h
  · exact ⟨p, by simp, by simp [Path.same]⟩

theorem mem_of_mem_foldl_addSource {known sources : List Path} {d : Path}
    (h : d ∈ sources.foldl addSource known) : d ∈ known ∨ d ∈ sources := by
  induction sources generalizing known with
  | nil => exact .inl h
  | cons p rest ih =>
    rcases ih h with h | h
    · rw [addSource] at h
      split at h
      · exact .inl h
      · grind
    · exact .inr (List.mem_cons_of_mem _ h)

theorem subset_foldl_addSource (known sources : List Path) : known ⊆ sources.foldl addSource known := by
  induction sources generalizing known with
  | nil => exact List.Subset.refl _
  | cons p rest ih => exact List.Subset.trans (subset_addSource known p) (ih _)

/-- Every source is among the dependencies in one of its spellings. -/
theorem exists_same_foldl_addSource (known : List Path) {sources : List Path} {p : Path} (h : p ∈ sources) :
    ∃ d ∈ sources.foldl addSource known, d.same p = true := by
  induction sources generalizing known with
  | nil => cases h
  | cons first rest ih =>
    rcases List.mem_cons.1 h with rfl | h
    · obtain ⟨d, hd, hsame⟩ := exists_same_addSource known p
      exact ⟨d, subset_foldl_addSource _ rest hd, hsame⟩
    · exact ih _ h

/-- If the book can be read and the lexicon can be loaded, all dependencies can be read. -/
theorem readable_of_mem_dependencies {lex : Lexicon} {paths : List Path} {source : String}
    (hload : Session.loadLexicon files project = .ok (lex, paths))
    (hbook : files.read project.bookPath = .ok source) :
    ∀ d ∈ dependencies project lex.sources, ∃ text, files.read d = .ok text := by
  intro d hd
  obtain ⟨order, base, -, hbase, rfl, rfl⟩ := Session.loadLexicon_eq_ok_iff.1 hload
  obtain ⟨hsources, hchanges⟩ := List.forall_mem_append.1 (Session.readable_of_loadLexicon hload)
  rw [dependencies_eq] at hd
  rcases mem_of_mem_foldl_addSource hd with hd | hd
  · simp only [List.mem_cons, List.not_mem_nil, or_false] at hd
    rcases hd with rfl | rfl | rfl
    · exact ⟨source, hbook⟩
    · exact hchanges _ (List.mem_singleton_self _)
    · exact hsources _ (Lexicon.mem_sources_of_load hbase)
  · exact hsources d hd

/-- Where the dependencies are read the same, a lexicon that could be loaded still can, and it is the
same. -/
theorem loadLexicon_of_dependencies {lex : Lexicon} {paths : List Path} {source : String}
    (hload : Session.loadLexicon files project = .ok (lex, paths))
    (hbook : files.read project.bookPath = .ok source) (hdir : files'.workDir = files.workDir)
    (hread : ∀ d ∈ dependencies project lex.sources, files'.read d = files.read d) :
    Session.loadLexicon files' project = .ok (lex, paths) := by
  have hreadable := readable_of_mem_dependencies hload hbook
  obtain ⟨order, base, -, hbase, rfl, rfl⟩ := Session.loadLexicon_eq_ok_iff.1 hload
  refine Session.loadLexicon_congr hload hdir fun p hp => ?_
  obtain ⟨text, htext⟩ := Session.readable_of_loadLexicon hload p hp
  rcases List.mem_append.1 hp with hsource | hchanges
  · -- the source may be known by another spelling, which leads to the same file
    obtain ⟨d, hd, hsame⟩ := exists_same_foldl_addSource
      [project.bookPath, project.changesPath, project.lexiconPath] hsource
    obtain ⟨text', htext'⟩ := hreadable d hd
    rw [← FileStore.read_eq_of_same hsame htext' htext hdir, hread d hd,
      FileStore.read_eq_of_same hsame htext' htext rfl]
  · exact hread p (subset_foldl_addSource _ _ (by simp_all))

/-- The page is told by the files that it depends on, unless the lexicon can be loaded now and could not
be then. -/
theorem Prints.of_dependencies (hprints : Prints toHtml law rules files project metadata v text)
    (hrules : Session.Governs rules files project) (hdir : files'.workDir = files.workDir)
    (hread : ∀ d ∈ dependencies project
      ((Session.loadLexicon files project).toOption.elim [] (·.1.sources)), files'.read d = files.read d)
    (hloads : Session.Loads files' project → Session.Loads files project) :
    Prints toHtml law rules files' project metadata v text ∧ Session.Governs rules files' project := by
  obtain ⟨source, shown, hbook, -⟩ := id hprints
  have hbook' : files'.read project.bookPath = files.read project.bookPath :=
    hread _ (subset_foldl_addSource _ _ (by simp))
  have hchanges : files'.read project.changesPath = files.read project.changesPath :=
    hread _ (subset_foldl_addSource _ _ (by simp))
  refine ⟨hprints.congr hbook' ?_, fun h => hchanges.trans (hrules (hloads h))⟩
  by_cases h : Session.Loads files project
  · obtain ⟨⟨lex, paths⟩, hload⟩ := h
    rw [hload] at hread
    rw [hload, loadLexicon_of_dependencies hload hbook hdir hread]
  · have hnone : ∀ {other : FileStore}, ¬ Session.Loads other project →
        (Session.loadLexicon other project).toOption = none := by
      intro other hother
      cases hload : Session.loadLexicon other project with
      | error e => rfl
      | ok loaded => exact absurd ⟨loaded, hload⟩ hother
    rw [hnone h, hnone fun h' => h (hloads h')]

end Book

end Etymon
