import Etymon.Lexicon.Loading
import Etymon.Proofs.Action
import Etymon.Proofs.Files
import Mathlib.Data.List.Nodup
import Mathlib.Data.List.Perm.Subperm
import Mathlib.Logic.Relation

/-!
# Loading is inlining

Loading follows the paths in records to other files, and refuses a file that is being read already. The
files that are being read at a time are pairwise different, so their nesting is bounded by the size of
the store. What is loaded is what the records of all files say when they stand in one list, the records
of a file in the place of its path.

## Main definitions

* `Lexicon.Opens`: a path leads to a file of records that is not being read already.
* `Lexicon.Inlines`: the records that a file stands for, and the files read on the way.
* `Lexicon.Visit`, `Lexicon.Names`: the files to be read, and how one names another.
* `Lexicon.register`: a lexicon with what one record says.
* `Lexicon.loadFrom`: loading to a depth, with anything put in the place of what lies deeper.

## Main results

* `Lexicon.exists_inlines_iff`: a file can be inlined if every file that it reaches can be opened.
* `Lexicon.foldlM_register_eq_ok_iff`: records can be registered if nothing is defined twice.
* `Lexicon.load_characterized`: loading registers the inlined records, and always ends.
-/

namespace Etymon

open Relation

namespace Lexicon

variable {files : FileStore} {reading : List Location} {directory : Option Path} {path : Path}
  {scope inner : Scope} {location : Location} {record : Record} {records : List Record}
  {items : List (Scope × Record)} {sources : List Path} {lex out : Lexicon}

/-! ## Inlining -/

/-- The file that a record names, with the scope that the records of that file belong to. -/
def fileOf (scope : Scope) (directory : Option Path) : Record → Option (Path × Scope)
  | .lang child _ (some path) => some (relativeTo directory path, child)
  | .includes path => some (relativeTo directory path, scope)
  | _ => none

/-- What a record in a scope says itself, without the file that it names. -/
def said (scope : Scope) : Record → List (Scope × Record)
  | .includes _ => []
  | .lang child parent _ => [(scope, .lang child parent none)]
  | record => [(scope, record)]

/-- A path leads to a file that consists of records and is not being read already. -/
structure Opens (files : FileStore) (reading : List Location) (path : Path) (location : Location)
    (records : List Record) : Prop where
  exists_file : ∃ f, files.find path = .ok (location, .file f) ∧
    Record.parseAll (some path) f.text = .ok records
  fresh : location ∉ reading

theorem Opens.unique {location' : Location} {records' : List Record}
    (h : Opens files reading path location records)
    (h' : Opens files reading path location' records') : location = location' ∧ records = records' := by
  obtain ⟨f, hfind, hparse⟩ := h.exists_file
  obtain ⟨f', hfind', hparse'⟩ := h'.exists_file
  rw [hfind, Except.ok.injEq, Prod.mk.injEq, Node.file.injEq] at hfind'
  obtain ⟨rfl, rfl⟩ := hfind'
  exact ⟨rfl, Except.ok.inj (hparse.symm.trans hparse')⟩

/-- What can be inlined: a file, and records that stand in one. -/
inductive Piece where
  | file (path : Path) (scope : Scope)
  | records (directory : Option Path) (scope : Scope) (records : List Record)

/-- The records that a piece stands for, each with its scope, and the files that are read for it, in
order. The files at `reading` are being read already. -/
inductive Inlines (files : FileStore) :
    List Location → Piece → List (Scope × Record) → List Path → Prop
  | file {reading : List Location} {path : Path} {scope : Scope} {location : Location}
      {records : List Record} {items : List (Scope × Record)} {sources : List Path}
      (opens : Opens files reading path location records)
      (inside : Inlines files (location :: reading) (.records path.parent? scope records)
        items sources) :
      Inlines files reading (.file path scope) items (path :: sources)
  | nil {reading : List Location} {directory : Option Path} {scope : Scope} :
      Inlines files reading (.records directory scope []) [] []
  | plain {reading : List Location} {directory : Option Path} {scope : Scope} {record : Record}
      {records : List Record} {items : List (Scope × Record)} {sources : List Path}
      (names : fileOf scope directory record = none)
      (rest : Inlines files reading (.records directory scope records) items sources) :
      Inlines files reading (.records directory scope (record :: records))
        (said scope record ++ items) sources
  | named {reading : List Location} {directory : Option Path} {scope inner : Scope} {path : Path}
      {record : Record} {records : List Record} {items items' : List (Scope × Record)}
      {sources sources' : List Path}
      (names : fileOf scope directory record = some (path, inner))
      (inside : Inlines files reading (.file path inner) items sources)
      (rest : Inlines files reading (.records directory scope records) items' sources') :
      Inlines files reading (.records directory scope (record :: records))
        (said scope record ++ items ++ items') (sources ++ sources')

theorem exists_inlines_records_iff :
    (∃ items sources, Inlines files reading (.records directory scope records) items sources) ↔
      ∀ record ∈ records, ∀ path inner, fileOf scope directory record = some (path, inner) →
        ∃ items sources, Inlines files reading (.file path inner) items sources := by
  induction records with
  | nil => exact ⟨fun _ => nofun, fun _ => ⟨[], [], .nil⟩⟩
  | cons record records ih =>
    rw [List.forall_mem_cons, ← ih]
    constructor
    · rintro ⟨_, _, h⟩
      cases h with
      | plain names rest => exact ⟨fun path inner hnames => by simp [names] at hnames, _, _, rest⟩
      | named names inside rest =>
        refine ⟨fun path inner hnames => ?_, _, _, rest⟩
        rw [names, Option.some.injEq, Prod.mk.injEq] at hnames
        obtain ⟨rfl, rfl⟩ := hnames
        exact ⟨_, _, inside⟩
    · rintro ⟨hfile, items', sources', rest⟩
      cases names : fileOf scope directory record with
      | none => exact ⟨_, _, .plain names rest⟩
      | some named =>
        obtain ⟨path, inner⟩ := named
        obtain ⟨items, sources, inside⟩ := hfile path inner names
        exact ⟨_, _, .named names inside rest⟩

/-! ### Files that are read the same -/

section

variable {other : FileStore} {piece : Piece}

theorem Opens.congr (h : Opens files reading path location records)
    (hdir : other.workDir = files.workDir) (hread : other.read path = files.read path) :
    Opens other reading path location records := by
  obtain ⟨f, hfind, hparse⟩ := h.exists_file
  obtain ⟨g, hfind', htext⟩ :=
    FileStore.exists_find_of_read (hread.trans (FileStore.read_of_find hfind))
  have hlocation : location = other.target path := by
    rw [FileStore.target_congr hdir,
      FileStore.eq_target_of_locate (FileStore.find_eq_ok_iff.1 hfind).1]
  exact ⟨⟨g, hlocation ▸ hfind', htext ▸ hparse⟩, h.fresh⟩

/-- The files that are read determine what a piece stands for, and that they are the ones to be read. -/
theorem Inlines.congr (h : Inlines files reading piece items sources)
    (hdir : other.workDir = files.workDir)
    (hread : ∀ p ∈ sources, other.read p = files.read p) :
    Inlines other reading piece items sources := by
  induction h with
  | file opens inside ih =>
    obtain ⟨hfirst, hrest⟩ := List.forall_mem_cons.1 hread
    exact .file (opens.congr hdir hfirst) (ih hrest)
  | nil => exact .nil
  | plain names rest ih => exact .plain names (ih hread)
  | named names inside rest ihInside ihRest =>
    obtain ⟨hinside, hrest⟩ := List.forall_mem_append.1 hread
    exact .named names (ihInside hinside) (ihRest hrest)

theorem Inlines.readable (h : Inlines files reading piece items sources) :
    ∀ p ∈ sources, ∃ text, files.read p = .ok text := by
  induction h with
  | file opens inside ih =>
    obtain ⟨f, hfind, -⟩ := opens.exists_file
    exact List.forall_mem_cons.2 ⟨⟨f.text, FileStore.read_of_find hfind⟩, ih⟩
  | nil => exact List.forall_mem_nil _
  | plain names rest ih => exact ih
  | named names inside rest ihInside ihRest => exact List.forall_mem_append.2 ⟨ihInside, ihRest⟩

end

/-! ### Files that can be read at a time -/

/-- Files of the store that can be read at a time, the innermost first. -/
structure Nested (files : FileStore) (reading : List Location) : Prop where
  nodup : reading.Nodup
  files : ∀ l ∈ reading, ∃ f, files.node? l = some (.file f)

theorem Nested.nil : Nested files [] := ⟨.nil, nofun⟩

theorem Nested.cons (h : Nested files reading) (hopens : Opens files reading path location records) :
    Nested files (location :: reading) := by
  obtain ⟨f, hfind, -⟩ := hopens.exists_file
  exact ⟨List.nodup_cons.2 ⟨hopens.fresh, h.nodup⟩,
    List.forall_mem_cons.2 ⟨⟨f, (FileStore.find_eq_ok_iff.1 hfind).2⟩, h.files⟩⟩

theorem Nested.length_le (h : Nested files reading) : reading.length ≤ files.nodes.length := by
  have hsub : reading ⊆ files.nodes.map Prod.fst := by
    intro l hl
    obtain ⟨f, hnode⟩ := h.files l hl
    exact List.mem_map.2 ⟨_, FileStore.mem_nodes_of_file hnode, rfl⟩
  simpa using (List.subperm_of_subset h.nodup hsub).length_le

/-- With these files being read, loading to this depth reaches every file that is left. -/
def DeepEnough (files : FileStore) (depth : Nat) (reading : List Location) : Prop :=
  files.nodes.length < depth + reading.length

theorem DeepEnough.exists_succ {depth : Nat} (h : DeepEnough files depth reading)
    (hnested : Nested files reading) :
    ∃ less, depth = less + 1 ∧ ∀ location, DeepEnough files less (location :: reading) := by
  have hle := hnested.length_le
  unfold DeepEnough at h
  refine ⟨depth - 1, by omega, fun location => ?_⟩
  unfold DeepEnough
  rw [List.length_cons]
  omega

/-! ### Files that are reached -/

/-- A file that is to be read, and those that are being read when it is. -/
structure Visit where
  reading : List Location
  path : Path
  scope : Scope

def Visit.root (path : Path) : Visit := ⟨[], path, .root⟩

/-- The file can be opened. -/
def Visit.IsOpen (files : FileStore) (v : Visit) : Prop :=
  ∃ location records, Opens files v.reading v.path location records

/-- The records of one file name another. -/
inductive Names (files : FileStore) (v : Visit) : Visit → Prop
  | of_mem {location : Location} {records : List Record} {record : Record} {path : Path}
      {inner : Scope} (opens : Opens files v.reading v.path location records)
      (mem : record ∈ records) (names : fileOf v.scope v.path.parent? record = some (path, inner)) :
      Names files v ⟨location :: v.reading, path, inner⟩

/-- The file can be inlined. -/
def Visit.Inlined (files : FileStore) (v : Visit) : Prop :=
  ∃ items sources, Inlines files v.reading (.file v.path v.scope) items sources

/-- A file can be inlined when it can be opened and all that it names can. -/
theorem Visit.inlined_iff {v : Visit} :
    v.Inlined files ↔ v.IsOpen files ∧ ∀ w, Names files v w → w.Inlined files := by
  constructor
  · rintro ⟨items, sources, h⟩
    cases h with
    | file opens inside =>
      refine ⟨⟨_, _, opens⟩, fun w hw => ?_⟩
      cases hw with
      | of_mem opens' mem names =>
        obtain ⟨rfl, rfl⟩ := opens.unique opens'
        exact exists_inlines_records_iff.1 ⟨_, _, inside⟩ _ mem _ _ names
  · rintro ⟨⟨location, records, opens⟩, hnamed⟩
    obtain ⟨items, sources, inside⟩ := exists_inlines_records_iff.2
      fun record mem path inner names => hnamed _ (.of_mem opens mem names)
    exact ⟨items, _, .file opens inside⟩

theorem Visit.inlined_of_forall_isOpen {v : Visit} (depth : Nat) (hnested : Nested files v.reading)
    (hdepth : DeepEnough files depth v.reading)
    (hopen : ∀ w, ReflTransGen (Names files) v w → w.IsOpen files) : v.Inlined files := by
  induction depth generalizing v with
  | zero =>
    obtain ⟨less, hless, -⟩ := hdepth.exists_succ hnested
    cases hless
  | succ depth ih =>
    obtain ⟨less, hless, hdeep⟩ := hdepth.exists_succ hnested
    obtain rfl := Nat.succ.inj hless
    refine Visit.inlined_iff.2 ⟨hopen v .refl, fun w hw => ?_⟩
    have hw' := hw
    cases hw with
    | of_mem opens mem names =>
      exact ih (hnested.cons opens) (hdeep _) fun u hu => hopen u (.head hw' hu)

/-- A file can be inlined exactly if every file that is reached from it can be opened. -/
theorem exists_inlines_iff (files : FileStore) (root : Path) :
    (∃ items sources, Inlines files [] (.file root .root) items sources) ↔
      ∀ v, ReflTransGen (Names files) (.root root) v → v.IsOpen files := by
  constructor
  · intro h v hv
    have hinlined : v.Inlined files := by
      induction hv with
      | refl => exact h
      | tail _ hnames ih => exact (Visit.inlined_iff.1 ih).2 _ hnames
    exact (Visit.inlined_iff.1 hinlined).1
  · intro h
    exact Visit.inlined_of_forall_isOpen (files.nodes.length + 1) .nil (Nat.lt_succ_self _) h

/-- The file that a piece is, or the files that its records name. -/
def Piece.Starts (reading : List Location) (v : Visit) : Piece → Prop
  | .file path scope => v = ⟨reading, path, scope⟩
  | .records directory scope records => ∃ record ∈ records, ∃ path inner,
      fileOf scope directory record = some (path, inner) ∧ v = ⟨reading, path, inner⟩

/-- While files are read the same as before, the next one to be read is reached. -/
theorem Inlines.exists_visit {other : FileStore} {piece : Piece}
    (h : Inlines files reading piece items sources) (hdir : other.workDir = files.workDir)
    {before after : List Path} (hsources : sources = before ++ path :: after)
    (hread : ∀ p ∈ before, other.read p = files.read p) :
    ∃ start v, piece.Starts reading start ∧ ReflTransGen (Names other) start v ∧ v.path = path := by
  induction h generalizing before after with
  | @file _ first _ _ _ _ _ opens inside ih =>
    cases before with
    | nil =>
      rw [List.nil_append, List.cons.injEq] at hsources
      exact ⟨_, _, rfl, .refl, hsources.1⟩
    | cons p before =>
      rw [List.cons_append, List.cons.injEq] at hsources
      obtain ⟨rfl, hsources⟩ := hsources
      obtain ⟨hfirst, hrest⟩ := List.forall_mem_cons.1 hread
      obtain ⟨_, v, ⟨record, mem, path, inner, names, rfl⟩, hreach, hv⟩ := ih hsources hrest
      exact ⟨_, v, rfl, .head (.of_mem (opens.congr hdir hfirst) mem names) hreach, hv⟩
  | nil => cases before <;> cases hsources
  | plain names rest ih =>
    obtain ⟨start, v, ⟨record, mem, hstart⟩, hreach, hv⟩ := ih hsources hread
    exact ⟨start, v, ⟨record, List.mem_cons_of_mem _ mem, hstart⟩, hreach, hv⟩
  | named names inside rest ihInside ihRest =>
    rcases List.append_eq_append_iff.1 hsources with ⟨more, rfl, hrest⟩ | ⟨more, hinside, hrest⟩
    · obtain ⟨start, v, ⟨record, mem, hstart⟩, hreach, hv⟩ :=
        ihRest hrest fun p hp => hread p (List.mem_append_right _ hp)
      exact ⟨start, v, ⟨record, List.mem_cons_of_mem _ mem, hstart⟩, hreach, hv⟩
    · cases more with
      | nil =>
        have hlater : _ = [] ++ path :: after := hrest.symm
        obtain ⟨start, v, ⟨record, mem, hstart⟩, hreach, hv⟩ := ihRest hlater (List.forall_mem_nil _)
        exact ⟨start, v, ⟨record, List.mem_cons_of_mem _ mem, hstart⟩, hreach, hv⟩
      | cons p more =>
        rw [List.cons_append, List.cons.injEq] at hrest
        obtain ⟨rfl, rfl⟩ := hrest
        obtain ⟨_, v, rfl, hreach, hv⟩ := ihInside hinside hread
        exact ⟨_, v, ⟨_, List.mem_cons_self, _, _, names, rfl⟩, hreach, hv⟩

/-! ## Registering records -/

/-- The lexicon with what one record says; it names no file. -/
def register (lex : Lexicon) (item : Scope × Record) : Except Error Lexicon :=
  addRecord (fun lex _ _ => .ok lex) item.1 none lex item.2

/-- What a record can define: a lexeme or an affix of a scope, or a template. -/
inductive Definition where
  | lexeme (name : String) (scope : Scope)
  | affix (a : Affix) (scope : Scope)
  | template (name : String)

def definitionOf : Scope × Record → Option Definition
  | (scope, .entry e) => some (.lexeme e.lexeme.name (entryScope e scope))
  | (scope, .affix d) => some (.affix d.affix (affixScope d scope))
  | (_, .template t) => some (.template t.name)
  | _ => none

def Defines (lex : Lexicon) : Definition → Prop
  | .lexeme name scope => (scope, name) ∈ lex.entries.map Prod.fst
  | .affix a scope => (scope, a) ∈ lex.affixes.map Prod.fst
  | .template name => name ∈ lex.templates.map Prod.fst

/-- The lexicon with what one record says, even if that has been defined before. -/
def withItem (lex : Lexicon) : Scope × Record → Lexicon
  | (scope, .entry e) =>
    { lex with entries := lex.entries ++ [((entryScope e scope, e.lexeme.name), e)] }
  | (scope, .affix d) => { lex with affixes := lex.affixes ++ [((affixScope d scope, d.affix), d)] }
  | (_, .template t) => { lex with templates := lex.templates ++ [(t.name, t)] }
  | (_, .lang child parent _) => { lex with parents := (child, parent) :: lex.parents }
  | (_, .includes _) => lex

theorem define_eq_ok_iff {κ α : Type} [BEq κ] [LawfulBEq κ] {definitions added : List (κ × α)}
    {key : κ} {value : α} {item : Definable} :
    define definitions key value item scope = .ok added ↔
      key ∉ definitions.map Prod.fst ∧ added = definitions ++ [(key, value)] := by
  have hkey : (definitions.lookup key).isSome = true ↔ key ∈ definitions.map Prod.fst := by
    rw [List.lookup_isSome_iff]
    simp
  rw [define]
  split
  · next h => simpa using fun habsent => absurd (hkey.1 h) (by simpa using habsent)
  · next h => simp [← hkey, h, eq_comm]

theorem register_eq_ok_iff {item : Scope × Record} : lex.register item = .ok out ↔
    (∀ d, definitionOf item = some d → ¬ lex.Defines d) ∧ out = lex.withItem item := by
  obtain ⟨scope, record⟩ := item
  cases record with
  | entry e =>
    simp only [register, addRecord, addEntry, bind_eq_ok_iff, define_eq_ok_iff]
    simp [definitionOf, Defines, withItem, pure, Except.pure, eq_comm]
  | affix d =>
    simp only [register, addRecord, addAffix, bind_eq_ok_iff, define_eq_ok_iff]
    simp [definitionOf, Defines, withItem, pure, Except.pure, eq_comm]
  | template t =>
    simp only [register, addRecord, addTemplate, bind_eq_ok_iff, define_eq_ok_iff]
    simp [definitionOf, Defines, withItem, pure, Except.pure, eq_comm]
  | lang child parent path =>
    cases path <;> simp [register, addRecord, definitionOf, withItem, eq_comm]
  | includes path => simp [register, addRecord, definitionOf, withItem, eq_comm]

theorem defines_withItem {item : Scope × Record} {d : Definition} :
    (lex.withItem item).Defines d ↔ lex.Defines d ∨ definitionOf item = some d := by
  obtain ⟨scope, record⟩ := item
  cases d <;> cases record <;> simp [Defines, withItem, definitionOf, eq_comm, and_comm]

/-- Records can be registered one after another exactly if nothing is defined twice. -/
theorem foldlM_register_eq_ok_iff : items.foldlM register lex = .ok out ↔
    (items.filterMap definitionOf).Nodup ∧ (∀ d ∈ items.filterMap definitionOf, ¬ lex.Defines d) ∧
      out = items.foldl withItem lex := by
  induction items generalizing lex with
  | nil => simp [pure, Except.pure, eq_comm]
  | cons item items ih =>
    rw [List.foldlM_cons, bind_eq_ok_iff]
    simp only [register_eq_ok_iff, and_assoc, exists_and_left, exists_eq_left, ih, defines_withItem,
      List.foldl_cons]
    cases hd : definitionOf item with
    | none => simp [List.filterMap_cons_none hd]
    | some d =>
      simp only [List.filterMap_cons_some hd, List.nodup_cons, List.forall_mem_cons,
        Option.some.injEq, forall_eq']
      constructor
      · rintro ⟨hnew, hnodup, hrest, rfl⟩
        exact ⟨⟨fun hmem => hrest d hmem (.inr rfl), hnodup⟩,
          ⟨hnew, fun d' hmem hdefines => hrest d' hmem (.inl hdefines)⟩, rfl⟩
      · rintro ⟨⟨hmem, hnodup⟩, ⟨hnew, hrest⟩, rfl⟩
        refine ⟨hnew, hnodup, fun d' hmem' hdefines => ?_, rfl⟩
        rcases hdefines with hdefines | rfl
        · exact hrest d' hmem' hdefines
        · exact hmem hmem'

/-- The entry of a record, under the scope that it is stored under. -/
def entryOf : Scope × Record → Option ((Scope × String) × Entry)
  | (scope, .entry e) => some ((entryScope e scope, e.lexeme.name), e)
  | _ => none

/-- Entries are registered in the order of the records. -/
theorem entries_foldl_withItem :
    (items.foldl withItem lex).entries = lex.entries ++ items.filterMap entryOf := by
  induction items generalizing lex with
  | nil => simp
  | cons item items ih =>
    obtain ⟨scope, record⟩ := item
    rw [List.foldl_cons, ih]
    cases record <;> simp [withItem, entryOf, List.filterMap_cons]

/-- What is defined is an entry under this key. -/
def Definition.entryKey? : Definition → Option (Scope × String)
  | .lexeme name scope => some (scope, name)
  | _ => none

/-- No two entries are registered under one name in one scope. -/
theorem nodup_entryKeys (h : (items.filterMap definitionOf).Nodup) :
    ((items.filterMap entryOf).map Prod.fst).Nodup := by
  have hkeys : (items.filterMap entryOf).map Prod.fst =
      (items.filterMap definitionOf).filterMap Definition.entryKey? := by
    rw [List.map_filterMap, List.filterMap_filterMap]
    congr 1
    funext ⟨scope, record⟩
    cases record <;> rfl
  rw [hkeys]
  refine List.Nodup.filterMap (fun d d' key hkey hkey' => ?_) h
  cases d <;> cases d' <;> grind [Definition.entryKey?]

/-! ## Loading is registering -/

/-- The lexicon when more files have been read. -/
def afterReading (lex : Lexicon) (paths : List Path) : Lexicon :=
  { lex with sources := lex.sources ++ paths }

theorem afterReading_nil : lex.afterReading [] = lex := by
  simp [afterReading]

theorem afterReading_append {paths paths' : List Path} :
    (lex.afterReading paths).afterReading paths' = lex.afterReading (paths ++ paths') := by
  simp [afterReading]

theorem map_afterReading {outcome : Except Error Lexicon} {paths paths' : List Path} :
    (outcome.map (·.afterReading paths)).map (·.afterReading paths') =
      outcome.map (·.afterReading (paths ++ paths')) := by
  cases outcome with
  | error e => rfl
  | ok lex => exact congrArg Except.ok afterReading_append

/-- Records are registered whatever files have been read. -/
theorem register_afterReading {item : Scope × Record} {paths : List Path} :
    (lex.afterReading paths).register item = (lex.register item).map (·.afterReading paths) := by
  obtain ⟨scope, record⟩ := item
  cases record with
  | entry e =>
    simp only [register, addRecord, addEntry, afterReading]
    cases define lex.entries _ e _ _ <;> rfl
  | affix d =>
    simp only [register, addRecord, addAffix, afterReading]
    cases define lex.affixes _ d _ _ <;> rfl
  | template t =>
    simp only [register, addRecord, addTemplate, afterReading]
    cases define lex.templates _ t _ _ <;> rfl
  | lang child parent path => cases path <;> rfl
  | includes path => rfl

theorem foldlM_register_afterReading {paths : List Path} :
    items.foldlM register (lex.afterReading paths) =
      (items.foldlM register lex).map (·.afterReading paths) := by
  induction items generalizing lex with
  | nil => rfl
  | cons item items ih =>
    rw [List.foldlM_cons, List.foldlM_cons, register_afterReading]
    cases lex.register item with
    | error e => rfl
    | ok lex => exact ih

/-- A record is added by registering what it says and loading the file that it names. -/
theorem addRecord_eq {loadFile : Lexicon → Path → Scope → Except Error Lexicon} :
    addRecord loadFile scope directory lex record = (do
      let lex ← (said scope record).foldlM register lex
      match fileOf scope directory record with
      | none => return lex
      | some (path, inner) => loadFile lex path inner) := by
  cases record with
  | entry e => simp [addRecord, said, fileOf, register]
  | affix d => simp [addRecord, said, fileOf, register]
  | template t => simp [addRecord, said, fileOf, register]
  | lang child parent path => cases path <;> rfl
  | includes path => rfl

/-- Reads a file into a lexicon, and then what it names by `next`. -/
def readInto (files : FileStore)
    (next : List Location → Lexicon → Path → Scope → Except Error Lexicon) (reading : List Location)
    (lex : Lexicon) (path : Path) (scope : Scope) : Except Error Lexicon := do
  let (location, _) ← (files.find path).mapError (.io path)
  if reading.contains location then .error (.cyclicDefinition path.text)
  else
    let text ← (files.read path).mapError (.io path)
    let records ← Record.parseAll (some path) text
    records.foldlM (addRecord (next (location :: reading)) scope path.parent?)
      { lex with sources := lex.sources ++ [path] }

/-- Loading to a depth, with `bottom` in the place of every file that lies deeper. -/
def loadFrom (files : FileStore)
    (bottom : List Location → Lexicon → Path → Scope → Except Error Lexicon) :
    Nat → List Location → Lexicon → Path → Scope → Except Error Lexicon
  | 0 => bottom
  | depth + 1 => readInto files (loadFrom files bottom depth)

theorem loadFile_eq_loadFrom (files : FileStore) (depth : Nat) : loadFile files depth =
    loadFrom files (fun _ _ path _ => .error (.cyclicDefinition path.text)) depth := by
  induction depth with
  | zero => rfl
  | succ depth ih =>
    funext reading lex path scope
    rw [loadFile, ih, loadFrom, readInto]

/-- Adds the records of a piece. -/
def Piece.load (loadFile : Lexicon → Path → Scope → Except Error Lexicon) (lex : Lexicon) :
    Piece → Except Error Lexicon
  | .file path scope => loadFile lex path scope
  | .records directory scope records => records.foldlM (addRecord loadFile scope directory) lex

section

variable {bottom bottom' next : List Location → Lexicon → Path → Scope → Except Error Lexicon}
  {depth : Nat} {piece : Piece}

theorem readInto_eq (hopens : Opens files reading path location records) :
    readInto files next reading lex path scope =
      records.foldlM (addRecord (next (location :: reading)) scope path.parent?)
        (lex.afterReading [path]) := by
  obtain ⟨f, hfind, hparse⟩ := hopens.exists_file
  rw [readInto, hfind, FileStore.read_of_find hfind]
  simp [Except.mapError, bind, Except.bind, hopens.fresh, hparse, afterReading]

/-- A file that cannot be opened is refused, whatever is done with the files that it might name. -/
theorem exists_readInto_eq_error (h : ¬ ∃ location records, Opens files reading path location records) :
    ∃ e, ∀ next lex scope, readInto files next reading lex path scope = .error e := by
  cases hfind : files.find path with
  | error fault => exact ⟨_, fun next lex scope => by rw [readInto, hfind]; rfl⟩
  | ok found =>
    obtain ⟨location, node⟩ := found
    by_cases hfresh : location ∈ reading
    · refine ⟨.cyclicDefinition path.text, fun next lex scope => ?_⟩
      simp [readInto, hfind, hfresh, Except.mapError, bind, Except.bind]
    cases node with
    | directory time =>
      refine ⟨.io path .isDirectory, fun next lex scope => ?_⟩
      simp [readInto, FileStore.read, hfind, hfresh, Except.mapError, bind, Except.bind]
    | file f =>
      cases hparse : Record.parseAll (some path) f.text with
      | ok records => exact absurd ⟨location, records, ⟨f, hfind, hparse⟩, hfresh⟩ h
      | error e =>
        refine ⟨e, fun next lex scope => ?_⟩
        simp [readInto, FileStore.read_of_find hfind, hfind, hfresh, hparse, Except.mapError, bind,
          Except.bind]

/-- What stands in the place of deeper levels makes no difference: there are none. -/
theorem loadFrom_eq (hnested : Nested files reading) (hdepth : DeepEnough files depth reading) :
    loadFrom files bottom depth reading = loadFrom files bottom' depth reading := by
  induction depth generalizing reading with
  | zero =>
    obtain ⟨less, hless, -⟩ := hdepth.exists_succ hnested
    cases hless
  | succ depth ih =>
    obtain ⟨less, hless, hdeep⟩ := hdepth.exists_succ hnested
    obtain rfl := Nat.succ.inj hless
    funext lex path scope
    by_cases hopen : ∃ location records, Opens files reading path location records
    · obtain ⟨location, records, hopens⟩ := hopen
      rw [loadFrom, loadFrom, readInto_eq hopens, readInto_eq hopens,
        ih (hnested.cons hopens) (hdeep location)]
    · obtain ⟨e, herror⟩ := exists_readInto_eq_error hopen
      rw [loadFrom, loadFrom, herror, herror]

/-- What can be inlined is loaded by registering the inlined records. -/
theorem Inlines.load_eq (h : Inlines files reading piece items sources)
    (hnested : Nested files reading) (hdepth : DeepEnough files depth reading) (lex : Lexicon) :
    piece.load (loadFrom files bottom depth reading) lex =
      (items.foldlM register lex).map (·.afterReading sources) := by
  induction h generalizing depth lex with
  | @file _ path _ _ _ _ _ opens inside ih =>
    obtain ⟨less, rfl, hdeep⟩ := hdepth.exists_succ hnested
    have hinside := ih (hnested.cons opens) (hdeep _) (lex.afterReading [path])
    rw [Piece.load] at hinside
    rw [Piece.load, loadFrom, readInto_eq opens, hinside, foldlM_register_afterReading, map_afterReading]
    rfl
  | nil => exact congrArg Except.ok afterReading_nil.symm
  | plain names rest ih =>
    rw [Piece.load, List.foldlM_cons, addRecord_eq, names, List.foldlM_append]
    cases List.foldlM register lex (said _ _) with
    | error e => rfl
    | ok lex => exact ih hnested hdepth lex
  | @named _ _ _ _ _ _ _ items _ sources _ names inside rest ihInside ihRest =>
    rw [Piece.load, List.foldlM_cons, addRecord_eq, names, List.foldlM_append, List.foldlM_append]
    cases List.foldlM register lex (said _ _) with
    | error e => rfl
    | ok lex =>
      have hinside := ihInside hnested hdepth lex
      rw [Piece.load] at hinside
      simp only [bind, Except.bind, hinside]
      cases items.foldlM register lex with
      | error e => rfl
      | ok lex =>
        have hrest := ihRest hnested hdepth (lex.afterReading sources)
        rw [Piece.load] at hrest
        simp only [Except.map, hrest, foldlM_register_afterReading]
        exact map_afterReading

/-- What has been loaded can be inlined. -/
theorem inlined_of_loadFrom {v : Visit} (hnested : Nested files v.reading)
    (hdepth : DeepEnough files depth v.reading)
    (h : loadFrom files bottom depth v.reading lex v.path v.scope = .ok out) : v.Inlined files := by
  induction depth generalizing v lex out with
  | zero =>
    obtain ⟨less, hless, -⟩ := hdepth.exists_succ hnested
    cases hless
  | succ depth ih =>
    obtain ⟨less, hless, hdeep⟩ := hdepth.exists_succ hnested
    obtain rfl := Nat.succ.inj hless
    have hopen : v.IsOpen files := by
      by_contra hclosed
      obtain ⟨e, herror⟩ := exists_readInto_eq_error hclosed
      rw [loadFrom, herror] at h
      cases h
    refine Visit.inlined_iff.2 ⟨hopen, fun w hw => ?_⟩
    cases hw with
    | of_mem opens mem names =>
      rw [loadFrom, readInto_eq opens] at h
      obtain ⟨before, after, hadd⟩ := exists_eq_ok_of_foldlM h mem
      rw [addRecord_eq, names] at hadd
      obtain ⟨said, -, hload⟩ := bind_eq_ok_iff.1 hadd
      exact ih (hnested.cons opens) (hdeep _) hload

end

/-! ## Lexicons of files -/

theorem loadFrom_add (files : FileStore)
    (bottom : List Location → Lexicon → Path → Scope → Except Error Lexicon) (depth more : Nat) :
    loadFrom files bottom (more + depth) = loadFrom files (loadFrom files bottom more) depth := by
  induction depth with
  | zero => rfl
  | succ depth ih => rw [← Nat.add_assoc, loadFrom, ih, loadFrom]

/-- However deep files may nest, they nest no deeper than there are files. -/
theorem loadFrom_eq_load (files : FileStore) (root : Path)
    (bottom : List Location → Lexicon → Path → Scope → Except Error Lexicon) {depth : Nat}
    (hdepth : files.nodes.length < depth) :
    loadFrom files bottom depth [] .empty root .root = load files root := by
  obtain ⟨more, rfl⟩ := Nat.exists_eq_add_of_le' hdepth
  rw [load, loadFile_eq_loadFrom, loadFrom_add]
  exact congrFun₃ (loadFrom_eq .nil (Nat.lt_succ_self _)) _ _ _

/-- A root file that can be inlined is loaded by registering its inlined records. -/
theorem Inlines.load_eq_map {root : Path} (h : Inlines files [] (.file root .root) items sources) :
    load files root = (items.foldlM register .empty).map (·.afterReading sources) := by
  rw [load, loadFile_eq_loadFrom]
  exact h.load_eq .nil (Nat.lt_succ_self _) .empty

theorem exists_inlines_of_load {root : Path} (h : load files root = .ok lex) :
    ∃ items sources, Inlines files [] (.file root .root) items sources := by
  rw [load, loadFile_eq_loadFrom] at h
  exact inlined_of_loadFrom (v := .root root) .nil (Nat.lt_succ_self _) h

/-- A lexicon that is registered from nothing has what the records say. -/
theorem foldlM_register_empty_eq_ok_iff : items.foldlM register .empty = .ok out ↔
    (items.filterMap definitionOf).Nodup ∧ out = items.foldl withItem .empty := by
  have hempty : ∀ d, ¬ empty.Defines d := by
    intro d
    cases d <;> simp [Defines, empty]
  simp [foldlM_register_eq_ok_iff, hempty]

theorem sources_foldl_withItem : (items.foldl withItem lex).sources = lex.sources := by
  induction items generalizing lex with
  | nil => rfl
  | cons item items ih =>
    obtain ⟨scope, record⟩ := item
    rw [List.foldl_cons, ih]
    cases record <;> rfl

theorem Inlines.load_eq_ok_iff {root : Path} (h : Inlines files [] (.file root .root) items sources) :
    load files root = .ok lex ↔ (items.filterMap definitionOf).Nodup ∧
      lex = (items.foldl withItem .empty).afterReading sources := by
  rw [h.load_eq_map]
  constructor
  · intro hload
    cases hfold : items.foldlM register .empty with
    | error e =>
      rw [hfold] at hload
      cases hload
    | ok registered =>
      obtain ⟨hnodup, rfl⟩ := foldlM_register_empty_eq_ok_iff.1 hfold
      rw [hfold] at hload
      cases hload
      exact ⟨hnodup, rfl⟩
  · rintro ⟨hnodup, rfl⟩
    rw [foldlM_register_empty_eq_ok_iff.2 ⟨hnodup, rfl⟩]
    rfl

/-- A lexicon that was loaded registers records that the root file stands for. -/
theorem exists_items_of_load {root : Path} (h : load files root = .ok lex) :
    ∃ items, Inlines files [] (.file root .root) items lex.sources ∧
      (items.filterMap definitionOf).Nodup ∧
      lex = (items.foldl withItem .empty).afterReading lex.sources := by
  obtain ⟨items, sources, hinlines⟩ := exists_inlines_of_load h
  obtain ⟨hnodup, rfl⟩ := hinlines.load_eq_ok_iff.1 h
  have hsources : ((items.foldl withItem .empty).afterReading sources).sources = sources := by
    rw [afterReading, sources_foldl_withItem]
    rfl
  rw [hsources]
  exact ⟨items, hinlines, hnodup, rfl⟩

/-- Loading ends: whatever is put in the place of files that lie deeper than the store has files makes
no difference. It succeeds exactly if every file that is reached can be opened and no two of the inlined
records define the same lexeme or affix of a scope or the same template. The lexicon is what the inlined
records give when they are registered one after another; its sources are the files in the order in which
they are read, and it has the entries of the records, each one once and in their order. -/
theorem load_characterized (files : FileStore) (root : Path) :
    (∀ bottom depth, files.nodes.length < depth →
      loadFrom files bottom depth [] .empty root .root = load files root) ∧
    ((∃ lex, load files root = .ok lex) ↔
      (∀ v, ReflTransGen (Names files) (.root root) v → v.IsOpen files) ∧
        ∀ items sources, Inlines files [] (.file root .root) items sources →
          (items.filterMap definitionOf).Nodup) ∧
    (∀ items sources, Inlines files [] (.file root .root) items sources →
      load files root = (items.foldlM register .empty).map (·.afterReading sources)) ∧
    ∀ lex, load files root = .ok lex →
      ∃ items, Inlines files [] (.file root .root) items lex.sources ∧
        lex.entries = items.filterMap entryOf ∧ (lex.entries.map Prod.fst).Nodup := by
  refine ⟨fun bottom depth => loadFrom_eq_load files root bottom, ⟨?_, ?_⟩,
    fun items sources h => h.load_eq_map, ?_⟩
  · rintro ⟨lex, hload⟩
    refine ⟨(exists_inlines_iff files root).1 (exists_inlines_of_load hload), fun items sources h => ?_⟩
    exact (h.load_eq_ok_iff.1 hload).1
  · rintro ⟨hopen, hnodup⟩
    obtain ⟨items, sources, h⟩ := (exists_inlines_iff files root).2 hopen
    exact ⟨_, h.load_eq_ok_iff.2 ⟨hnodup items sources h, rfl⟩⟩
  · intro lex hload
    obtain ⟨items, hinlines, hnodup, hlex⟩ := exists_items_of_load hload
    have hentries : lex.entries = items.filterMap entryOf := by
      rw [hlex]
      exact entries_foldl_withItem
    refine ⟨items, hinlines, hentries, ?_⟩
    rw [hentries]
    exact nodup_entryKeys hnodup

end Lexicon

end Etymon
