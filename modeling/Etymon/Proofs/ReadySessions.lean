import Etymon.Proofs.CurrentLexicon
import Etymon.Proofs.Histories
import Etymon.Proofs.Settling

/-!
# Sessions that are ready

A session is opened while the engine is not running. Whatever is edited, asked for and saved afterwards,
its lexicon is grounded in what the files have been, and its evolver is at work on a text of the rule
file.

## Main definitions

* `Session.IsReady`: a grounded lexicon, and an evolver that is ready.
* `Session.Desk.ReachedIdle`: what a history leads to that begins with an engine that is not running.

## Main results

* `Evolver.Ready.call`: calls keep an evolver ready, also when they fail.
* `Session.preserves_call_of_evolver`: requests keep what calls keep of the evolver.
* `Session.Desk.ready_of_reachedIdle`: histories keep a session ready.
-/

namespace Etymon

open Etymon.Action

variable {σ : Type} {engine : Engine σ} {laws : String → Law} {running : σ → Option String}
  {texts : Set String} {files : FileStore}

namespace Evolver

variable {rulesPath : Path}

/-- A call leaves an evolver ready, also when it fails, as long as the rule file can be read. -/
theorem Ready.call {text : String} {v : Evolver σ} (hengine : engine.WordWise laws rulesPath running)
    (hdigest : Set.InjOn textDigest texts) (htext : text ∈ texts)
    (hread : files.read rulesPath = .ok text) (hv : v.Ready running texts rulesPath) (trace : Bool)
    (inputs : List Evolvable) :
    ((call engine files trace inputs).result v).2.Ready running texts rulesPath := by
  obtain ⟨w, hrefresh, hw, -⟩ := hv.exists_refresh hengine.reset hdigest htext hread
  obtain ⟨batches, outcome, -, hruns⟩ := exists_runs_call hrefresh trace inputs
  exact (hv.of_settled htext hw (hruns.tuned hengine hread hw.tuned) hruns.settled_eq).1

end Evolver

namespace Session

variable {project : Project} {dir : Location} {s : Session σ}

/-- Requests keep what calls keep of the evolver, whether or not they are answered. The evolver is called
only where the rule file can be read. -/
theorem preserves_call_of_evolver {P : Evolver σ → Prop} (hdigest : Set.InjOn textDigest texts)
    (hholds : files.Holds texts)
    (hcall : ∀ text, files.read project.changesPath = .ok text → ∀ trace inputs v, P v →
      P ((Evolver.call engine files trace inputs).result v).2) (request : Request) :
    Preserves (fun s : Session σ => s.IsGrounded texts files.workDir project ∧ P s.evolver)
      (request.call engine files) := by
  have hloads : ∀ s lex t, s.IsGrounded texts files.workDir project ∧ P s.evolver →
      (currentLexicon files).result s = (.ok lex, t) →
        ∃ text, files.read project.changesPath = .ok text := by
    rintro s lex t ⟨⟨rfl, hgrounded⟩, -⟩ h
    obtain ⟨paths, cache, hload, -⟩ := load_of_currentLexicon hdigest hholds hgrounded h
    obtain ⟨order, base, horder, -⟩ := loadLexicon_eq_ok_iff.1 hload
    obtain ⟨text, hread, -⟩ := RuleOrder.load_eq_ok_iff.1 horder
    exact ⟨text, hread⟩
  refine preserves_call_of ?_ hloads ?_ ?_ request
  · rintro s ⟨hlexicon, hs⟩
    refine ⟨preserves_currentLexicon hdigest hholds project s hlexicon, ?_⟩
    obtain ⟨rfl, hgrounded⟩ := hlexicon
    rcases currentLexicon_cases hdigest hholds hgrounded with
      ⟨lex, paths, cache, -, hresult, -⟩ | ⟨e, e', -, hresult⟩
    · rw [hresult]
      exact hs
    · rw [hresult]
      exact hs
  · rintro ⟨text, hread⟩ inputs s ⟨hlexicon, hs⟩
    have hkept := hcall text hread false inputs s.evolver hs
    rw [(Evolver.snd_result_call engine files inputs s.evolver).1] at hkept
    exact ⟨⟨hlexicon.belongs, hlexicon.grounded⟩, hkept⟩
  · rintro ⟨text, hread⟩ inputs s ⟨hlexicon, hs⟩
    have hkept := hcall text hread true inputs s.evolver hs
    rw [(Evolver.snd_result_call engine files inputs s.evolver).2] at hkept
    exact ⟨⟨hlexicon.belongs, hlexicon.grounded⟩, hkept⟩

/-- The lexicon is grounded in what the files have been, and the evolver is ready. -/
structure IsReady (running : σ → Option String) (texts : Set String) (dir : Location)
    (project : Project) (s : Session σ) : Prop where
  lexicon : s.IsGrounded texts dir project
  evolver : s.evolver.Ready running texts project.changesPath

/-- Every request leaves a session ready, whether or not it is answered. -/
theorem IsReady.call (hengine : engine.WordWise laws project.changesPath running)
    (hdigest : Set.InjOn textDigest texts) (hholds : files.Holds texts)
    (hs : s.IsReady running texts files.workDir project) (request : Request) :
    ((request.call engine files).result s).2.IsReady running texts files.workDir project := by
  obtain ⟨hlexicon, hevolver⟩ := preserves_call_of_evolver
    (P := Evolver.Ready running texts project.changesPath) hdigest hholds
    (fun text hread trace inputs v hv =>
      Evolver.Ready.call hengine hdigest (hholds _ _ hread) hread hv trace inputs)
    request s ⟨hs.lexicon, hs.evolver⟩
  exact ⟨hlexicon, hevolver⟩

/-! ## Histories -/

namespace Desk

variable {d d' : Desk σ}

/-- What a history leads to that begins with opening the project while the engine is not running. -/
inductive ReachedIdle (engine : Engine σ) (running : σ → Option String) (texts : Set String)
    (project : Project) : Desk σ → Prop
  | opened (files : FileStore) (metadata : Metadata) (state : σ) (hholds : files.Holds texts)
      (hidle : running state = none) :
      ReachedIdle engine running texts project ⟨files, .opened files project metadata state⟩
  | step {d d' : Desk σ} (hd : ReachedIdle engine running texts project d)
      (hstep : Step engine texts d d') : ReachedIdle engine running texts project d'

/-- Files have known texts, and the session is ready. -/
structure IsReady (running : σ → Option String) (texts : Set String) (project : Project) (d : Desk σ) :
    Prop where
  holds : d.files.Holds texts
  session : d.session.IsReady running texts d.files.workDir project

theorem IsReady.step (hengine : engine.WordWise laws project.changesPath running)
    (hdigest : Set.InjOn textDigest texts) (hd : d.IsReady running texts project)
    (hstep : Step engine texts d d') : d'.IsReady running texts project := by
  have hupheld := (Upheld.mk hd.holds hd.session.lexicon).step hdigest hstep
  refine ⟨hupheld.holds, hupheld.session, ?_⟩
  cases hstep with
  | edit => exact hd.session.evolver
  | call request => exact (hd.session.call hengine hdigest hd.holds request).evolver
  | flush => exact hd.session.evolver.flush d.files

theorem ready_of_reachedIdle (hengine : engine.WordWise laws project.changesPath running)
    (hdigest : Set.InjOn textDigest texts) (hd : d.ReachedIdle engine running texts project) :
    d.IsReady running texts project := by
  induction hd with
  | opened files metadata state hholds hidle =>
    exact ⟨hholds, ⟨rfl, nofun⟩, Evolver.ready_opened _ _ _ hidle _⟩
  | step _ hstep ih => exact ih.step hengine hdigest hstep

end Desk

end Session

end Etymon
