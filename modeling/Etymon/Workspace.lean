import Etymon.Failure
import Etymon.Session

/-!
# Workspaces

A workspace is a session together with the files it works on and the reports it has made to the author.

## Main definitions

* `Workspace`: files, session and reports.
* `Workspace.onSession`: an action of the session, which reads the files.
* `Workspace.flush`: saves the caches.
-/

namespace Etymon

/-- Reports are lines, oldest first. -/
structure Workspace (σ : Type) where
  files : FileStore
  session : Session σ
  reports : List String

namespace Workspace

variable {σ : Type}

def onSession {α : Type} (act : FileStore → Action (Session σ) α) : Action (Workspace σ) α := do
  let w ← get
  .part Workspace.session (fun session w => { w with session }) (act w.files)

def report (line : String) (w : Workspace σ) : Workspace σ :=
  { w with reports := w.reports ++ [line] }

def flush : Action (Workspace σ) Unit :=
  .ofFunction fun w =>
    let (outcome, files, session) := w.session.flush w.files
    (outcome, { w with files, session })

end Workspace

end Etymon
