import Etymon.Book.Markdown
import Etymon.Book.Page

/-!
# Compiling the book

The page of a project, with the markup of a plain book.

## Main definitions

* `Book.compile`: writes the page.
* `Book.refresh`: writes the page unless it is known to be up to date.
* `Book.round`: one look at the book while it is being watched.
-/

namespace Etymon.Book

variable {σ : Type}

def compile (engine : Engine σ) : Action (Workspace σ) Path :=
  compileWith Markdown.toHtml engine

def refresh (engine : Engine σ) : Action (Press σ) Bool :=
  refreshWith Markdown.toHtml engine

/-- One look at the book: what to print, and the failure to report, after which the next look compiles
the page whatever has changed. -/
def round (engine : Engine σ) (p : Press σ) : String × Press σ :=
  match (refresh engine).result p with
  | (.ok true, p) =>
    ("wrote " ++ p.workspace.session.project.pagePath.text ++ "\n", p)
  | (.ok false, p) => ("", p)
  | (.error e, p) =>
    ("", { p with workspace := p.workspace.report ("book build failed: " ++ e.describe), built := none })

end Etymon.Book
