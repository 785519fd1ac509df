import Etymon.Files.Path

/-!
# Projects

A project is a directory: its metadata, its lexicon, its sound changes, its book, and a hidden
directory for the caches.
-/

namespace Etymon

structure Project where
  root : Path
  deriving DecidableEq, Repr

namespace Project

def metadataPath (p : Project) : Path := p.root.child "metadata.toml"

def lexiconPath (p : Project) : Path := p.root.child "lexicon.pycl"

def changesPath (p : Project) : Path := p.root.child "changes.lsc"

def bookPath (p : Project) : Path := p.root.child "book.md"

def pagePath (p : Project) : Path := p.root.child "book.html"

def cacheDir (p : Project) : Path := p.root.child ".conlang"

end Project

end Etymon
