import Etymon.Text.Lines

/-!
# Starter files

What a new project starts with: a small lexicon, four rules, and a book that uses both.

## Main definitions

* `Starter.lexicon`, `Starter.changes`, `Starter.book`: the texts of the files.
-/

namespace Etymon

namespace Starter

open Text

def lexicon : String :=
  ofLines [
    "# Lexicon entries: entry [&template] <name> form (part-of-speech) definition",
    "# Affixes:         affix [!]NAME. form [(<source> ...)] definition   (prefix)",
    "#                  affix [!].NAME form [(<source> ...)] definition   (suffix)",
    "# Templates:       template &name $ $.SUFFIX PREFIX.$",
    "",
    "template &noun $ $.PL",
    "",
    "affix .PL *iki@old-era plural",
    "affix !NEG. *na negation",
    "",
    "entry &noun <stone> *apak (n.) a stone",
    "entry &noun <water> *ume (n.) water",
    "entry <stream> <water> !+ <stone> (n.) a stony stream"]

def changes : String :=
  ofLines [
    "Class vowel \x7ba, e, i, o, u\x7d",
    "",
    "palatalization:",
    "    k => ʃ / _ i",
    "",
    "old-era:",
    "    unchanged",
    "",
    "intervocalic-voicing:",
    "    \x7bp, t, k\x7d => \x7bb, d, g\x7d / @vowel _ @vowel",
    "",
    "Romanizer:",
    "    ʃ => sh"]

def book : String :=
  ofLines [
    "# Grammar",
    "",
    "## Nouns",
    "",
    "A stone is [[<stone>]], pronounced [[<stone>|phonetic]] and descended from",
    "[[<stone>|proto]]. Its plural is [[<stone>.PL]].",
    "",
    "A stony stream is [[<stream>]]."]

end Starter

end Etymon
