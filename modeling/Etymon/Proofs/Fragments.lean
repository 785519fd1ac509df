import Etymon.Book.Fragment
import Etymon.Text.Split
import Mathlib.Data.List.TakeWhile

/-!
# How fragments stand in a book

A book is read from left to right. Where a fragment is written it is taken as a whole, so that the next
one can only begin behind it; any other character stands for itself.

## Main definitions

* `Fragment.Written`: how a fragment is written.
* `Splits`: a text as its fragments and what stands between them.
* `unescape`: a text without the backslashes before its punctuation.

## Main results

* `Fragment.cut?_eq_some_iff`: what is cut off a text is a fragment that is written there.
* `splits_iff`: the spans of a text are the one way to split it.
* `unescape_escapeMarkdown`: escaping can be undone.
-/

namespace Etymon

open Text

/-! ## One fragment -/

/-- The sentence stands between double brackets, perhaps with blanks around it, and the label of the form
to show stands behind a bar; without a label this is the modern form. -/
inductive Fragment.Written : Fragment → List Char → Prop
  | plain {body : List Char} (hbody : body ≠ []) (hchars : ∀ c ∈ body, c ≠ ']' ∧ c ≠ '|') :
      Written ⟨String.ofList (trim body), .modern⟩ ("[[".toList ++ body ++ "]]".toList)
  | labelled {body : List Char} (shown : Shown) (hbody : body ≠ [])
      (hchars : ∀ c ∈ body, c ≠ ']' ∧ c ≠ '|') :
      Written ⟨String.ofList (trim body), shown⟩
        ("[[".toList ++ body ++ "|".toList ++ shown.label.toList ++ "]]".toList)

section

variable {start cs rest body close : List Char} {shown : Shown}

theorem behind?_eq_some_iff : behind? start cs = some rest ↔ cs = start ++ rest := by
  rw [behind?]
  constructor
  · intro h
    split at h
    · next hprefix =>
      obtain ⟨rest', rfl⟩ := List.isPrefixOf_iff_prefix.1 hprefix
      simpa using h
    · cases h
  · rintro rfl
    simp

/-- What ends a fragment tells itself apart from what else could. -/
theorem closing?_append (h : (shown, close) ∈ Shown.closings) (rest : List Char) :
    closing? (close ++ rest) = some (shown, rest) := by
  simp only [Shown.closings, List.map_cons, List.map_nil, List.mem_cons, Prod.mk.injEq,
    List.not_mem_nil, or_false] at h
  rcases h with ⟨rfl, rfl⟩ | ⟨rfl, rfl⟩ | ⟨rfl, rfl⟩ | ⟨rfl, rfl⟩ <;> rfl

theorem closing?_eq_some_iff : closing? cs = some (shown, rest) ↔
    ∃ close, (shown, close) ∈ Shown.closings ∧ cs = close ++ rest := by
  constructor
  · intro h
    obtain ⟨⟨shown', close⟩, hmem, hbehind⟩ := List.exists_of_findSome?_eq_some h
    obtain ⟨rest', hrest, heq⟩ := Option.map_eq_some_iff.1 hbehind
    cases heq
    exact ⟨close, hmem, behind?_eq_some_iff.1 hrest⟩
  · rintro ⟨close, hmem, rfl⟩
    exact closing?_append hmem rest

theorem head?_closing_append (h : (shown, close) ∈ Shown.closings) (rest : List Char) :
    ∀ c ∈ (close ++ rest).head?, isSentenceChar c = false := by
  simp only [Shown.closings, List.map_cons, List.map_nil, List.mem_cons, Prod.mk.injEq,
    List.not_mem_nil, or_false] at h
  rcases h with ⟨rfl, rfl⟩ | ⟨rfl, rfl⟩ | ⟨rfl, rfl⟩ | ⟨rfl, rfl⟩ <;> simp [isSentenceChar]

namespace Fragment

variable {f : Fragment} {written : List Char}

theorem written_iff : f.Written written ↔ ∃ body close, body ≠ [] ∧
    (∀ c ∈ body, isSentenceChar c = true) ∧ (f.shown, close) ∈ Shown.closings ∧
    f.sentence = String.ofList (trim body) ∧ written = ['[', '['] ++ (body ++ close) := by
  constructor
  · rintro (⟨hbody, hchars⟩ | ⟨shown, hbody, hchars⟩)
    · exact ⟨_, [']', ']'], hbody, by simpa [isSentenceChar] using hchars, by simp [Shown.closings],
        rfl, by simp⟩
    · refine ⟨_, '|' :: shown.label.toList ++ [']', ']'], hbody, by simpa [isSentenceChar] using hchars,
        ?_, rfl, by simp⟩
      cases shown <;> simp [Shown.closings]
  · rintro ⟨body, close, hbody, hchars, hclose, hsentence, rfl⟩
    have hchars : ∀ c ∈ body, c ≠ ']' ∧ c ≠ '|' := by simpa [isSentenceChar] using hchars
    obtain ⟨sentence, shown⟩ := f
    dsimp only at hsentence hclose
    subst hsentence
    rw [Shown.closings, List.mem_cons, List.mem_map] at hclose
    rcases hclose with hclose | ⟨shown', -, hclose⟩
    · cases hclose
      simpa using Written.plain hbody hchars
    · cases hclose
      simpa using Written.labelled shown hbody hchars

/-- What is cut off a text is a fragment that is written there. -/
theorem cut?_eq_some_iff :
    cut? cs = some (f, rest) ↔ ∃ written, f.Written written ∧ cs = written ++ rest := by
  simp only [written_iff]
  constructor
  · intro h
    obtain ⟨inside, hinside, hfound⟩ := Option.bind_eq_some_iff.1 h
    rw [behind?_eq_some_iff] at hinside
    subst hinside
    dsimp only at hfound
    split at hfound
    · cases hfound
    · next hbody =>
      obtain ⟨⟨shown, rest'⟩, hclosing, hfragment⟩ := Option.bind_eq_some_iff.1 hfound
      cases hfragment
      obtain ⟨close, hclose, hdrop⟩ := closing?_eq_some_iff.1 hclosing
      refine ⟨_, ⟨inside.takeWhile isSentenceChar, close, by simpa using hbody,
        fun c hc => List.mem_takeWhile_imp hc, hclose, rfl, rfl⟩, ?_⟩
      rw [List.append_assoc, List.append_assoc, ← hdrop, List.takeWhile_append_dropWhile]
  · rintro ⟨written, ⟨body, close, hbody, hchars, hclose, hsentence, rfl⟩, rfl⟩
    have hstop := head?_closing_append hclose rest
    rw [List.append_assoc, List.append_assoc, cut?, behind?_eq_some_iff.2 rfl]
    simp only [Option.bind_eq_bind, Option.bind_some, takeWhile_append_stop hchars hstop,
      dropWhile_append_stop hchars hstop, closing?_append hclose rest]
    rw [if_neg (by simpa using hbody), ← hsentence]
    rfl

theorem Written.length_pos (h : f.Written written) : 0 < written.length := by
  cases h <;> simp

end Fragment

end

/-! ## A whole text -/

section

variable {cs written rest before : List Char} {f : Fragment} {pieces : List (Fragment × List Char)}

/-- A text as what stands before its first fragment, and its fragments, each with what stands behind it
up to the next one. A character stands for itself where no fragment is written. -/
inductive Splits : List Char → List Char → List (Fragment × List Char) → Prop
  | nil : Splits [] [] []
  | char {c : Char} {cs before : List Char} {pieces : List (Fragment × List Char)}
      (hnone : ∀ f written rest, Fragment.Written f written → c :: cs ≠ written ++ rest)
      (h : Splits cs before pieces) : Splits (c :: cs) (c :: before) pieces
  | fragment {f : Fragment} {written rest before : List Char} {pieces : List (Fragment × List Char)}
      (hf : f.Written written) (h : Splits rest before pieces) :
      Splits (written ++ rest) [] ((f, before) :: pieces)

theorem spansFrom_eq (skip : Nat) (cs : List Char) : spansFrom skip cs = spans (cs.drop skip) := by
  induction skip generalizing cs with
  | zero => rw [List.drop_zero, spans]
  | succ skip ih =>
    cases cs with
    | nil => rfl
    | cons c cs => rw [spansFrom, ih, List.drop_succ_cons]

theorem spans_cons {c : Char}
    (hnone : ∀ f written rest, Fragment.Written f written → c :: cs ≠ written ++ rest) :
    spans (c :: cs) = .char c :: spans cs := by
  have hcut : Fragment.cut? (c :: cs) = none := by
    refine Option.eq_none_iff_forall_ne_some.2 fun ⟨f, rest⟩ hcut => ?_
    obtain ⟨written, hf, heq⟩ := Fragment.cut?_eq_some_iff.1 hcut
    exact hnone f written rest hf heq
  rw [spans, spansFrom, hcut]
  rfl

theorem spans_append (hf : f.Written written) (rest : List Char) :
    spans (written ++ rest) = .fragment f :: spans rest := by
  have hcut : Fragment.cut? (written ++ rest) = some (f, rest) :=
    Fragment.cut?_eq_some_iff.2 ⟨written, hf, rfl⟩
  have hpos := hf.length_pos
  cases written with
  | nil => cases hpos
  | cons c written =>
    rw [List.cons_append] at hcut ⊢
    rw [spans, spansFrom, hcut]
    dsimp only
    rw [spansFrom_eq, List.length_append, Nat.add_sub_cancel, List.drop_left]

/-- Spans, with the characters between the fragments taken together. -/
def Span.gather : List Span → List Char × List (Fragment × List Char)
  | [] => ([], [])
  | .char c :: rest => (c :: (Span.gather rest).1, (Span.gather rest).2)
  | .fragment f :: rest => ([], (f, (Span.gather rest).1) :: (Span.gather rest).2)

theorem exists_splits (cs : List Char) : ∃ before pieces, Splits cs before pieces := by
  -- behind a fragment more than one character is gone, so this is not an induction on the text
  induction hlen : cs.length using Nat.strong_induction_on generalizing cs with
  | h n ih =>
    by_cases hfragment : ∃ f written rest, Fragment.Written f written ∧ cs = written ++ rest
    · obtain ⟨f, written, rest, hf, rfl⟩ := hfragment
      have hpos := hf.length_pos
      obtain ⟨before, pieces, h⟩ := ih rest.length (by rw [← hlen, List.length_append]; omega) rest rfl
      exact ⟨_, _, .fragment hf h⟩
    · cases cs with
      | nil => exact ⟨_, _, .nil⟩
      | cons c cs =>
        obtain ⟨before, pieces, h⟩ := ih cs.length (by rw [← hlen, List.length_cons]; omega) cs rfl
        exact ⟨_, _, .char (fun f written rest hf heq => hfragment ⟨f, written, rest, hf, heq⟩) h⟩

theorem Splits.gather_spans (h : Splits cs before pieces) : Span.gather (spans cs) = (before, pieces) := by
  induction h with
  | nil => rfl
  | char hnone _ ih => rw [spans_cons hnone, Span.gather, ih]
  | fragment hf _ ih => rw [spans_append hf, Span.gather, ih]

/-- The spans of a text are the one way to split it. -/
theorem splits_iff : Splits cs before pieces ↔ Span.gather (spans cs) = (before, pieces) := by
  refine ⟨Splits.gather_spans, fun h => ?_⟩
  obtain ⟨before', pieces', hsplits⟩ := exists_splits cs
  cases hsplits.gather_spans.symm.trans h
  exact hsplits

/-- What is shown of a span, if something is shown for each fragment. -/
def Span.shown (textOf : Fragment → List Char) : Span → List Char
  | .char c => [c]
  | .fragment f => textOf f

/-- The characters between the fragments are shown as they are. -/
theorem flatMap_shown (textOf : Fragment → List Char) (found : List Span) :
    found.flatMap (Span.shown textOf) =
      (Span.gather found).1 ++ (Span.gather found).2.flatMap fun piece => textOf piece.1 ++ piece.2 := by
  induction found with
  | nil => rfl
  | cons span found ih => cases span <;> simp [Span.shown, Span.gather, ih]

end

/-! ## Literal text -/

/-- A text without the backslashes that stand before its punctuation. -/
def unescape : List Char → List Char
  | '\\' :: c :: cs => if isPunctuation c then c :: unescape cs else '\\' :: unescape (c :: cs)
  | c :: cs => c :: unescape cs
  | [] => []

theorem unescape_cons {c : Char} (h : c ≠ '\\') (cs : List Char) :
    unescape (c :: cs) = c :: unescape cs := by
  rw [unescape]
  rintro _ _ rfl
  exact absurd rfl h

/-- Escaping can be undone. -/
theorem unescape_escapeMarkdown (cs : List Char) : unescape (escapeMarkdown cs) = cs := by
  induction cs with
  | nil => rfl
  | cons c cs ih =>
    rw [escapeMarkdown, List.flatMap_cons, ← escapeMarkdown]
    split
    · next hpunctuation =>
      rw [List.cons_append, List.cons_append, List.nil_append, unescape, if_pos hpunctuation, ih]
    · next hplain =>
      have hc : c ≠ '\\' := by
        rintro rfl
        exact hplain rfl
      rw [List.cons_append, List.nil_append, unescape_cons hc, ih]

/-- An escaped text does not begin with punctuation other than a backslash. -/
theorem head?_escapeMarkdown (cs : List Char) :
    ∀ c ∈ (escapeMarkdown cs).head?, isPunctuation c = true → c = '\\' := by
  cases cs with
  | nil => simp [escapeMarkdown]
  | cons c cs =>
    rw [escapeMarkdown, List.flatMap_cons]
    split
    · simp
    · next hplain => simpa using fun h => absurd h hplain

end Etymon
