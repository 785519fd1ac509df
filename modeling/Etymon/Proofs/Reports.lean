import Etymon.Engine.TraceLine
import Etymon.Text.Alphanumeric
import Etymon.Text.Split
import Mathlib.Data.List.Basic

/-!
# Reports of the engine

A report is a sequence of lines: headers, applications, and lines that say nothing. It is read back as
the applications that changed a word into something, each with the word it is about.

## Main definitions

* `ReportLine`: what a line of a report says; `ReportLine.render` is its text.
* `wordAbove`: the word of the nearest header above a line.
* `reportedChanges`: the applications of a report that count, with their words.

## Main results

* `application?_render`: an application is read back, unless it deletes the whole word.
* `TraceLine.parse_report`: the changes that a report tells, and when they are all there are.
-/

namespace Etymon

open Text

/-! ## Tokens -/

section

variable {cs token rest : List Char}

theorem takeWhile_token (h : ∀ c ∈ token, isBlank c = false) (hrest : ∀ c ∈ rest.head?, isBlank c) :
    (token ++ rest).takeWhile (fun c => !isBlank c) = token :=
  takeWhile_append_stop (fun c hc => by simp [h c hc]) fun c hc => by simp [hrest c hc]

theorem dropWhile_token (h : ∀ c ∈ token, isBlank c = false) (hrest : ∀ c ∈ rest.head?, isBlank c) :
    (token ++ rest).dropWhile (fun c => !isBlank c) = rest :=
  dropWhile_append_stop (fun c hc => by simp [h c hc]) fun c hc => by simp [hrest c hc]

theorem isBlank_of_mem_head? {b : Char} (hb : isBlank b = true) (cs : List Char) :
    ∀ c ∈ (b :: cs).head?, isBlank c := by
  simpa using hb

/-- A line keeps its opening and its last character when it is trimmed. -/
theorem trim_opening {opening : String} {last : Char} (hne : opening.toList ≠ [])
    (hopening : opening.toList.head?.any isBlank = false) (hlast : isBlank last = false)
    (cs : List Char) :
    trim (opening.toList ++ (cs ++ [last])) = opening.toList ++ (cs ++ [last]) := by
  refine trim_of_not_isBlank (fun c hc => ?_) fun c hc => ?_
  · rw [List.head?_append_of_ne_nil _ hne] at hc
    rw [Option.mem_def] at hc
    simpa [hc] using hopening
  · rw [← List.append_assoc, List.getLast?_concat] at hc
    cases hc
    exact hlast

theorem labelled?_append (hne : token ≠ []) (h : ∀ c ∈ token, isBlank c = false)
    (rest : List Char) : labelled? (token ++ ':' :: ' ' :: rest) = some (token, rest) := by
  have hcolon : ∀ c ∈ token ++ [':'], isBlank c = false := by
    simp only [List.forall_mem_append, List.forall_mem_singleton]
    exact ⟨h, by decide⟩
  have hspace := isBlank_of_mem_head? (b := ' ') (by decide) rest
  have htoken : token ++ ':' :: ' ' :: rest = (token ++ [':']) ++ ' ' :: rest := by simp
  obtain ⟨c, label, hlabel⟩ := List.exists_cons_of_ne_nil (List.reverse_ne_nil_iff.2 hne)
  rw [labelled?, htoken, takeWhile_token hcolon hspace, dropWhile_token hcolon hspace,
    List.reverse_append, hlabel]
  change some ((c :: label).reverse, rest) = some (token, rest)
  rw [← hlabel, List.reverse_reverse]

theorem labelled?_eq_none (h : ∀ c ∈ token, isBlank c = false) (hcolon : token.getLast? ≠ some ':')
    (hrest : ∀ c ∈ rest.head?, isBlank c) : labelled? (token ++ rest) = none := by
  rw [labelled?, takeWhile_token h hrest, dropWhile_token h hrest]
  split
  · next hreverse =>
    rw [← List.head?_reverse, hreverse] at hcolon
    exact absurd rfl hcolon
  · rfl

/-! ## Openings and arrows -/

theorem afterOpening?_eq_some_iff {opening : String} :
    afterOpening? opening cs = some rest ↔ cs = opening.toList ++ rest := by
  rw [afterOpening?, List.isPrefixOf?_eq_some_iff_append_eq, eq_comm]

@[simp] theorem afterOpening?_append (opening : String) (rest : List Char) :
    afterOpening? opening (opening.toList ++ rest) = some rest :=
  afterOpening?_eq_some_iff.2 rfl

theorem afterOpening?_eq_none_iff {opening : String} :
    afterOpening? opening cs = none ↔ ¬ opening.toList <+: cs := by
  rw [Option.eq_none_iff_forall_ne_some]
  simp only [ne_eq, afterOpening?_eq_some_iff, not_exists, List.IsPrefix, eq_comm]

/-- The first arrow stands behind all characters that are no blanks. -/
theorem cutAtArrow?_append (h : ∀ c ∈ token, isBlank c = false) (cs : List Char) :
    cutAtArrow? (token ++ cs) = (cutAtArrow? cs).map fun (before, after) => (token ++ before, after) := by
  induction token with
  | nil => simp
  | cons c token ih =>
    have hnone : afterOpening? " -> " (c :: (token ++ cs)) = none := by
      rw [afterOpening?_eq_none_iff]
      rintro ⟨rest, hrest⟩
      have hc := h c List.mem_cons_self
      rw [← (List.cons.inj hrest).1] at hc
      exact absurd hc (by decide)
    rw [List.cons_append, cutAtArrow?, hnone]
    simp only
    rw [ih fun d hd => h d (List.mem_cons_of_mem c hd), Option.map_map]
    rfl

/-- What stands behind the text before a change when the line is trimmed: without a text after it, the
arrow ends the line. -/
def arrowTo (after : List Char) : List Char :=
  ' ' :: '-' :: '>' :: if after = [] then [] else ' ' :: after

theorem cutAtArrow?_arrowTo (h : ∀ c ∈ token, isBlank c = false) (after : List Char) :
    cutAtArrow? (token ++ arrowTo after) = if after = [] then none else some (token, after) := by
  rw [cutAtArrow?_append h]
  by_cases hafter : after = []
  · rw [hafter]
    rfl
  · have hopen : afterOpening? " -> " (' ' :: '-' :: '>' :: ' ' :: after) = some after :=
      afterOpening?_append " -> " after
    rw [arrowTo, if_neg hafter, if_neg hafter, cutAtArrow?, hopen]
    simp

end

/-! ## Applications -/

namespace Application

/-- What an application is written with. A sound change may leave nothing of a word, or make one out
of nothing. -/
structure WellFormed (a : Application) : Prop where
  rule_ne_nil : a.rule ≠ []
  rule : ∀ c ∈ a.rule, c.isAlphanum ∨ c = '-'
  word_ne_nil : ∀ word ∈ a.word, word ≠ []
  word : ∀ word ∈ a.word, ∀ c ∈ word, isBlank c = false
  before : ∀ c ∈ a.before, isBlank c = false
  after : ∀ c ∈ a.after, isBlank c = false

instance (a : Application) : Decidable a.WellFormed :=
  decidable_of_iff (a.rule ≠ [] ∧ a.rule.all (fun c => c.isAlphanum || c == '-') ∧
      (∀ word ∈ a.word, word ≠ []) ∧ (∀ word ∈ a.word, word.any isBlank = false) ∧
      a.before.any isBlank = false ∧ a.after.any isBlank = false) <| by
    simp only [List.all_eq_true, List.any_eq_false, Bool.or_eq_true, beq_iff_eq, Bool.not_eq_true]
    exact ⟨fun ⟨h₁, h₂, h₃, h₄, h₅, h₆⟩ => ⟨h₁, h₂, h₃, h₄, h₅, h₆⟩,
      fun ⟨h₁, h₂, h₃, h₄, h₅, h₆⟩ => ⟨h₁, h₂, h₃, h₄, h₅, h₆⟩⟩

/-- What an application is about, up to the colon. -/
def subject (a : Application) : List Char :=
  a.rule ++ a.word.elim [] fun word => " to ".toList ++ word

/-- `Applied RULE: BEFORE -> AFTER`, or `Applied RULE to WORD: BEFORE -> AFTER`. -/
def render (a : Application) : String :=
  "Applied " ++ String.ofList a.subject ++ ": " ++ String.ofList a.before ++ " -> " ++
    String.ofList a.after

variable {a : Application}

theorem WellFormed.isBlank_rule (h : a.WellFormed) : ∀ c ∈ a.rule, isBlank c = false := by
  intro c hc
  rcases h.rule c hc with hletter | rfl
  · exact isBlank_of_isAlphanumeric (isAlphanumeric_of_isAlphanum hletter)
  · decide

theorem toList_render (a : Application) : a.render.toList = "Applied ".toList ++
    (a.subject ++ ':' :: ' ' :: (a.before ++ ' ' :: '-' :: '>' :: ' ' :: a.after)) := by
  simp [render]

/-- What is left of the line of an application when it is trimmed. -/
theorem trim_render (h : a.WellFormed) : trim a.render.toList =
    "Applied ".toList ++ (a.subject ++ ':' :: ' ' :: (a.before ++ arrowTo a.after)) := by
  have htrim : ∀ last : Char, isBlank last = false → ∀ cs : List Char,
      trim ("Applied ".toList ++ (cs ++ [last])) = "Applied ".toList ++ (cs ++ [last]) :=
    fun last hlast => trim_opening (by decide) (by decide) hlast
  rw [toList_render]
  rcases List.eq_nil_or_concat a.after with hafter | ⟨front, last, hafter⟩
  · have htext := htrim '>' (by decide) (a.subject ++ ':' :: ' ' :: (a.before ++ [' ', '-']))
    rw [← trim_concat_blank (b := ' ') (by decide)] at htext
    simpa only [hafter, arrowTo, if_true, List.append_assoc, List.cons_append, List.nil_append]
      using htext
  · have htext := htrim last (h.after last (by simp [hafter]))
      (a.subject ++ ':' :: ' ' :: (a.before ++ ' ' :: '-' :: '>' :: ' ' :: front))
    have hne : front ++ [last] ≠ [] := by simp
    simpa only [hafter, List.concat_eq_append, arrowTo, if_neg hne, List.append_assoc,
      List.cons_append, List.nil_append] using htext

section

variable {rule word before after rest : List Char} (hrule : ∀ c ∈ rule, isBlank c = false)

include hrule

theorem wordedApplication?_of_worded (hne : rule ≠ []) (hword : word ≠ [])
    (hwordBlank : ∀ c ∈ word, isBlank c = false) (hbefore : ∀ c ∈ before, isBlank c = false) :
    wordedApplication? (rule ++ (" to ".toList ++ (word ++ ':' :: ' ' :: (before ++ arrowTo after)))) =
      if after = [] then none else some ⟨rule, some word, before, after⟩ := by
  have hspace : ∀ c ∈ (" to ".toList ++ (word ++ ':' :: ' ' :: (before ++ arrowTo after))).head?,
      isBlank c := isBlank_of_mem_head? (by decide) _
  simp only [wordedApplication?, takeWhile_token hrule hspace, dropWhile_token hrule hspace,
    afterOpening?_append, List.isEmpty_iff, if_neg hne, bind, Option.bind_some,
    labelled?_append hword hwordBlank, cutAtArrow?_arrowTo hbefore]
  split <;> rfl

theorem plainApplication?_of_worded (hcolon : ':' ∉ rule) :
    plainApplication? (rule ++ (" to ".toList ++ rest)) = none := by
  have hspace : ∀ c ∈ (" to ".toList ++ rest).head?, isBlank c :=
    isBlank_of_mem_head? (by decide) _
  rw [plainApplication?, labelled?_eq_none hrule (fun h => hcolon (List.mem_of_getLast? h)) hspace]
  rfl

theorem plainApplication?_of_plain (hne : rule ≠ []) (hbefore : ∀ c ∈ before, isBlank c = false) :
    plainApplication? (rule ++ ':' :: ' ' :: (before ++ arrowTo after)) =
      if after = [] then none else some ⟨rule, none, before, after⟩ := by
  simp only [plainApplication?, labelled?_append hne hrule, cutAtArrow?_arrowTo hbefore, bind,
    Option.bind_some]
  split <;> rfl

omit hrule in
/-- Only the text before a change can be read as `to`, and what follows it is the arrow, which no colon
closes. -/
theorem labelled?_after_to (hbefore : ∀ c ∈ before, isBlank c = false)
    (h : afterOpening? " to " (' ' :: (before ++ arrowTo after)) = some rest) :
    labelled? rest = none := by
  have hletters : ∀ c ∈ ['t', 'o'], isBlank c = false := by
    rw [List.forall_mem_cons, List.forall_mem_singleton]
    decide
  have hmarks : ∀ c ∈ ['-', '>'], isBlank c = false := by
    rw [List.forall_mem_cons, List.forall_mem_singleton]
    decide
  have hto : before ++ arrowTo after = ['t', 'o'] ++ ' ' :: rest :=
    (List.cons.inj (afterOpening?_eq_some_iff.1 h)).2
  have hspace : ∀ c ∈ (arrowTo after).head?, isBlank c := isBlank_of_mem_head? (by decide) _
  have htail : arrowTo after = ' ' :: rest := by
    rw [← dropWhile_token hbefore hspace, hto]
    exact dropWhile_token hletters (isBlank_of_mem_head? (by decide) rest)
  have harrow : rest = ['-', '>'] ++ if after = [] then [] else ' ' :: after :=
    (List.cons.inj htail).2.symm
  rw [harrow]
  refine labelled?_eq_none hmarks (by decide) ?_
  split
  · simp
  · exact isBlank_of_mem_head? (by decide) _

theorem wordedApplication?_of_plain (hbefore : ∀ c ∈ before, isBlank c = false) :
    wordedApplication? (rule ++ ':' :: ' ' :: (before ++ arrowTo after)) = none := by
  have hcolon : ∀ c ∈ rule ++ [':'], isBlank c = false := by
    simp only [List.forall_mem_append, List.forall_mem_singleton]
    exact ⟨hrule, by decide⟩
  have hspace := isBlank_of_mem_head? (b := ' ') (by decide) (before ++ arrowTo after)
  rw [List.append_cons]
  simp only [wordedApplication?, takeWhile_token hcolon hspace, dropWhile_token hcolon hspace]
  cases hopen : afterOpening? " to " (' ' :: (before ++ arrowTo after)) with
  | none => simp
  | some rest => simp [labelled?_after_to hbefore hopen]

end

/-- A trimmed application is read back, unless nothing stands behind its arrow. -/
theorem application?_trim_render (h : a.WellFormed) :
    application? (trim a.render.toList) = if a.after = [] then none else some a := by
  rw [trim_render h, application?, afterOpening?_append]
  obtain ⟨rule, word, before, after⟩ := a
  cases word with
  | none =>
    have hsubject : (⟨rule, none, before, after⟩ : Application).subject = rule := List.append_nil _
    simp only [hsubject, bind, Option.bind_some, wordedApplication?_of_plain h.isBlank_rule h.before,
      plainApplication?_of_plain h.isBlank_rule h.rule_ne_nil h.before]
    rfl
  | some word =>
    have hsubject : (⟨rule, some word, before, after⟩ : Application).subject =
      rule ++ (" to ".toList ++ word) := rfl
    have hcolon : ':' ∉ rule := fun hmem => absurd (h.rule _ hmem) (by decide)
    simp only [hsubject, List.append_assoc, bind, Option.bind_some]
    rw [wordedApplication?_of_worded h.isBlank_rule h.rule_ne_nil (h.word_ne_nil _ rfl) (h.word _ rfl)
      h.before, plainApplication?_of_worded h.isBlank_rule hcolon]
    split <;> rfl

end Application

/-! ## Reports -/

/-- A line of a report: a header with its word, an application, or a line that says nothing. -/
inductive ReportLine where
  | header (word : List Char)
  | application (a : Application)
  | noise (text : List Char)

namespace ReportLine

def render : ReportLine → String
  | header word => "Tracing " ++ String.ofList word
  | application a => a.render
  | noise text => String.ofList text

/-- What a line is written with. A line that says nothing may hold anything else, blanks included. -/
def WellFormed : ReportLine → Prop
  | header word => word ≠ [] ∧ ∀ c ∈ word, isBlank c = false
  | application a => a.WellFormed
  | noise text => '\n' ∉ text ∧ ¬ "Tracing ".toList <+: trim text ∧ ¬ "Applied ".toList <+: trim text

instance : (line : ReportLine) → Decidable line.WellFormed
  | header word =>
    decidable_of_iff (word ≠ [] ∧ word.any isBlank = false) (by simp [WellFormed, List.any_eq_false])
  | application a => inferInstanceAs (Decidable a.WellFormed)
  | noise text => inferInstanceAs (Decidable ('\n' ∉ text ∧ ¬ "Tracing ".toList <+: trim text ∧
      ¬ "Applied ".toList <+: trim text))

def header? : ReportLine → Option (List Char)
  | header word => some word
  | _ => none

end ReportLine

/-- The word of the nearest header above a line, or the first word when there is none. -/
def wordAbove (firstWord : List Char) (above : List ReportLine) : List Char :=
  (above.filterMap ReportLine.header?).getLast?.getD firstWord

/-- The change that an application tells of, where `current` is the word of the report. -/
def Application.told (current : List Char) (a : Application) : TraceLine :=
  ⟨String.ofList a.rule, String.ofList (a.word.getD current), String.ofList a.before,
    String.ofList a.after⟩

/-- What a line of a report tells: an application that counts, with the word it names, or else the word
of the nearest header above it. -/
def ReportLine.told? (counts : Application → Bool) (firstWord : List Char) (above : List ReportLine) :
    ReportLine → Option TraceLine
  | application a => if counts a then some (a.told (wordAbove firstWord above)) else none
  | _ => none

/-- What the lines of a report tell, in order. -/
def reportedChanges (counts : Application → Bool) (firstWord : List Char) (report : List ReportLine) :
    List TraceLine :=
  report.zipIdx.filterMap fun (line, i) => line.told? counts firstWord (report.take i)

section

variable {current firstWord : List Char} {report above : List ReportLine} {line : ReportLine}

theorem application?_eq_none {cs : List Char} (h : ¬ "Applied ".toList <+: cs) :
    application? cs = none := by
  rw [application?, afterOpening?_eq_none_iff.2 h]
  rfl

/-- What one line adds to the changes told by the lines below it. -/
theorem ofLines_cons_render (h : line.WellFormed) (rest : List (List Char)) :
    TraceLine.ofLines current (trim line.render.toList :: rest) =
      match line with
      | .header word => TraceLine.ofLines word rest
      | .application a =>
        (if a.before ≠ a.after ∧ a.after ≠ [] then [a.told current] else []) ++
          TraceLine.ofLines current rest
      | .noise _ => TraceLine.ofLines current rest := by
  cases line with
  | header word =>
    have htrim : trim ("Tracing ".toList ++ word) = "Tracing ".toList ++ word := by
      rcases List.eq_nil_or_concat word with rfl | ⟨front, last, rfl⟩
      · exact absurd rfl h.1
      · rw [List.concat_eq_append] at h ⊢
        exact trim_opening (by decide) (by decide) (h.2 last (by simp)) front
    simp only [ReportLine.render, String.toList_append, String.toList_ofList, htrim, TraceLine.ofLines,
      afterOpening?_append, trim_of_forall h.2]
  | application a =>
    have hheader : afterOpening? "Tracing " (trim a.render.toList) = none := by
      rw [afterOpening?_eq_none_iff, Application.trim_render h]
      rintro ⟨rest, hrest⟩
      exact absurd (List.cons.inj hrest).1 (by decide)
    simp only [ReportLine.render, TraceLine.ofLines, hheader, Application.application?_trim_render h]
    by_cases hafter : a.after = []
    · simp [hafter]
    · by_cases hsame : a.before = a.after <;>
        simp [hafter, hsame, Application.change?, Application.told, trim_of_forall h.before,
          trim_of_forall h.after]
  | noise text =>
    simp [ReportLine.render, TraceLine.ofLines, afterOpening?_eq_none_iff.2 h.2.1,
      application?_eq_none h.2.2]

theorem wordAbove_concat (line : ReportLine) :
    wordAbove firstWord (above ++ [line]) = line.header?.getD (wordAbove firstWord above) := by
  cases h : line.header? <;> simp [wordAbove, h]

/-- The lines below `above` are read as what they tell, given the lines above each. -/
theorem ofLines_map_render (h : ∀ line ∈ report, line.WellFormed) (firstWord : List Char)
    (above : List ReportLine) :
    TraceLine.ofLines (wordAbove firstWord above) (report.map fun line => trim line.render.toList) =
      (report.zipIdx above.length).filterMap fun (line, i) =>
        line.told? (fun a => a.before ≠ a.after ∧ a.after ≠ []) firstWord ((above ++ report).take i) := by
  induction report generalizing above with
  | nil => rfl
  | cons line report ih =>
    have ih := ih (fun l hl => h l (List.mem_cons_of_mem line hl)) (above ++ [line])
    rw [wordAbove_concat, List.length_append, List.length_singleton, List.append_assoc,
      List.singleton_append] at ih
    rw [List.map_cons, ofLines_cons_render (h line List.mem_cons_self), List.zipIdx_cons,
      List.filterMap_cons]
    simp only [List.take_left]
    cases line with
    | header word => exact ih
    | application a =>
      by_cases hread : a.before ≠ a.after ∧ a.after ≠ [] <;>
        simpa [ReportLine.told?, ReportLine.header?, hread] using ih
    | noise text => exact ih

/-! ## Lines -/

theorem ofLines_cons_congr {line : List Char} {rest rest' : List (List Char)}
    (h : ∀ current, TraceLine.ofLines current rest = TraceLine.ofLines current rest') :
    TraceLine.ofLines current (line :: rest) = TraceLine.ofLines current (line :: rest') := by
  rw [TraceLine.ofLines, TraceLine.ofLines]
  split
  · exact h _
  · rw [h current]

theorem ofLines_singleton_nil : TraceLine.ofLines current [[]] = [] := rfl

theorem ofLines_lines_newline {t cs : List Char} {rest : List (List Char)} (ht : '\n' ∉ t)
    (h : ∀ current, TraceLine.ofLines current ((lines cs).map trim) = TraceLine.ofLines current rest) :
    TraceLine.ofLines current ((lines (t ++ '\n' :: cs)).map trim) =
      TraceLine.ofLines current (trim t :: rest) := by
  obtain ⟨line, hlines, hline⟩ := exists_lines_append_newline ht cs
  have htrim : trim line = trim t := by
    rcases hline with rfl | hreturn
    · rfl
    · rw [hreturn, trim_concat_blank (by decide)]
  rw [hlines, List.map_cons, htrim]
  exact ofLines_cons_congr h

/-- Reading goes line by line; a line feed at the end of the text makes no difference. -/
theorem ofLines_lines_joinWith {texts : List String} (h : ∀ t ∈ texts, '\n' ∉ t.toList)
    (closed : Bool) (current : List Char) :
    TraceLine.ofLines current
        ((lines (joinWith "\n" texts ++ if closed then "\n" else "").toList).map trim) =
      TraceLine.ofLines current (texts.map fun t => trim t.toList) := by
  induction texts generalizing current with
  | nil => cases closed <;> rfl
  | cons t texts ih =>
    have ht := h t List.mem_cons_self
    cases texts with
    | nil =>
      cases closed with
      | false =>
        have htext : (joinWith "\n" [t] ++ if false then "\n" else "").toList = t.toList := by simp
        rw [htext, lines_of_not_mem ht]
        split
        · next hempty => simp [hempty, ofLines_singleton_nil, TraceLine.ofLines]
        · rfl
      | true =>
        have htext : (joinWith "\n" [t] ++ if true then "\n" else "").toList = t.toList ++ ['\n'] := by
          simp
        rw [htext]
        exact ofLines_lines_newline ht fun _ => rfl
    | cons next texts =>
      have htext : (joinWith "\n" (t :: next :: texts) ++ if closed then "\n" else "").toList =
          t.toList ++ '\n' :: (joinWith "\n" (next :: texts) ++ if closed then "\n" else "").toList := by
        simp
      rw [htext]
      exact ofLines_lines_newline ht (ih fun t ht => h t (List.mem_cons_of_mem _ ht))

theorem newline_not_mem_render (h : line.WellFormed) : '\n' ∉ line.render.toList := by
  have hnot : ∀ cs : List Char, (∀ c ∈ cs, isBlank c = false) → '\n' ∉ cs := fun cs hcs hmem =>
    absurd (hcs _ hmem) (by decide)
  cases line with
  | header word => simp [ReportLine.render, hnot word h.2]
  | application a =>
    have hsubject : '\n' ∉ a.subject := by
      cases hword : a.word with
      | none => simp [Application.subject, hword, hnot a.rule h.isBlank_rule]
      | some word =>
        simp [Application.subject, hword, hnot a.rule h.isBlank_rule, hnot word (h.word word hword)]
    simp [ReportLine.render, Application.toList_render, hsubject, hnot a.before h.before,
      hnot a.after h.after]
  | noise text => simpa [ReportLine.render] using h.1

theorem mem_reportedChanges {counts : Application → Bool} {told : TraceLine} :
    told ∈ reportedChanges counts firstWord report ↔ ∃ i a, report[i]? = some (.application a) ∧
      counts a ∧ told = a.told (wordAbove firstWord (report.take i)) := by
  simp only [reportedChanges, List.mem_filterMap, Prod.exists, List.mem_zipIdx_iff_getElem?]
  constructor
  · rintro ⟨line, i, hline, htold⟩
    cases line with
    | header word => cases htold
    | application a =>
      by_cases ha : counts a = true
      · rw [ReportLine.told?, if_pos ha, Option.some.injEq] at htold
        exact ⟨i, a, hline, ha, htold.symm⟩
      · rw [ReportLine.told?, if_neg ha] at htold
        cases htold
    | noise text => cases htold
  · rintro ⟨i, a, hline, ha, rfl⟩
    exact ⟨_, i, hline, if_pos ha⟩

theorem reportedChanges_congr {counts counts' : Application → Bool}
    (h : ∀ a, .application a ∈ report → counts a = counts' a) :
    reportedChanges counts firstWord report = reportedChanges counts' firstWord report := by
  refine List.filterMap_congr fun (line, i) hline => ?_
  have hmem : line ∈ report := List.mem_of_getElem? (List.mem_zipIdx_iff_getElem?.1 hline)
  cases line with
  | header word => rfl
  | application a => simp only [ReportLine.told?, h a hmem]
  | noise text => rfl

end

/-- A report is read as its applications that changed a word and left something of it: in order, with
their texts, and with the word each of them names or else that of the nearest header above. These are
all its changes exactly if no change deleted a whole word. -/
theorem TraceLine.parse_report (firstWord : String) (report : List ReportLine) (closed : Bool)
    (h : ∀ line ∈ report, line.WellFormed) :
    let told := TraceLine.parse
      (joinWith "\n" (report.map ReportLine.render) ++ if closed then "\n" else "").toList firstWord
    told = reportedChanges (fun a => a.before ≠ a.after ∧ a.after ≠ []) firstWord.toList report ∧
      (told = reportedChanges (fun a => a.before ≠ a.after) firstWord.toList report ↔
        ∀ a, .application a ∈ report → a.before ≠ [] → a.after ≠ []) := by
  intro told
  have htold : told =
      reportedChanges (fun a => a.before ≠ a.after ∧ a.after ≠ []) firstWord.toList report := by
    have htexts : ∀ t ∈ report.map ReportLine.render, '\n' ∉ t.toList := by
      simp only [List.forall_mem_map]
      exact fun line hline => newline_not_mem_render (h line hline)
    have hlines := ofLines_map_render h firstWord.toList []
    have hread := ofLines_lines_joinWith htexts closed firstWord.toList
    rw [List.map_map] at hread
    exact hread.trans hlines
  refine ⟨htold, fun hall a ha hbefore hafter => ?_, fun hall => ?_⟩
  · obtain ⟨i, hi⟩ := List.getElem?_of_mem ha
    have hmem : a.told (wordAbove firstWord.toList (report.take i)) ∈ told := by
      rw [hall]
      exact mem_reportedChanges.2 ⟨i, a, hi, by simpa [hafter] using hbefore, rfl⟩
    rw [htold] at hmem
    obtain ⟨i', a', _, hread, hsame⟩ := mem_reportedChanges.1 hmem
    have hafter' : a.after = a'.after := String.ofList_injective (congrArg TraceLine.after hsame)
    simp [← hafter', hafter] at hread
  · rw [htold]
    refine reportedChanges_congr fun a ha => ?_
    have hread := hall a ha
    by_cases hafter : a.after = []
    · have hbefore : a.before = [] := by
        by_contra hbefore
        exact hread hbefore hafter
      simp [hafter, hbefore]
    · simp [hafter]

/-- A word that loses its first sound, and then the one that is left. -/
def apocopeReport : List ReportLine :=
  [.header ['h', 'a'], .application ⟨['h', '-', 'l', 'o', 's', 's'], none, ['h', 'a'], ['a']⟩,
    .application ⟨['a', 'p', 'o', 'c', 'o', 'p', 'e'], none, ['a'], []⟩]

/-- The rule that deletes what is left of the word is not told of. -/
theorem TraceLine.parse_report_apocope :
    (∀ line ∈ apocopeReport, line.WellFormed) ∧
      TraceLine.parse (joinWith "\n" (apocopeReport.map ReportLine.render)).toList "ha" =
        [⟨"h-loss", "ha", "ha", "a"⟩] ∧
      reportedChanges (fun a => a.before ≠ a.after) ['h', 'a'] apocopeReport =
        [⟨"h-loss", "ha", "ha", "a"⟩, ⟨"apocope", "ha", "a", ""⟩] := by
  have hwell : ∀ line ∈ apocopeReport, line.WellFormed := by decide
  have htext : joinWith "\n" (apocopeReport.map ReportLine.render) =
      joinWith "\n" (apocopeReport.map ReportLine.render) ++ if false then "\n" else "" := by
    simp
  refine ⟨hwell, ?_, by decide⟩
  rw [htext, (TraceLine.parse_report "ha" apocopeReport false hwell).1]
  decide

end Etymon
