import Etymon.Console
import Etymon.Proofs.OuterBlanks

/-!
# Bare sentences

A line of a dialogue that is a sentence is never taken for a command: before its first blank stands a
star, a bracket, a quote or a brace, and the names of commands have none of these.

## Main definitions

* `Reading.Opens`: a text in which a bag of tags or a stem starts before the first blank.

## Main results

* `Command.parse_of_opens`: such a text is a command to evolve it.
* `Console.bare_sentence_evolved`: a bare sentence does in a dialogue what evolving it does.
-/

namespace Etymon

open Text

namespace Reading

section

variable {s rest : List Char}

/-! ## Where a sentence starts -/

/-- The characters that open a bag of tags or a stem. No name of a command has one. -/
def isOpening (c : Char) : Bool :=
  ['{', '*', '<', '"'].contains c

/-- Up to a character that opens something there is no blank. -/
def Opens (s : List Char) : Prop :=
  ∃ front c back, s = front ++ c :: back ∧ (∀ d ∈ front, isBlank d = false) ∧ isOpening c = true

theorem not_isBlank_of_isOpening {c : Char} (h : isOpening c = true) : isBlank c = false := by
  simp only [isOpening, List.contains_eq_mem, decide_eq_true_eq, List.mem_cons,
    List.not_mem_nil, or_false] at h
  rcases h with rfl | rfl | rfl | rfl <;> decide

theorem exists_opening_of_stem {inner : Reader Word} {build : Frame → Word}
    (h : stem inner s = .ok (build, rest)) : ∃ c back, s = c :: back ∧ isOpening c = true := by
  unfold stem at h
  split at h
  · exact ⟨'*', _, rfl, by decide⟩
  · exact ⟨'<', _, rfl, by decide⟩
  · exact ⟨'"', _, rfl, by decide⟩
  · cases h

theorem not_isBlank_of_mem_renderPrefixes {names : List String}
    (h : ∀ name ∈ names, IsName isIdentChar name) :
    ∀ c ∈ (Frame.renderPrefixes names).toList, isBlank c = false := by
  induction names with
  | nil => simp [Frame.renderPrefixes]
  | cons name outer ih =>
    obtain ⟨hname, houter⟩ := List.forall_mem_cons.1 h
    intro c hc
    rw [toList_renderPrefixes_cons, List.mem_append, List.mem_append, List.mem_singleton] at hc
    rcases hc with hc | hc | rfl
    · exact ih houter c hc
    · exact not_isBlank_of_isIdentChar c (hname.2 c hc)
    · decide

theorem opens_of_part {inner : Reader Word} {w : Word} (h : part inner s = .ok (w, rest)) :
    Opens s := by
  obtain ⟨⟨before, behind⟩, hbefore, h⟩ := bind_eq_ok_iff.1 h
  obtain ⟨⟨build, after⟩, hstem, -⟩ := bind_eq_ok_iff.1 h
  obtain ⟨c, back, rfl, hc⟩ := exists_opening_of_stem hstem
  have hnames := isName_of_prefixesAfter (by simp) hbefore
  exact ⟨_, c, back, takesExactly_prefixNames hbefore, not_isBlank_of_mem_renderPrefixes hnames, hc⟩

theorem opens_of_word {w : Word} (h : word s = .ok (w, rest)) : Opens (trimStart s) := by
  obtain ⟨⟨first, after⟩, hfirst, -⟩ := bind_eq_ok_iff.1 h
  exact opens_of_part hfirst

/-- The first thing in a sentence is a bag of tags or a word. -/
theorem opens_of_sentence {found : Sentence} (h : sentence s = .ok found) : Opens (trimStart s) := by
  obtain ⟨⟨bag, after⟩, htags, h⟩ := bind_eq_ok_iff.1 h
  obtain ⟨found, hwords, h⟩ := bind_eq_ok_iff.1 h
  unfold tags at htags
  split at htags
  · next back hs => exact ⟨[], '{', back, hs, by simp, by decide⟩
  · cases htags
    rw [words, trimStart_trimStart] at hwords
    split at hwords
    · cases hwords
      cases h
    · obtain ⟨⟨w, after⟩, hw, -⟩ := bind_eq_ok_iff.1 hwords
      rw [← trimStart_trimStart s]
      exact opens_of_word hw

end

end Reading

open Reading

/-! ## Sentences as commands -/

theorem not_isOpening_of_named? {word : String} {verb : Verb} (h : Verb.named? word = some verb) :
    ∀ c ∈ word.toList, isOpening c = false := by
  unfold Verb.named? at h
  split at h
  case h_10 => cases h
  all_goals simp [isOpening]

theorem isPrefix_firstWord {front : List Char} (h : ∀ c ∈ front, isBlank c = false) (cs : List Char) :
    front <+: (firstWord (front ++ cs)).1 := by
  rw [firstWord, cutAtBlank_append h]
  cases cutAtBlank cs with
  | none => exact List.prefix_append front cs
  | some cut => exact List.prefix_append front cut.1

/-- What opens a sentence stands in the first word, so this is no name of a command. -/
theorem Command.parse_of_opens {line : String} (h : Opens (trim line.toList)) :
    Command.parse line = ⟨.evolve, trimmed line⟩ := by
  obtain ⟨front, c, back, hline, hfront, hc⟩ := h
  have hword : ∀ d ∈ front ++ [c], isBlank d = false := by
    simpa [or_imp, forall_and] using ⟨hfront, not_isBlank_of_isOpening hc⟩
  have hmem : c ∈ (firstWord (trim line.toList)).1 := by
    rw [hline, List.append_cons]
    exact (isPrefix_firstWord hword back).subset (by simp)
  have hnone : Verb.named? (String.ofList (firstWord (trim line.toList)).1) = none := by
    refine Option.eq_none_iff_forall_ne_some.2 fun verb hverb => ?_
    have hclosed := not_isOpening_of_named? hverb c (by rwa [String.toList_ofList])
    rw [hc] at hclosed
    cases hclosed
  simp only [Command.parse, hnone]
  rfl

theorem Sentence.parse_trimmed {line : String} {sentence : Sentence}
    (h : Sentence.parse line = .ok sentence) : Sentence.parse (trimmed line) = .ok sentence := by
  have hread := sentence_trim (mapError_eq_ok_iff.1 h)
  rw [Sentence.parse, trimmed, String.toList_ofList, hread]
  rfl

theorem Sentence.opens_of_parse {line : String} {sentence : Sentence}
    (h : Sentence.parse line = .ok sentence) : Opens (trim line.toList) := by
  have hopens := opens_of_sentence (sentence_trim (mapError_eq_ok_iff.1 h))
  rwa [← trimStart_trimEnd, trimStart_trimStart, trimStart_trimEnd] at hopens

/-- The argument of a command is trimmed like a bare line. -/
theorem Command.parse_evolve {gap : String} (hgap : gap ≠ "")
    (hblank : ∀ c ∈ gap.toList, isBlank c = true) (line : String) :
    Command.parse ("evolve" ++ gap ++ line) = ⟨.evolve, trimmed line⟩ := by
  have hverb : ∀ c ∈ "evolve".toList, isBlank c = false := by simp [isBlank]
  have htrim : trim ("evolve" ++ gap ++ line).toList =
      trimEnd ("evolve".toList ++ (gap.toList ++ line.toList)) := by
    rw [String.toList_append, String.toList_append, List.append_assoc]
    rfl
  cases hchars : gap.toList with
  | nil => exact absurd (String.toList_eq_nil_iff.1 hchars) hgap
  | cons b blanks =>
    rw [hchars] at hblank htrim
    obtain ⟨hb, hblanks⟩ := List.forall_mem_cons.1 hblank
    have harg : trim (blanks ++ line.toList) = trim line.toList := trim_blanks_append hblanks _
    have hend := trimEnd_cons b (blanks ++ line.toList)
    rw [List.cons_append, trimEnd_append] at htrim
    by_cases hnone : trimEnd (blanks ++ line.toList) = []
    · -- there is no argument
      rw [if_pos ⟨hnone, hb⟩] at hend
      rw [if_pos hend] at htrim
      rw [← trimStart_trimEnd, hnone] at harg
      rw [Command.parse, htrim, trimmed, ← harg]
      rfl
    · rw [if_neg fun h => hnone h.1] at hend
      rw [hend, if_neg (List.cons_ne_nil _ _)] at htrim
      have hcut : firstWord ("evolve".toList ++ b :: trimEnd (blanks ++ line.toList)) =
          ("evolve".toList, trim line.toList) := by
        rw [firstWord, cutAtBlank_append hverb, cutAtBlank_of_isBlank hb]
        simp only [Option.map_some, List.append_nil, trim_trimEnd, harg]
      rw [Command.parse, htrim]
      simp only [hcut]
      rfl

namespace Console

variable {σ : Type} {engine : Engine σ}

/-- What a session evolves depends on the sentence that a text says, not on the text. -/
theorem answer_evolve_of_parse_eq {text text' : String} (h : Sentence.parse text = Sentence.parse text') :
    answer engine .evolve text = answer engine .evolve text' := by
  simp only [answer, Session.evolve, Session.resolve, Session.readSentence, h]

theorem answerLine_of_parse_eq {line line' : String} (hink : trim line.toList ≠ [])
    (hink' : trim line'.toList ≠ []) (h : Command.parse line = Command.parse line')
    (w : Workspace σ) : answerLine engine line w = answerLine engine line' w := by
  simp only [answerLine, List.isEmpty_eq_false_iff.2 hink, List.isEmpty_eq_false_iff.2 hink', h]

/-- A dialogue does not tell lines apart that are answered alike. -/
theorem transcript_replace {line line' : String}
    (h : ∀ w : Workspace σ, answerLine engine line w = answerLine engine line' w)
    (before after : List String) (w : Workspace σ) :
    transcript engine (before ++ line :: after) w = transcript engine (before ++ line' :: after) w := by
  induction before generalizing w with
  | nil => simp only [List.nil_append, transcript, h]
  | cons first before ih => simp only [List.cons_append, transcript, ih]

/-- A line that is a sentence is a command to evolve it, and the blanks around it are no part of the
sentence. Written out as such a command, alone or in the midst of a dialogue, it does the same. -/
theorem bare_sentence_evolved {line : String} {sentence : Sentence}
    (h : Sentence.parse line = .ok sentence) :
    Command.parse line = ⟨.evolve, trimmed line⟩ ∧
      Sentence.parse (trimmed line) = .ok sentence ∧
      ∀ (σ : Type) (engine : Engine σ) (w : Workspace σ),
        perform engine (.parse line) w = replyWith (answer engine .evolve line) w ∧
        ∀ gap : String, gap ≠ "" → (∀ c ∈ gap.toList, isBlank c = true) →
          once engine ("evolve" ++ gap ++ line) w = once engine line w ∧
          ∀ before after : List String,
            transcript engine (before ++ ("evolve" ++ gap ++ line) :: after) w =
              transcript engine (before ++ line :: after) w := by
  have hopens := Sentence.opens_of_parse h
  have hbare := Command.parse_of_opens hopens
  have hsaid := Sentence.parse_trimmed h
  have hink : trim line.toList ≠ [] := by
    obtain ⟨front, c, back, hline, -⟩ := hopens
    simp [hline]
  refine ⟨hbare, hsaid, fun σ engine w => ⟨?_, fun gap hgap hblank => ?_⟩⟩
  · have hne : (trimmed line).isEmpty = false := by
      rw [← Bool.not_eq_true, String.isEmpty_iff]
      exact fun hempty => hink (String.ofList_eq_empty_iff.1 hempty)
    rw [hbare, ← answer_evolve_of_parse_eq (hsaid.trans h.symm)]
    simp only [perform, hne]
    rfl
  · have hcommand : Command.parse ("evolve" ++ gap ++ line) = Command.parse line :=
      (Command.parse_evolve hgap hblank line).trans hbare.symm
    have hink' : trim ("evolve" ++ gap ++ line).toList ≠ [] := by
      obtain ⟨more, hmore⟩ : ∃ more, ("evolve" ++ gap ++ line).toList = 'e' :: more :=
        ⟨_, by simp only [String.toList_append, List.append_assoc]; rfl⟩
      rw [hmore, trim, trimStart_of_not_isBlank _ (by decide), trimEnd_cons_of_not_isBlank _ (by decide)]
      exact List.cons_ne_nil _ _
    refine ⟨by simp only [once, hcommand], fun before after => ?_⟩
    exact transcript_replace (answerLine_of_parse_eq hink' hink hcommand) before after w

/-- The name of a command is a prefix and an era here, behind a tab. -/
theorem bare_sentence_evolved_quit :
    ∃ sentence, Sentence.parse "\tquit.<stone>.PL +! *tu@help " = .ok sentence ∧
      sentence.words.map Word.render = ["quit.<stone>.PL +! *tu@help"] ∧
      Command.parse "\tquit.<stone>.PL +! *tu@help " = ⟨.evolve, "quit.<stone>.PL +! *tu@help"⟩ ∧
      ∀ (engine : Engine Unit) (w : Workspace Unit),
        once engine ("evolve" ++ " " ++ "\tquit.<stone>.PL +! *tu@help ") w =
          once engine "\tquit.<stone>.PL +! *tu@help " w := by
  have hread : Sentence.parse "\tquit.<stone>.PL +! *tu@help " = .ok ⟨.empty,
      [.join (.lexeme ⟨["quit"], ["PL"]⟩ ⟨"stone", none⟩) ⟨.tail, none⟩
        (.morpheme .empty ⟨"tu", some ⟨"help"⟩⟩)]⟩ := by rfl
  have htrimmed : trimmed "\tquit.<stone>.PL +! *tu@help " = "quit.<stone>.PL +! *tu@help" := by
    decide
  obtain ⟨hbare, -, hdone⟩ := bare_sentence_evolved hread
  rw [htrimmed] at hbare
  have hblank : ∀ c ∈ " ".toList, isBlank c = true := List.all_eq_true.1 rfl
  exact ⟨_, hread, by decide, hbare, fun engine w =>
    ((hdone Unit engine w).2 " " (by decide) hblank).1⟩

end Console

end Etymon
