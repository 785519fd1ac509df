import Etymon.Evolver
import Etymon.Proofs.Action
import Etymon.Proofs.Query

/-!
# Evolving queries one by one

The plain way to evolve a query is to assemble its text, evolving every side that lives at another era
on the spot, and to send the text through the rules of the query's window.

## Main definitions

* `Law`: what becomes of a word between two eras.
* `Query.naive`: a query evolved the plain way.

## Main results

* `Query.exists_naive_of_mem_dependencies`: what a query needs evolves if the query does.
* `assemble_eq_naiveText`: assembling from plain results gives the plain text.
-/

namespace Etymon

/-- The modern and the phonetic form that rules give a word between two eras. -/
abbrev Law := Option Era → Option Era → String → Except Error (String × String)

namespace Query

/-- The text of a query; a side that starts elsewhere is evolved on the spot. -/
def naiveText (law : Law) (syllables : Bool) : Query → Except Error String
  | leaf form _ _ => .ok form
  | node stress head tail start _ => do
    let headText ← naiveText law syllables head
    let headText ← evolveSide start head headText
    let tailText ← naiveText law syllables tail
    let tailText ← evolveSide start tail tailText
    return combine stress headText tailText syllables
where
  /-- What a side gives to a node that starts at `start`. -/
  evolveSide (start : Option Era) (side : Query) (text : String) : Except Error String :=
    if side.start = start then .ok text else (law side.start side.stop text).map Prod.snd

/-- The text of a query, and what the rules of its window make of it. -/
def naive (law : Law) (syllables : Bool) (q : Query) : Except Error Evolved := do
  let text ← q.naiveText law syllables
  let (modern, phonetic) ← law q.start q.stop text
  return ⟨text, modern, phonetic⟩

variable {law : Law} {syllables : Bool}

theorem naive_eq_ok_iff {q : Query} {e : Evolved} : q.naive law syllables = .ok e ↔
    q.naiveText law syllables = .ok e.proto ∧
      law q.start q.stop e.proto = .ok (e.modern, e.phonetic) := by
  rw [naive]
  simp only [bind_eq_ok_iff, pure, Except.pure, Except.ok.injEq]
  constructor
  · rintro ⟨text, htext, ⟨modern, phonetic⟩, hlaw, rfl⟩
    exact ⟨htext, hlaw⟩
  · rintro ⟨htext, hlaw⟩
    exact ⟨e.proto, htext, (e.modern, e.phonetic), hlaw, rfl⟩

/-- A side is taken as it is, or as what it evolves to. -/
theorem evolveSide_eq_ok_iff {start : Option Era} {side : Query} {text : String} :
    (do naiveText.evolveSide law start side (← side.naiveText law syllables)) = .ok text ↔
      if side.start = start then side.naiveText law syllables = .ok text
      else ∃ e, side.naive law syllables = .ok e ∧ e.phonetic = text := by
  rw [bind_eq_ok_iff]
  unfold naiveText.evolveSide
  split
  · simp
  · simp only [naive_eq_ok_iff]
    constructor
    · rintro ⟨word, hword, hlaw⟩
      cases hresult : law side.start side.stop word with
      | error e => simp [hresult, Except.map] at hlaw
      | ok found =>
        simp only [hresult, Except.map, Except.ok.injEq] at hlaw
        exact ⟨⟨word, found.1, found.2⟩, ⟨hword, hresult⟩, hlaw⟩
    · rintro ⟨e, ⟨hword, hlaw⟩, rfl⟩
      exact ⟨e.proto, hword, by rw [hlaw]; rfl⟩

theorem naiveText_node_eq_ok_iff {stress : Stress} {head tail : Query} {start stop : Option Era}
    {text : String} : (node stress head tail start stop).naiveText law syllables = .ok text ↔
      ∃ headText tailText,
        (if head.start = start then head.naiveText law syllables = .ok headText
          else ∃ e, head.naive law syllables = .ok e ∧ e.phonetic = headText) ∧
        (if tail.start = start then tail.naiveText law syllables = .ok tailText
          else ∃ e, tail.naive law syllables = .ok e ∧ e.phonetic = tailText) ∧
        text = combine stress headText tailText syllables := by
  rw [naiveText]
  simp only [← evolveSide_eq_ok_iff, bind_eq_ok_iff, pure, Except.pure, Except.ok.injEq]
  constructor
  · rintro ⟨headWord, hhead, headText, hhead', tailWord, htail, tailText, htail', rfl⟩
    exact ⟨headText, tailText, ⟨headWord, hhead, hhead'⟩, ⟨tailWord, htail, htail'⟩, rfl⟩
  · rintro ⟨headText, tailText, ⟨headWord, hhead, hhead'⟩, ⟨tailWord, htail, htail'⟩, rfl⟩
    exact ⟨headWord, hhead, headText, hhead', tailWord, htail, tailText, htail', rfl⟩

/-- What a query needs evolves if the query's text is there. -/
theorem exists_naive_of_mem_dependencies {q d : Query} {text : String}
    (h : q.naiveText law syllables = .ok text) (hd : d ∈ q.dependencies) :
    ∃ e, d.naive law syllables = .ok e := by
  induction q generalizing text with
  | leaf form start stop => cases hd
  | node stress head tail start stop ihh iht =>
    obtain ⟨headText, tailText, hhead, htail, -⟩ := naiveText_node_eq_ok_iff.1 h
    rcases mem_dependencies_node.1 hd with hd | hd
    · by_cases heq : head.start = start
      · rw [if_pos heq] at hd hhead
        exact ihh hhead hd
      · rw [if_neg heq] at hd hhead
        rw [List.mem_singleton] at hd
        exact hd ▸ hhead.imp fun e he => he.1
    · by_cases heq : tail.start = start
      · rw [if_pos heq] at hd htail
        exact iht htail hd
      · rw [if_neg heq] at hd htail
        rw [List.mem_singleton] at hd
        exact hd ▸ htail.imp fun e he => he.1

end Query

/-- Assembling from plainly evolved dependencies gives the plain text. -/
theorem assemble_eq_naiveText {law : Law} {syllables : Bool} {evolved : Query → Option String}
    {q : Query} {text : String} (h : ∀ d ∈ q.dependencies, ∀ phonetic, evolved d = some phonetic →
      ∃ e, d.naive law syllables = .ok e ∧ e.phonetic = phonetic)
    (htext : assemble evolved syllables q = .ok text) : q.naiveText law syllables = .ok text := by
  induction q generalizing text with
  | leaf form start stop => exact htext
  | node stress head tail start stop ihh iht =>
    rw [assemble_node] at htext
    simp only [bind_eq_ok_iff, pure, Except.pure, Except.ok.injEq] at htext
    obtain ⟨headText, hhead, tailText, htail, rfl⟩ := htext
    simp only [Query.mem_dependencies_node] at h
    have hside : ∀ side sideWord,
        (∀ d ∈ if side.start = start then side.dependencies else [side], ∀ phonetic,
          evolved d = some phonetic → ∃ e, d.naive law syllables = .ok e ∧ e.phonetic = phonetic) →
        ((∀ d ∈ side.dependencies, ∀ phonetic, evolved d = some phonetic →
          ∃ e, d.naive law syllables = .ok e ∧ e.phonetic = phonetic) →
            assemble evolved syllables side = .ok sideWord →
              side.naiveText law syllables = .ok sideWord) →
        sideText evolved syllables start side = .ok sideWord →
        if side.start = start then side.naiveText law syllables = .ok sideWord
          else ∃ e, side.naive law syllables = .ok e ∧ e.phonetic = sideWord := by
      intro side sideWord hdep ih hword
      unfold sideText at hword
      by_cases heq : side.start = start
      · rw [if_pos heq] at hdep hword ⊢
        exact ih hdep hword
      · rw [if_neg heq] at hdep hword ⊢
        rw [assemble.lookup] at hword
        split at hword
        · next phonetic hfound =>
          rw [Except.ok.injEq] at hword
          exact hword ▸ hdep side (by simp) phonetic hfound
        · cases hword
    refine Query.naiveText_node_eq_ok_iff.2 ⟨headText, tailText, ?_, ?_, rfl⟩
    · exact hside head headText (fun d hd => h d (.inl hd)) (fun hd => ihh hd) hhead
    · exact hside tail tailText (fun d hd => h d (.inr hd)) (fun hd => iht hd) htail

end Etymon
