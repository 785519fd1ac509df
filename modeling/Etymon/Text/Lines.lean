/-!
# Lines

A line ends with a line feed, alone or after one carriage return; neither belongs to the line. A
last line without an end is a line unless it is empty.

## Main definitions

* `lines`: the lines of a text in order.
* `unlines`: a text that writes each line with its line feed.
* `ofLines`: the same on strings.
-/

namespace Etymon.Text

def lines : List Char → List (List Char)
  | [] => []
  | '\n' :: cs => [] :: lines cs
  | '\r' :: '\n' :: cs => [] :: lines cs
  | c :: cs =>
    match lines cs with
    | [] => [[c]]
    | line :: rest => (c :: line) :: rest

def unlines (ls : List (List Char)) : List Char :=
  ls.flatMap (· ++ ['\n'])

@[simp] theorem lines_nil : lines [] = [] := rfl

/-- A line closed by a line feed is read back as that line, or without a carriage return at its
end. -/
theorem exists_lines_append_newline {l : List Char} (h : '\n' ∉ l) (cs : List Char) :
    ∃ line, lines (l ++ '\n' :: cs) = line :: lines cs ∧ (line = l ∨ l = line ++ ['\r']) := by
  induction l with
  | nil => exact ⟨[], by simp [lines], .inl rfl⟩
  | cons c l ih =>
    obtain ⟨line, hline, hl⟩ := ih fun hmem => h (List.mem_cons_of_mem c hmem)
    by_cases hreturn : c = '\r' ∧ l = []
    · obtain ⟨rfl, rfl⟩ := hreturn
      exact ⟨[], by simp [lines], .inr rfl⟩
    · refine ⟨c :: line, ?_, by simpa using hl⟩
      rw [List.cons_append, lines, hline]
      · exact fun hn => h (by simp [hn])
      · rintro rest rfl heq
        cases l with
        | nil => exact hreturn ⟨rfl, rfl⟩
        | cons d l =>
          cases heq
          exact h (by simp)

/-- A last line without a line feed is a line unless it is empty. -/
theorem lines_of_not_mem {l : List Char} (h : '\n' ∉ l) : lines l = if l = [] then [] else [l] := by
  induction l with
  | nil => rfl
  | cons c l ih =>
    have ih := ih fun hmem => h (List.mem_cons_of_mem c hmem)
    rw [lines, ih]
    · cases l <;> simp
    · exact fun hn => h (by simp [hn])
    · rintro rest - rfl
      exact h (by simp)

def ofLines (ls : List String) : String :=
  String.join (ls.map (· ++ "\n"))

end Etymon.Text
