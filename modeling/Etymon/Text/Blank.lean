/-!
# Blank characters

Blanks are the characters with the Unicode property `White_Space`. Trimming, splitting and every
separator of the lexicon's notation go by them.

## Main definitions

* `isBlank`: whether a character is a blank.
* `trimStart`, `trimEnd`, `trim`: a text without its outer blanks.
* `cutAtBlank`: a text in two, at its first blank.
-/

namespace Etymon.Text

def isBlank (c : Char) : Bool :=
  let n := c.toNat
  (0x9 ≤ n && n ≤ 0xd) || n == 0x20 || n == 0x85 || n == 0xa0 || n == 0x1680 ||
    (0x2000 ≤ n && n ≤ 0x200a) || n == 0x2028 || n == 0x2029 || n == 0x202f || n == 0x205f ||
    n == 0x3000

def trimStart (cs : List Char) : List Char :=
  cs.dropWhile isBlank

def trimEnd (cs : List Char) : List Char :=
  (cs.reverse.dropWhile isBlank).reverse

def trim (cs : List Char) : List Char :=
  trimEnd (trimStart cs)

@[simp] theorem trimStart_nil : trimStart [] = [] := rfl

@[simp] theorem trimEnd_nil : trimEnd [] = [] := rfl

@[simp] theorem trim_nil : trim [] = [] := rfl

theorem trimStart_of_not_isBlank {c : Char} (cs : List Char) (h : isBlank c = false) :
    trimStart (c :: cs) = c :: cs := by
  simp [trimStart, h]

@[simp] theorem trimStart_trimStart (cs : List Char) : trimStart (trimStart cs) = trimStart cs := by
  induction cs with
  | nil => rfl
  | cons c cs ih => cases hc : isBlank c <;> simp_all [trimStart]

theorem trimEnd_of_not_isBlank {c : Char} (cs : List Char) (h : isBlank c = false) :
    trimEnd (cs ++ [c]) = cs ++ [c] := by
  simp [trimEnd, h]

/-- A text that neither starts nor ends with a blank is trimmed already. -/
theorem trim_of_not_isBlank {cs : List Char} (hfirst : ∀ c ∈ cs.head?, isBlank c = false)
    (hlast : ∀ c ∈ cs.getLast?, isBlank c = false) : trim cs = cs := by
  have hstart : trimStart cs = cs := by
    cases cs with
    | nil => rfl
    | cons c cs => exact trimStart_of_not_isBlank cs (hfirst c rfl)
  rw [trim, hstart]
  rcases List.eq_nil_or_concat cs with rfl | ⟨front, c, rfl⟩
  · rfl
  · rw [List.concat_eq_append] at hlast ⊢
    exact trimEnd_of_not_isBlank front (hlast c (by simp))

theorem trim_of_forall {cs : List Char} (h : ∀ c ∈ cs, isBlank c = false) : trim cs = cs :=
  trim_of_not_isBlank (fun _ hc => h _ (List.mem_of_mem_head? hc))
    fun _ hc => h _ (List.mem_of_getLast? hc)

/-- A blank at the end is trimmed away. -/
theorem trim_concat_blank {b : Char} (hb : isBlank b = true) (cs : List Char) :
    trim (cs ++ [b]) = trim cs := by
  rw [trim, trim, trimStart, trimStart, List.dropWhile_append]
  split
  · next h => simp [List.isEmpty_iff.1 h, hb]
  · simp [trimEnd, hb]

/-! ### Blanks at the end -/

theorem trimEnd_cons (c : Char) (cs : List Char) :
    trimEnd (c :: cs) = if trimEnd cs = [] ∧ isBlank c = true then [] else c :: trimEnd cs := by
  simp only [trimEnd, List.reverse_cons, List.dropWhile_append]
  cases hc : isBlank c <;> split <;> simp_all

theorem trimEnd_cons_of_not_isBlank {c : Char} (cs : List Char) (h : isBlank c = false) :
    trimEnd (c :: cs) = c :: trimEnd cs := by
  rw [trimEnd_cons, if_neg (by simp [h])]

theorem trimEnd_append (front cs : List Char) :
    trimEnd (front ++ cs) = if trimEnd cs = [] then trimEnd front else front ++ trimEnd cs := by
  simp only [trimEnd, List.reverse_append, List.dropWhile_append]
  split <;> simp_all

/-- Only blanks are taken off the end. -/
theorem exists_eq_trimEnd_append (cs : List Char) :
    ∃ blanks, cs = trimEnd cs ++ blanks ∧ ∀ c ∈ blanks, isBlank c = true := by
  induction cs with
  | nil => exact ⟨[], rfl, by simp⟩
  | cons c cs ih =>
    obtain ⟨blanks, hcs, hblanks⟩ := ih
    rw [trimEnd_cons]
    split
    · next h => exact ⟨c :: cs, rfl, by grind⟩
    · exact ⟨blanks, by rw [List.cons_append, ← hcs], hblanks⟩

theorem trimEnd_append_blanks {blanks : List Char} (h : ∀ c ∈ blanks, isBlank c = true)
    (cs : List Char) : trimEnd (cs ++ blanks) = trimEnd cs := by
  simp only [trimEnd, List.reverse_append]
  rw [List.dropWhile_append_of_pos (by simpa using h)]

theorem trimStart_blanks_append {blanks : List Char} (h : ∀ c ∈ blanks, isBlank c = true)
    (cs : List Char) : trimStart (blanks ++ cs) = trimStart cs :=
  List.dropWhile_append_of_pos h

@[simp] theorem trimEnd_trimEnd (cs : List Char) : trimEnd (trimEnd cs) = trimEnd cs := by
  obtain ⟨blanks, hcs, hblanks⟩ := exists_eq_trimEnd_append cs
  rw [← trimEnd_append_blanks hblanks, ← hcs]

/-- Both ends are trimmed independently. -/
theorem trimStart_trimEnd (cs : List Char) : trimStart (trimEnd cs) = trim cs := by
  induction cs with
  | nil => rfl
  | cons c cs ih =>
    cases hc : isBlank c with
    | true =>
      have hstart : trim (c :: cs) = trim cs := by simp [trim, trimStart, hc]
      rw [trimEnd_cons, hstart, ← ih]
      split <;> simp_all [trimStart]
    | false =>
      rw [trimEnd_cons_of_not_isBlank cs hc, trim, trimStart_of_not_isBlank _ hc,
        trimStart_of_not_isBlank _ hc, trimEnd_cons_of_not_isBlank cs hc]

theorem trim_trimEnd (cs : List Char) : trim (trimEnd cs) = trim cs := by
  rw [← trimStart_trimEnd, trimEnd_trimEnd, trimStart_trimEnd]

theorem trim_blanks_append {blanks : List Char} (h : ∀ c ∈ blanks, isBlank c = true)
    (cs : List Char) : trim (blanks ++ cs) = trim cs := by
  rw [trim, trimStart_blanks_append h, trim]

section

variable {p : Char → Bool}

/-- A run of characters other than blanks does not reach the blanks at the end. -/
theorem takeWhile_trimEnd (hp : ∀ c, p c = true → isBlank c = false) (cs : List Char) :
    (trimEnd cs).takeWhile p = cs.takeWhile p := by
  induction cs with
  | nil => rfl
  | cons c cs ih =>
    cases hc : p c with
    | true => simp [trimEnd_cons_of_not_isBlank cs (hp c hc), hc, ih]
    | false =>
      rw [trimEnd_cons]
      split <;> simp [hc]

theorem dropWhile_trimEnd (hp : ∀ c, p c = true → isBlank c = false) (cs : List Char) :
    (trimEnd cs).dropWhile p = trimEnd (cs.dropWhile p) := by
  induction cs with
  | nil => rfl
  | cons c cs ih =>
    cases hc : p c with
    | true => simp [trimEnd_cons_of_not_isBlank cs (hp c hc), hc, ih]
    | false =>
      rw [List.dropWhile_cons_of_neg (by simp [hc]), trimEnd_cons]
      split <;> simp [hc]

end

/-! ## Cutting -/

/-- The text before the first blank, and what follows that blank; `none` when there is no blank. -/
def cutAtBlank : List Char → Option (List Char × List Char)
  | [] => none
  | c :: cs =>
    if isBlank c then some ([], cs)
    else (cutAtBlank cs).map fun (head, rest) => (c :: head, rest)

/-- Text without blanks comes before every cut. -/
theorem cutAtBlank_append {front : List Char} (h : ∀ c ∈ front, isBlank c = false) (cs : List Char) :
    cutAtBlank (front ++ cs) = (cutAtBlank cs).map fun (head, rest) => (front ++ head, rest) := by
  induction front with
  | nil => simp
  | cons c front ih =>
    obtain ⟨hc, hfront⟩ := List.forall_mem_cons.1 h
    simp [cutAtBlank, hc, ih hfront, Function.comp_def]

theorem cutAtBlank_of_isBlank {b : Char} (hb : isBlank b = true) (rest : List Char) :
    cutAtBlank (b :: rest) = some ([], rest) := by
  simp [cutAtBlank, hb]

/-- A string without its outer blanks. -/
def trimmed (s : String) : String :=
  String.ofList (trim s.toList)

end Etymon.Text
