import Etymon.Json.Reader
import Mathlib.Data.List.Basic
import Mathlib.Order.Lattice

/-!
# Written values are read back

The text of a value is read as that value, unless the value is nested deeper than the reader goes; then
nothing is read.

## Main definitions

* `Json.Plain`: the values whose numbers are 64-bit natural numbers.
* `Json.depth`: how many brackets stand inside one another.

## Main results

* `Json.value?_write`: what is read where a value was written.
* `Json.parse?_write`: what is read from the text of a value.
-/

namespace Etymon.Json

/-- The values whose numbers are natural numbers of 64 bits. -/
inductive Plain : Json → Prop
  | null : Plain .null
  | bool (b : Bool) : Plain (.bool b)
  | int (n : Nat) (h : n < 18446744073709551616) : Plain (.int n)
  | string (s : String) : Plain (.string s)
  | array (items : List Json) (h : ∀ item ∈ items, Plain item) : Plain (.array items)
  | object (members : List (String × Json)) (h : ∀ m ∈ members, Plain m.2) : Plain (.object members)

mutual

/-- How many brackets stand inside one another. -/
def depth : Json → Nat
  | array items => depthOfItems items + 1
  | object members => depthOfMembers members + 1
  | _ => 0

def depthOfItems : List Json → Nat
  | [] => 0
  | item :: items => max (depth item) (depthOfItems items)

def depthOfMembers : List (String × Json) → Nat
  | [] => 0
  | (_, value) :: members => max (depth value) (depthOfMembers members)

end

/-! ## Numbers -/

theorem natOfDigits_eq (ds : List Char) : natOfDigits ds = Nat.ofDigitChars 10 ds 0 := by
  rw [natOfDigits, Nat.ofDigitChars_eq_foldl]
  congr 1
  funext n d
  rw [Nat.mul_comm]
  rfl

theorem natOfDigits_toDigits (n : Nat) : natOfDigits (Nat.toDigits 10 n) = n := by
  rw [natOfDigits_eq, Nat.ofDigitChars_ten_toDigits]

/-- The digits of a positive number do not start with a zero. -/
theorem exists_toDigits_eq_cons {n : Nat} (h : 0 < n) :
    ∃ d ds, Nat.toDigits 10 n = d :: ds ∧ d ≠ '0' := by
  induction n using Nat.strongRecOn with
  | ind n ih =>
    by_cases hlt : n < 10
    · refine ⟨n.digitChar, [], Nat.toDigits_of_lt_base hlt, ?_⟩
      have hall : ∀ m, m < 10 → 0 < m → m.digitChar ≠ '0' := by decide
      exact hall n hlt h
    · obtain ⟨d, ds, hds, hd⟩ := ih (n / 10) (by omega) (by omega)
      exact ⟨d, ds ++ [(n % 10).digitChar], by
        rw [Nat.toDigits_of_base_le (by omega) (by omega), hds]; rfl, hd⟩

/-- What may follow a written value: the end, or what goes on after an item or a member. -/
def Closed : List Char → Prop
  | [] => True
  | c :: _ => c = ',' ∨ c = ']' ∨ c = '}'

theorem digits_append {ds rest : List Char} (hds : ∀ d ∈ ds, d.isDigit = true)
    (hrest : Closed rest) : digits (ds ++ rest) = (ds, rest) := by
  have hstop : rest.takeWhile Char.isDigit = [] ∧ rest.dropWhile Char.isDigit = rest := by
    cases rest with
    | nil => simp
    | cons c cs =>
      have hc : c.isDigit = false := by
        rcases hrest with rfl | rfl | rfl <;> decide
      simp [hc]
  rw [digits, List.takeWhile_append_of_pos hds, List.dropWhile_append_of_pos hds, hstop.1, hstop.2,
    List.append_nil]

theorem unsigned?_toDigits {n : Nat} (h : n < 18446744073709551616) {rest : List Char}
    (hrest : Closed rest) :
    unsigned? false (Nat.toDigits 10 n ++ rest) = some (.int n, rest) := by
  have hdigits : ∀ d ∈ Nat.toDigits 10 n, d.isDigit = true := fun d hd =>
    Nat.isDigit_of_mem_toDigits (by omega) (by omega) hd
  have hfraction : fraction? rest = some ([], rest) := by
    cases rest with
    | nil => rfl
    | cons c cs => rcases hrest with rfl | rfl | rfl <;> rfl
  have hexponent : exponent? rest = some (none, rest) := by
    cases rest with
    | nil => rfl
    | cons c cs => rcases hrest with rfl | rfl | rfl <;> rfl
  rw [unsigned?, digits_append hdigits hrest]
  dsimp only
  split
  · next hnil => exact absurd hnil Nat.toDigits_ne_nil
  · next d ds hzero =>
    rcases Nat.eq_zero_or_pos n with rfl | hpos
    · simp at hzero
    · obtain ⟨d', ds', hcons, hne⟩ := exists_toDigits_eq_cons hpos
      rw [hcons, List.cons.injEq] at hzero
      exact absurd hzero.1 hne
  · simp [hfraction, hexponent, natOfDigits_toDigits, h]

/-! ## Strings -/

theorem hexValue?_digitChar {n : Nat} (h : n < 16) : hexValue? (Nat.digitChar n) = some n := by
  have hall : ∀ m < 16, hexValue? (Nat.digitChar m) = some m := by decide
  exact hall n h

/-- An escaped control character is read back. -/
theorem escapedUnits?_of_lt {c : Char} (h : c.toNat < 0x20) (rest : List Char) :
    escapedUnits? ('0' :: '0' :: Nat.digitChar (c.toNat / 16) :: Nat.digitChar (c.toNat % 16) :: rest) =
      some (c, rest) := by
  have hzero : hexValue? '0' = some 0 := by decide
  have hunit : hexUnit?
      ('0' :: '0' :: Nat.digitChar (c.toNat / 16) :: Nat.digitChar (c.toNat % 16) :: rest) =
      some (c.toNat, rest) := by
    rw [hexUnit?, hzero, hexValue?_digitChar (by omega), hexValue?_digitChar (by omega)]
    have hvalue : ((0 * 16 + 0) * 16 + c.toNat / 16) * 16 + c.toNat % 16 = c.toNat := by omega
    simp only [Option.bind_eq_bind, Option.bind_some, hvalue]
    rfl
  rw [escapedUnits?, hunit]
  simp only [Option.bind_eq_bind, Option.bind_some]
  rw [if_neg (by omega), if_neg (by omega), Char.ofNat_toNat]
  rfl

/-- One escaped character is read back; it uses up one step. -/
theorem stringBody?_escape (c : Char) (fuel : Nat) (rest : List Char) :
    stringBody? (fuel + 1) (escape c ++ rest) =
      (stringBody? fuel rest).map fun found => (c :: found.1, found.2) := by
  have hmap : ∀ c : Char,
      (stringBody? fuel rest >>= fun found => pure (c :: found.1, found.2)) =
        (stringBody? fuel rest).map fun found => (c :: found.1, found.2) := by
    intro c
    cases stringBody? fuel rest <;> rfl
  have hescaped : ∀ name, escaped? (name ++ rest) = some (c, rest) →
      stringBody? (fuel + 1) ('\\' :: name ++ rest) =
        (stringBody? fuel rest).map fun found => (c :: found.1, found.2) := by
    intro name hname
    rw [List.cons_append, stringBody?, hname]
    exact hmap c
  unfold escape
  split
  · next h => exact hescaped ['"'] (by rw [h]; rfl)
  split
  · next h => exact hescaped ['\\'] (by rw [h]; rfl)
  split
  · next h => exact hescaped ['n'] (by rw [h]; rfl)
  split
  · next h => exact hescaped ['t'] (by rw [h]; rfl)
  split
  · next h => exact hescaped ['r'] (by rw [h]; rfl)
  split
  · next h => exact hescaped ['b'] (by rw [← Char.ofNat_toNat c, h]; rfl)
  split
  · next h => exact hescaped ['f'] (by rw [← Char.ofNat_toNat c, h]; rfl)
  split
  · next h => exact hescaped ['u', '0', '0', _, _] (escapedUnits?_of_lt h rest)
  · next hquote hslash _ _ _ _ _ hcontrol =>
    rw [List.singleton_append, stringBody?, if_neg hcontrol]
    · exact hmap c
    · exact hquote
    · exact hslash

theorem stringBody?_flatMap_escape (cs : List Char) {fuel : Nat} (h : cs.length < fuel)
    (rest : List Char) :
    stringBody? fuel (cs.flatMap escape ++ '"' :: rest) = some (cs, rest) := by
  induction cs generalizing fuel with
  | nil =>
    obtain ⟨fuel, rfl⟩ := Nat.exists_eq_add_of_lt h
    simp [stringBody?]
  | cons c cs ih =>
    obtain ⟨fuel, rfl⟩ : ∃ n, fuel = n + 1 := ⟨fuel - 1, by simp at h; omega⟩
    rw [List.flatMap_cons, List.append_assoc, stringBody?_escape, ih (by simp at h; omega)]
    rfl

theorem length_le_length_flatMap_escape (cs : List Char) :
    cs.length ≤ (cs.flatMap escape).length := by
  induction cs with
  | nil => simp
  | cons c cs ih =>
    have hc : 0 < (escape c).length := by
      unfold escape
      repeat' split
      all_goals simp
    rw [List.flatMap_cons, List.length_append, List.length_cons]
    omega

theorem string?_writeString (s : String) (rest : List Char) :
    ∃ cs, (writeString s).toList ++ rest = '"' :: cs ∧ string? cs = some (s, rest) := by
  refine ⟨s.toList.flatMap escape ++ '"' :: rest, by simp [writeString], ?_⟩
  have hlen := length_le_length_flatMap_escape s.toList
  rw [string?, stringBody?_flatMap_escape _ (by simp only [List.length_append]; omega)]
  simp

/-! ## Values -/

theorem skipWhite_cons {c : Char} (h : c ≠ ' ' ∧ c ≠ '\n' ∧ c ≠ '\t' ∧ c ≠ '\r') (cs : List Char) :
    skipWhite (c :: cs) = c :: cs := by
  rw [skipWhite, if_neg]
  rintro (rfl | rfl | rfl | rfl) <;> simp at h

theorem toList_write_int (n : Nat) : (write (.int n)).toList = Nat.toDigits 10 n := by
  rw [write]
  exact Nat.toList_repr

/-- The text of a value begins with the value and not with what closes an array. -/
theorem exists_write_eq_cons {j : Json} (h : Plain j) :
    ∃ c cs, j.write.toList = c :: cs ∧ (∀ rest, skipWhite (c :: rest) = c :: rest) ∧ c ≠ ']' := by
  cases h with
  | null => exact ⟨'n', _, rfl, fun _ => rfl, by decide⟩
  | bool b => cases b <;> exact ⟨_, _, rfl, fun _ => rfl, by decide⟩
  | int n hn =>
    rw [toList_write_int]
    cases hdigits : Nat.toDigits 10 n with
    | nil => exact absurd hdigits Nat.toDigits_ne_nil
    | cons d ds =>
      have hd : d.isDigit = true :=
        Nat.isDigit_of_mem_toDigits (b := 10) (n := n) (by omega) (by omega) (by rw [hdigits]; simp)
      refine ⟨d, ds, rfl, skipWhite_cons ⟨?_, ?_, ?_, ?_⟩, ?_⟩ <;>
        · rintro rfl
          exact absurd hd (by decide)
  | string s => exact ⟨'"', _, by simp [write, writeString]; rfl, fun _ => rfl, by decide⟩
  | array items h => exact ⟨'[', _, by simp [write]; rfl, fun _ => rfl, by decide⟩
  | object members h => exact ⟨'{', _, by simp [write]; rfl, fun _ => rfl, by decide⟩

theorem length_le_length_writeItems (items : List Json) :
    items.length ≤ (writeItems items).toList.length + 1 := by
  induction items with
  | nil => simp
  | cons item items ih =>
    cases items with
    | nil => simp
    | cons next items =>
      rw [writeItems] <;> simp at ih ⊢
      omega

theorem length_le_length_writeMembers (members : List (String × Json)) :
    members.length ≤ (writeMembers members).toList.length + 1 := by
  induction members with
  | nil => simp
  | cons m members ih =>
    cases members with
    | nil => simp
    | cons next members =>
      rw [writeMembers] <;> simp at ih ⊢
      omega

section

variable {value : List Char → Option (Json × List Char)} {d : Nat}

/-- Items are read back if each of them is. -/
theorem items?_writeItems {items : List Json} (hne : items ≠ []) {fuel : Nat}
    (hfuel : items.length ≤ fuel)
    (hitems : ∀ item ∈ items, ∀ rest, Closed rest → value (item.write.toList ++ rest) =
      if item.depth ≤ d then some (item, rest) else none) (rest : List Char) :
    items? value fuel ((writeItems items).toList ++ ']' :: rest) =
      if depthOfItems items ≤ d then some (items, rest) else none := by
  induction items generalizing fuel with
  | nil => exact absurd rfl hne
  | cons item items ih =>
    obtain ⟨fuel, rfl⟩ : ∃ n, fuel = n + 1 := ⟨fuel - 1, by simp at hfuel; omega⟩
    rw [List.forall_mem_cons] at hitems
    rw [depthOfItems]
    cases items with
    | nil =>
      rw [writeItems, items?, hitems.1 _ (by simp [Closed])]
      by_cases hdepth : item.depth ≤ d
      · simp [hdepth, skipWhite, depthOfItems]
      · simp [hdepth, depthOfItems]
    | cons next items =>
      have htext : (writeItems (item :: next :: items)).toList ++ ']' :: rest =
          item.write.toList ++ ',' :: ((writeItems (next :: items)).toList ++ ']' :: rest) := by
        rw [writeItems] <;> simp
      have hrest := ih (by simp) (by simpa using hfuel) hitems.2
      rw [htext, items?, hitems.1 _ (by simp [Closed])]
      by_cases hdepth : item.depth ≤ d
      · simp only [hdepth, if_true, Option.bind_eq_bind, Option.bind_some]
        rw [skipWhite_cons (by decide)]
        simp only
        rw [hrest]
        by_cases hothers : depthOfItems (next :: items) ≤ d
        · simp [hothers, hdepth]
        · simp [hothers]
      · simp [hdepth]

/-- What follows a member in the text of an object. -/
def afterMember (members : List (String × Json)) (rest : List Char) : List Char :=
  match members with
  | [] => '}' :: rest
  | _ :: _ => ',' :: ((writeMembers members).toList ++ '}' :: rest)

theorem closed_afterMember (members : List (String × Json)) (rest : List Char) :
    Closed (afterMember members rest) := by
  cases members <;> simp [afterMember, Closed]

theorem toList_writeMembers_cons (m : String × Json) (members : List (String × Json))
    (rest : List Char) : (writeMembers (m :: members)).toList ++ '}' :: rest =
      (writeString m.1).toList ++ ':' :: (m.2.write.toList ++ afterMember members rest) := by
  cases members with
  | nil =>
    rw [writeMembers]
    simp [afterMember]
  | cons next members => rw [writeMembers] <;> simp [afterMember]

/-- Members are read back if each of their values is. -/
theorem members?_writeMembers {members : List (String × Json)} (hne : members ≠ []) {fuel : Nat}
    (hfuel : members.length ≤ fuel)
    (hmembers : ∀ m ∈ members, ∀ rest, Closed rest → value (m.2.write.toList ++ rest) =
      if m.2.depth ≤ d then some (m.2, rest) else none) (rest : List Char) :
    members? value fuel ((writeMembers members).toList ++ '}' :: rest) =
      if depthOfMembers members ≤ d then some (members, rest) else none := by
  induction members generalizing fuel with
  | nil => exact absurd rfl hne
  | cons m members ih =>
    obtain ⟨key, item⟩ := m
    obtain ⟨fuel, rfl⟩ : ∃ n, fuel = n + 1 := ⟨fuel - 1, by simp at hfuel; omega⟩
    rw [List.forall_mem_cons] at hmembers
    -- the key, the colon and the value, whatever follows
    obtain ⟨cs, hcs, hkey⟩ :=
      string?_writeString key (':' :: (item.write.toList ++ afterMember members rest))
    rw [depthOfMembers, toList_writeMembers_cons, hcs, members?, skipWhite_cons (by decide)]
    simp only
    rw [hkey]
    simp only [Option.bind_eq_bind, Option.bind_some]
    rw [skipWhite_cons (by decide)]
    simp only
    rw [hmembers.1 _ (closed_afterMember members rest)]
    by_cases hdepth : item.depth ≤ d
    · cases members with
      | nil => simp [afterMember, hdepth, skipWhite, depthOfMembers]
      | cons next members =>
        have hrest := ih (by simp) (by simpa using hfuel) hmembers.2
        simp only [afterMember, hdepth, if_true, Option.bind_some]
        rw [skipWhite_cons (by decide)]
        simp only
        rw [hrest]
        by_cases hothers : depthOfMembers (next :: members) ≤ d
        · simp [hothers, hdepth]
        · simp [hothers]
    · simp [hdepth]

end

theorem exists_writeItems_eq_cons {item : Json} (h : Plain item) (items : List Json) :
    ∃ c cs, (writeItems (item :: items)).toList = c :: cs ∧
      (∀ rest, skipWhite (c :: rest) = c :: rest) ∧ c ≠ ']' := by
  obtain ⟨c, cs, hcs, hskip, hc⟩ := exists_write_eq_cons h
  cases items with
  | nil => exact ⟨c, cs, by rw [writeItems, hcs], hskip, hc⟩
  | cons next items =>
    refine ⟨c, cs ++ ',' :: (writeItems (next :: items)).toList, ?_, hskip, hc⟩
    rw [writeItems] <;> simp [hcs]

theorem exists_writeMembers_eq_cons (m : String × Json) (members : List (String × Json)) :
    ∃ cs, (writeMembers (m :: members)).toList = '"' :: cs := by
  cases members with
  | nil => exact ⟨_, by rw [writeMembers]; simp [writeString]; rfl⟩
  | cons next members => exact ⟨_, by rw [writeMembers] <;> simp [writeString]; rfl⟩

theorem value?_toDigits {n : Nat} (h : n < 18446744073709551616) (d : Nat) {rest : List Char}
    (hrest : Closed rest) : value? d (Nat.toDigits 10 n ++ rest) = some (.int n, rest) := by
  obtain ⟨c, cs, hcs, hskip, -⟩ := exists_write_eq_cons (.int n h)
  rw [toList_write_int] at hcs
  have hc : c.isDigit = true :=
    Nat.isDigit_of_mem_toDigits (b := 10) (n := n) (by omega) (by omega) (by rw [hcs]; simp)
  have hscalar : scalar? (c :: (cs ++ rest)) = some (.int n, rest) := by
    have hread := unsigned?_toDigits h hrest
    rw [hcs] at hread
    unfold scalar?
    split
    case h_6 => exact hread
    all_goals
      next heq =>
      obtain ⟨rfl, -⟩ := List.cons.inj heq
      exact absurd hc (by decide)
  rw [hcs, List.cons_append]
  cases d with
  | zero => rw [value?, hskip, hscalar]
  | succ d =>
    rw [value?, hskip]
    split
    · next heq =>
      obtain ⟨rfl, -⟩ := List.cons.inj heq
      exact absurd hc (by decide)
    · next heq =>
      obtain ⟨rfl, -⟩ := List.cons.inj heq
      exact absurd hc (by decide)
    · exact hscalar

/-- An array is read back if each of its items is. -/
theorem value?_writeArray {items : List Json} (hplain : ∀ item ∈ items, Plain item) (d : Nat)
    (hitems : ∀ d, ∀ item ∈ items, ∀ rest, Closed rest → value? d (item.write.toList ++ rest) =
      if item.depth ≤ d then some (item, rest) else none) (rest : List Char) :
    value? d ((write (.array items)).toList ++ rest) =
      if depth (.array items) ≤ d then some (.array items, rest) else none := by
  have htext : (write (.array items)).toList ++ rest =
      '[' :: ((writeItems items).toList ++ ']' :: rest) := by
    simp [write]
  rw [htext, depth]
  cases d with
  | zero => simp [value?, scalar?, unsigned?, digits, skipWhite]
  | succ d =>
    rw [value?, skipWhite_cons (by decide)]
    simp only
    cases items with
    | nil => simp [writeItems, skipWhite, depthOfItems]
    | cons item items =>
      have hlen := length_le_length_writeItems (item :: items)
      have hread : items? (value? d)
          (((writeItems (item :: items)).toList ++ ']' :: rest).length + 1)
          ((writeItems (item :: items)).toList ++ ']' :: rest) =
          if depthOfItems (item :: items) ≤ d then some (item :: items, rest) else none :=
        items?_writeItems (by simp) (by simp only [List.length_append]; omega) (hitems d) rest
      obtain ⟨c, cs, hcs, hskip, hc⟩ := exists_writeItems_eq_cons (hplain item (by simp)) items
      rw [hcs, List.cons_append] at hread ⊢
      rw [hskip]
      split
      · next heq => exact absurd (List.cons.inj heq).1 hc
      · rw [hread]
        by_cases hdepth : depthOfItems (item :: items) ≤ d <;> simp [hdepth]

/-- An object is read back if each of its values is. -/
theorem value?_writeObject {members : List (String × Json)} (d : Nat)
    (hmembers : ∀ d, ∀ m ∈ members, ∀ rest, Closed rest → value? d (m.2.write.toList ++ rest) =
      if m.2.depth ≤ d then some (m.2, rest) else none) (rest : List Char) :
    value? d ((write (.object members)).toList ++ rest) =
      if depth (.object members) ≤ d then some (.object members, rest) else none := by
  have htext : (write (.object members)).toList ++ rest =
      '{' :: ((writeMembers members).toList ++ '}' :: rest) := by
    simp [write]
  rw [htext, depth]
  cases d with
  | zero => simp [value?, scalar?, unsigned?, digits, skipWhite]
  | succ d =>
    rw [value?, skipWhite_cons (by decide)]
    simp only
    cases members with
    | nil => simp [writeMembers, skipWhite, depthOfMembers]
    | cons m members =>
      have hlen := length_le_length_writeMembers (m :: members)
      have hread : members? (value? d)
          (((writeMembers (m :: members)).toList ++ '}' :: rest).length + 1)
          ((writeMembers (m :: members)).toList ++ '}' :: rest) =
          if depthOfMembers (m :: members) ≤ d then some (m :: members, rest) else none :=
        members?_writeMembers (by simp) (by simp only [List.length_append]; omega) (hmembers d) rest
      obtain ⟨cs, hcs⟩ := exists_writeMembers_eq_cons m members
      rw [hcs, List.cons_append] at hread ⊢
      rw [skipWhite_cons (by decide)]
      split
      · next heq => exact absurd (List.cons.inj heq).1 (by decide)
      · rw [hread]
        by_cases hdepth : depthOfMembers (m :: members) ≤ d <;> simp [hdepth]

/-- Where a value was written, that value is read, if its brackets do not nest too deep. -/
theorem value?_write {j : Json} (h : Plain j) (d : Nat) {rest : List Char} (hrest : Closed rest) :
    value? d (j.write.toList ++ rest) = if j.depth ≤ d then some (j, rest) else none := by
  induction h generalizing d rest with
  | null => cases d <;> simp [write, value?, scalar?, skipWhite, depth]
  | bool b => cases b <;> cases d <;> simp [write, value?, scalar?, skipWhite, depth]
  | int n hn => simp [toList_write_int, value?_toDigits hn d hrest, depth]
  | string s =>
    obtain ⟨cs, hcs, hstring⟩ := string?_writeString s rest
    rw [write, hcs]
    cases d <;> simp [value?, scalar?, skipWhite, depth, hstring]
  | array items hitems ih =>
    exact value?_writeArray hitems d (fun d item hitem rest hrest => ih item hitem d hrest) rest
  | object members hmembers ih =>
    exact value?_writeObject d (fun d m hm rest hrest => ih m hm d hrest) rest

/-- The text of a value is read as that value, unless its brackets nest too deep. -/
theorem parse?_write {j : Json} (h : Plain j) :
    parse? j.write = if j.depth ≤ maxDepth then some j else none := by
  have hread : value? maxDepth (j.write.toList ++ []) =
      if j.depth ≤ maxDepth then some (j, []) else none := value?_write h maxDepth trivial
  rw [List.append_nil] at hread
  rw [parse?, hread]
  split <;> simp [skipWhite]

end Etymon.Json
