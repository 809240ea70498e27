import BranchIR.Exp.Printer
import BranchIR.Proofs.Text.Decimal
import BranchIR.Proofs.Token.Lexemes

/-!
# The words that are written

Numbers, literals, the names of variables and the words for types are written as words of
their own, and each is read as a single token of the kind that was meant.
-/

namespace BranchIR

open Text (natText intText)

/-! ## Digits -/

theorem isWordChar_of_isDigit {c : Char} (h : c.isDigit = true) : isWordChar c = true := by
  simp [isWordChar, Char.isAlphanum, h]

private theorem isWordChar_of_mem_natText {n : Nat} {c : Char} (h : c ∈ (natText n).toList) :
    isWordChar c = true :=
  isWordChar_of_isDigit (Text.isDigit_of_mem_natText h)

/-- A number is written in digits. -/
private theorem isDigits_natText (n : Nat) : isDigits (natText n).toList = true := by
  have hne := Text.natText_ne_nil n
  simp only [isDigits, Bool.and_eq_true, List.all_eq_true, Bool.not_eq_true',
    List.isEmpty_eq_false_iff]
  exact ⟨hne, fun c hc => Text.isDigit_of_mem_natText hc⟩

/-- The first digit that is written, and the others. -/
private theorem natText_eq_cons (n : Nat) :
    ∃ d ds, (natText n).toList = d :: ds ∧ d.isDigit = true := by
  cases h : (natText n).toList with
  | nil => exact absurd h (Text.natText_ne_nil n)
  | cons d ds => exact ⟨d, ds, rfl, Text.isDigit_of_mem_natText (n := n) (by simp [h])⟩

/-- No character of a word is a sign. -/
theorem dropSign_of_isWordChar {c : Char} {cs : List Char} (h : isWordChar c = true) :
    dropSign (c :: cs) = c :: cs := by
  unfold dropSign
  split
  · next heq =>
    -- the sign is no part of words
    obtain ⟨rfl, -⟩ := List.cons.inj heq
    exact absurd h (by decide)
  · rfl

/-- No digit is the `i` of a width. -/
private theorem ne_i_of_isDigits {cs : List Char} (h : isDigits cs = true) :
    ∀ c ∈ cs, decide (c ≠ 'i') = true := by
  rw [isDigits, Bool.and_eq_true, List.all_eq_true] at h
  intro c hc
  have hdigit := h.2 c hc
  rw [decide_eq_true_eq]
  intro hi
  rw [hi] at hdigit
  exact absurd hdigit (by decide)

/-! ## Numbers and literals -/

section Numbers

variable {word ds : List Char}

/-- Digits without a width are no literal. -/
private theorem not_isIntLiteral_of_isDigits (h : isDigits (dropSign word) = true) :
    isIntLiteral word = false := by
  -- the search for an `i` passes over all digits and finds none
  have hdrop := @List.dropWhile_append_of_pos _ (fun c => decide (c ≠ 'i')) _ []
    (ne_i_of_isDigits h)
  rw [List.append_nil, List.dropWhile_nil] at hdrop
  simp only [isIntLiteral, hdrop]

/-- A bare integer is classified as a number. -/
private theorem classify_number (h : isDigits (dropSign word) = true) :
    classify word = .number := by
  simp [classify, not_isIntLiteral_of_isDigits h, isNumber, h]

/-- An integer with a width is classified as a literal. -/
theorem classify_intLiteral {vs : List Char} (hword : dropSign word = vs ++ 'i' :: ds)
    (hvs : isDigits vs = true) (hds : isDigits ds = true) : classify word = .intLiteral := by
  -- the first `i` is the one after the value
  have hvalue := ne_i_of_isDigits hvs
  have htake : (vs ++ 'i' :: ds).takeWhile (· ≠ 'i') = vs := by
    rw [List.takeWhile_append_of_pos hvalue]
    simp
  have hdrop : (vs ++ 'i' :: ds).dropWhile (· ≠ 'i') = 'i' :: ds := by
    rw [List.dropWhile_append_of_pos hvalue]
    simp
  have hliteral : isIntLiteral word = true := by
    simp only [isIntLiteral, hword, htake, hdrop, hvs, hds, Bool.and_self]
  simp [classify, hliteral]

end Numbers

/-- An integer and what is written right after it are one word if they are classified so. -/
private theorem spells_signed {text : String} {v : Int} {suffix : List Char} {k : Kind}
    (htext : text.toList = (intText v).toList ++ suffix)
    (hsuffix : ∀ c ∈ suffix, isWordChar c = true)
    (hk : ∀ word, dropSign word = (natText v.natAbs).toList ++ suffix → classify word = k)
    (hnumber : k = .number ∨ k = .intLiteral) : Spells text [⟨k, text⟩] := by
  -- a negative integer is read by the rule for signs, any other as a word
  obtain ⟨d, ds, hcs, hd⟩ := natText_eq_cons v.natAbs
  have hword : ∀ c ∈ d :: ds ++ suffix, isWordChar c = true := by
    rw [List.forall_mem_append, ← hcs]
    exact ⟨fun c hc => isWordChar_of_mem_natText hc, hsuffix⟩
  rw [Text.toList_intText, hcs] at htext
  rw [hcs] at hk
  by_cases hv : v < 0
  · rw [if_pos hv] at htext
    exact spells_negative htext hd hword (hk _ rfl) hnumber
  · rw [if_neg hv] at htext
    have hclass : classify text.toList = k := by
      apply hk
      rw [htext]
      exact dropSign_of_isWordChar (isWordChar_of_isDigit hd)
    have hspells := @spells_word text (by simp [htext]) (by
      rw [htext]
      exact List.all_eq_true.2 hword)
    rwa [hclass] at hspells

/-- A number spells itself. -/
theorem spells_intText (v : Int) : Spells (intText v) [⟨.number, intText v⟩] := by
  refine @spells_signed _ v [] _ (by simp) (by simp) ?_ (.inl rfl)
  intro word hword
  rw [List.append_nil] at hword
  exact classify_number (hword ▸ isDigits_natText _)

/-- A number spells itself. -/
theorem spells_natText (n : Nat) : Spells (natText n) [⟨.number, natText n⟩] :=
  spells_intText n

/-- A literal with its width spells one token. -/
theorem spells_literal (v : Int) (width : Nat) :
    Spells (intText v ++ "i" ++ natText width)
      [⟨.intLiteral, intText v ++ "i" ++ natText width⟩] := by
  refine @spells_signed _ v ('i' :: (natText width).toList) _ ?_ ?_ ?_ (.inr rfl)
  · rw [String.toList_append, String.toList_append, List.append_assoc]
    rfl
  · rw [List.forall_mem_cons]
    exact ⟨by decide, fun c hc => isWordChar_of_mem_natText hc⟩
  · intro word hword
    exact classify_intLiteral hword (isDigits_natText _) (isDigits_natText _)

/-! ## Names -/

/-- What begins with a letter is no number. -/
private theorem not_isNumber_of_letter {c : Char} {cs : List Char} (hc : isWordChar c = true)
    (hletter : c.isDigit = false) : isNumber (c :: cs) = false := by
  rw [isNumber, dropSign_of_isWordChar hc]
  simp [isDigits, hletter]

/-- What begins with a letter is no literal. -/
private theorem not_isIntLiteral_of_letter {c : Char} {cs : List Char} (hc : isWordChar c = true)
    (hletter : c.isDigit = false) : isIntLiteral (c :: cs) = false := by
  -- what stands before the first `i` is empty or begins with the letter
  have htake : isDigits ((c :: cs).takeWhile (· ≠ 'i')) = false := by
    by_cases hi : c = 'i'
    · simp [hi, isDigits]
    · simp [hi, isDigits, hletter]
  rw [isIntLiteral, dropSign_of_isWordChar hc]
  split
  · rfl
  · rw [htake, Bool.false_and]

/-- No reserved word has a digit in it. -/
private theorem lookup_of_isDigit {text : String} {d : Char} (hd : d.isDigit = true)
    (hmem : d ∈ text.toList) : reservedWords.lookup text = none := by
  have hletters : ∀ p ∈ reservedWords, p.1.toList.any Char.isDigit = false := by decide
  rw [List.lookup_eq_none_iff]
  intro p hp
  rw [bne_iff_ne]
  intro heq
  have hdigits := hletters p hp
  rw [← heq, List.any_eq_false] at hdigits
  exact hdigits d hmem hd

/-- A letter and digits are an identifier. -/
private theorem spells_lettered {text : String} {c : Char} {n : Nat}
    (htext : text.toList = c :: (natText n).toList) (hc : isWordChar c = true)
    (hletter : c.isDigit = false) : Spells text [⟨.identifier, text⟩] := by
  -- no literal, no number and no reserved word is left
  obtain ⟨d, ds, hcs, hd⟩ := natText_eq_cons n
  have hnumber := @not_isNumber_of_letter c (natText n).toList hc hletter
  have hliteral := @not_isIntLiteral_of_letter c (natText n).toList hc hletter
  have hreserved : reservedWords.lookup text = none :=
    lookup_of_isDigit hd (by simp [htext, hcs])
  have hk : classify text.toList = .identifier := by
    rw [← htext] at hnumber hliteral
    simp [classify, hliteral, hnumber, hreserved]
  have hspells := @spells_word text (by simp [htext]) (by
    rw [List.all_eq_true, htext, List.forall_mem_cons]
    exact ⟨hc, fun c hc => isWordChar_of_mem_natText hc⟩)
  rwa [hk] at hspells

theorem spells_var (id : VarId) : Spells (VarId.text id) [⟨.identifier, VarId.text id⟩] := by
  refine spells_lettered (c := 'v') (n := id) ?_ (by decide) (by decide)
  rw [VarId.text, String.toList_append]
  rfl

/-- A type of integers spells the word of its width. -/
theorem spells_intType (width : Nat) :
    Spells ("i" ++ natText width) [⟨.identifier, "i" ++ natText width⟩] := by
  refine spells_lettered (c := 'i') (n := width) ?_ (by decide) (by decide)
  rw [String.toList_append]
  rfl

/-- Variables that are written alike are the same. -/
theorem text_injective {x y : VarId} (h : VarId.text x = VarId.text y) : x = y :=
  Text.natText_injective (String.append_right_inj "v" |>.1 h)

end BranchIR
