import BranchIR.Exp.Parser
import BranchIR.Proofs.Literal
import BranchIR.Proofs.Phrase.Words
import BranchIR.Proofs.Token.Words

/-!
# Which literals are read

The text of a literal is a sign, the digits of a value, an `i`, and the digits of a width. Digits
may go on without end, and zeros may stand in front: the literal is told by the two numbers that
it spells. It is read exactly if the value fits the width and is a 128-bit integer, which is what
literals can hold.
-/

namespace BranchIR

open Text (maxWord)

/-- A word with these digits before its `i` and after it, and with a sign in front or without. -/
structure LiteralDigits (word : List Char) (negative : Bool) (value width : List Char) : Prop where
  word : word = (if negative then ['-'] else []) ++ value ++ 'i' :: width
  value : isDigits value = true
  width : isDigits width = true

/-- The number that digits spell. -/
def spelled (digits : List Char) : Nat := Nat.ofDigitChars 10 digits 0

/-- The number that digits spell behind a sign, or without one. -/
def signed (negative : Bool) (digits : List Char) : Int :=
  if negative then -(spelled digits : Int) else spelled digits

/-- Integer types have the width, and the value is among the signed or the unsigned numbers of so
    many bits. -/
def InRange (value : Int) (width : Nat) : Prop :=
  (1 ≤ width ∧ width ≤ 2 ^ 23) ∧ -2 ^ (width - 1) ≤ value ∧ value ≤ 2 ^ width - 1

/-- The value is a 128-bit integer. -/
def IsWide (value : Int) : Prop := -2 ^ 127 ≤ value ∧ value ≤ 2 ^ 127 - 1

instance (value : Int) (width : Nat) : Decidable (InRange value width) :=
  inferInstanceAs (Decidable (_ ∧ _))

instance (value : Int) : Decidable (IsWide value) := inferInstanceAs (Decidable (_ ∧ _))

/-! ## Digits -/

section Digits

variable {ds : List Char}

/-- A text of digits has a digit at least. -/
private theorem isDigits_iff : isDigits ds = true ↔ ds ≠ [] ∧ ∀ c ∈ ds, c.isDigit = true := by
  simp [isDigits]

/-- Digits are read as the number that they spell. -/
private theorem digits?_of_isDigits (h : isDigits ds = true) :
    Text.digits? ds = some (spelled ds) := by
  obtain ⟨hne, hall⟩ := isDigits_iff.1 h
  cases ds with
  | nil => exact absurd rfl hne
  | cons c cs => exact Text.digitsFrom?_of_isDigit hall

/-- Digits have no sign to drop. -/
private theorem dropPlus_of_isDigits (h : isDigits ds = true) : Text.dropPlus ds = ds :=
  Text.dropPlus_of_isDigit (isDigits_iff.1 h).2

/-- Digits are read as the number that they spell, if it is a 32-bit word. -/
private theorem word?_of_isDigits (h : isDigits ds = true) :
    Text.word? (String.ofList ds) = if spelled ds ≤ maxWord then some (spelled ds) else none := by
  rw [Text.word?, Text.natUpTo?, String.toList_ofList, dropPlus_of_isDigits h,
    digits?_of_isDigits h, Option.filter_some]
  simp

/-- A sign and digits are read as the integer that they spell, if it is within the bounds. -/
private theorem intWithin?_of_isDigits (low high : Int) (negative : Bool) (h : isDigits ds = true) :
    Text.intWithin? low high ((if negative then ['-'] else []) ++ ds) =
      if low ≤ signed negative ds ∧ signed negative ds ≤ high then some (signed negative ds)
      else none := by
  have hread := digits?_of_isDigits h
  have hfilter (v : Int) : (some v).filter (fun v => decide (low ≤ v) && decide (v ≤ high)) =
      if low ≤ v ∧ v ≤ high then some v else none := by
    rw [Option.filter_some, ← Bool.decide_and]
    simp
  unfold Text.intWithin?
  cases negative with
  | true =>
    simp only [if_true, List.singleton_append, hread, signed]
    exact hfilter _
  | false =>
    simp only [Bool.false_eq_true, if_false, List.nil_append, signed]
    split
    · -- the first character is a digit, so it is no sign
      have hdigit := (isDigits_iff.1 h).2 '-' (by simp)
      exact absurd hdigit (by decide)
    · simp only [dropPlus_of_isDigits h, hread]
      exact hfilter _

end Digits

/-! ## Words -/

section Words

variable {word : List Char} {negative : Bool} {value width : List Char}

/-- Without its sign the literal begins with its value. -/
private theorem LiteralDigits.dropSign_eq (h : LiteralDigits word negative value width) :
    dropSign word = value ++ 'i' :: width := by
  obtain ⟨hne, hall⟩ := isDigits_iff.1 h.value
  rw [h.word]
  cases negative with
  | true => rfl
  | false =>
    cases value with
    | nil => exact absurd rfl hne
    | cons c cs => exact dropSign_of_isWordChar (isWordChar_of_isDigit (hall c (by simp)))

/-- A word that gets the kind of literals has their form. -/
private theorem isIntLiteral_of_classify (h : classify word = .intLiteral) :
    isIntLiteral word = true := by
  have hreserved : ∀ entry ∈ reservedWords, entry.2 ≠ Kind.intLiteral := by decide
  unfold classify at h
  split at h
  · next hliteral => exact hliteral
  · split at h
    · cases h
    · cases hlookup : reservedWords.lookup (String.ofList word) with
      | none =>
        rw [hlookup] at h
        cases h
      | some kind =>
        obtain ⟨before, after, heq, -⟩ := List.lookup_eq_some_iff.1 hlookup
        rw [hlookup] at h
        exact absurd h (hreserved (String.ofList word, kind) (by simp [heq]))

/-- The words that are classified as literals are those with digits before an `i` and after it. -/
theorem classify_eq_intLiteral : classify word = .intLiteral ↔
    ∃ negative value width, LiteralDigits word negative value width := by
  constructor
  · intro h
    -- a minus sign in front, or none
    have hsign : ∃ negative : Bool,
        word = (if negative then ['-'] else []) ++ dropSign word := by
      unfold dropSign
      split
      · exact ⟨true, rfl⟩
      · exact ⟨false, rfl⟩
    obtain ⟨negative, hword⟩ := hsign
    have hliteral := isIntLiteral_of_classify h
    unfold isIntLiteral at hliteral
    split at hliteral
    · cases hliteral
    · next c width hdrop =>
      obtain ⟨hvalue, hwidth⟩ := Bool.and_eq_true_iff.1 hliteral
      -- the digits of the value end at the first `i`
      have hc : c = 'i' := by
        have hstop := List.head?_dropWhile_not (· ≠ 'i') (dropSign word)
        rw [hdrop] at hstop
        simpa using hstop
      have hsplit := List.takeWhile_append_dropWhile (p := (· ≠ 'i')) (l := dropSign word)
      rw [hdrop, hc] at hsplit
      rw [← hsplit, ← List.append_assoc] at hword
      exact ⟨negative, _, width, hword, hvalue, hwidth⟩
  · rintro ⟨negative, value, width, h⟩
    exact classify_intLiteral h.dropSign_eq h.value h.width

end Words

/-! ## Literals -/

section Literals

variable {text : String} {negative : Bool} {value width : List Char}

/-- Neither a sign nor a digit is an `i`. -/
private theorem ne_i_of_mem (h : isDigits value = true) :
    ∀ c ∈ (if negative then ['-'] else []) ++ value, c ≠ 'i' := by
  rintro c hc rfl
  rcases List.mem_append.1 hc with hsign | hdigit
  · cases negative <;> simp at hsign
  · exact absurd ((isDigits_iff.1 h).2 'i' hdigit) (by decide)

/-- The numbers that a text spells are read as a literal if the value fits the width and has 128
    bits. -/
theorem literal?_of_digits (h : LiteralDigits text.toList negative value width) :
    literal? text =
      if InRange (signed negative value) (spelled width) ∧ IsWide (signed negative value) then
        some (signed negative value, spelled width)
      else none := by
  -- the text is cut at its `i`, since neither a sign nor a digit is one
  have hcut := @cutAtChar?_append 'i' text
    (String.ofList ((if negative then ['-'] else []) ++ value)) (String.ofList width)
    (by rw [String.toList_ofList, String.toList_ofList, h.word])
    (by rw [String.toList_ofList]; exact ne_i_of_mem h.value)
  have hvalue : Text.wideInt? (String.ofList ((if negative then ['-'] else []) ++ value)) =
      if IsWide (signed negative value) then some (signed negative value) else none := by
    rw [Text.wideInt?, String.toList_ofList, intWithin?_of_isDigits _ _ _ h.value]
    rfl
  simp only [literal?, hcut, Option.bind_eq_bind, Option.bind_some, hvalue,
    word?_of_isDigits h.width]
  by_cases hwide : IsWide (signed negative value)
  -- what the reader asks of the two numbers is what the range asks
  · have hfits := @fits_iff _ (spelled width) hwide
    by_cases hword : spelled width ≤ maxWord
    · simp only [if_pos hwide, if_pos hword, Option.bind_some]
      by_cases hin : InRange (signed negative value) (spelled width)
      · rw [if_pos (hfits.2 hin), if_pos ⟨hin, hwide⟩]
      · rw [if_neg fun hyes => hin (hfits.1 hyes), if_neg fun hyes => hin hyes.1]
    · -- widths that are no words are no widths of integer types
      have hmax : maxWord = 2 ^ 32 - 1 := rfl
      have hout : ¬InRange (signed negative value) (spelled width) := fun hin => by
        have hwidth := hin.1.2
        omega
      have hno : ¬(InRange (signed negative value) (spelled width) ∧
          IsWide (signed negative value)) := fun hyes => hout hyes.1
      simp only [if_pos hwide, if_neg hword, if_neg hno, Option.bind_some, Option.bind_none]
  · have hno : ¬(InRange (signed negative value) (spelled width) ∧
        IsWide (signed negative value)) := fun hyes => hwide hyes.2
    simp only [if_neg hwide, if_neg hno, Option.bind_none]

end Literals

/-! ## Tokens -/

section Tokens

variable {s : State} {negative : Bool} {value width : List Char}

/-- A literal with a value is read with it. -/
private theorem readAtom_of_some {v : Int} {w : Nat} (hkind : s.current.kind = .intLiteral)
    (h : literal? s.current.text = some (v, w)) :
    OpeningForm.readAtom s = .ok (.int s.current.span v w) s.next := by
  have hkind' : Parser.kind s = .ok .intLiteral s := congrArg (EStateM.Result.ok · s) hkind
  have hadvance : Parser.advance s = .ok s.current s.next := rfl
  simp only [OpeningForm.readAtom, bind, EStateM.bind, hkind', hadvance, h]
  rfl

/-- A literal without a value is refused where it begins. -/
private theorem readAtom_of_none (hkind : s.current.kind = .intLiteral)
    (h : literal? s.current.text = none) :
    OpeningForm.readAtom s =
      .error ⟨.badNumber s.current.text, s.current.span.first⟩ s.next := by
  have hkind' : Parser.kind s = .ok .intLiteral s := congrArg (EStateM.Result.ok · s) hkind
  have hadvance : Parser.advance s = .ok s.current s.next := rfl
  simp only [OpeningForm.readAtom, bind, EStateM.bind, hkind', hadvance, h]
  rfl

/-- A literal is read if its value has 128 bits and fits its width, and then as what it spells. All
    others are refused where they begin. -/
theorem readAtom_intLiteral (hkind : s.current.kind = .intLiteral)
    (h : LiteralDigits s.current.text.toList negative value width) :
    OpeningForm.readAtom s =
      if InRange (signed negative value) (spelled width) ∧ IsWide (signed negative value) then
        .ok (.int s.current.span (signed negative value) (spelled width)) s.next
      else .error ⟨.badNumber s.current.text, s.current.span.first⟩ s.next := by
  have hread := literal?_of_digits h
  by_cases hin : InRange (signed negative value) (spelled width) ∧ IsWide (signed negative value)
  · rw [if_pos hin] at hread
    rw [if_pos hin, readAtom_of_some hkind hread]
  · rw [if_neg hin] at hread
    rw [if_neg hin, readAtom_of_none hkind hread]

/-- The current token is all of a source text. -/
private def alone (text : String) : State :=
  let stop := Text.byteCount text.toList
  ⟨[], ⟨.intLiteral, text, ⟨0, stop, unnamedFile⟩⟩, [Token.endAt stop unnamedFile], .empty⟩

/-- The least value of 8 bits, with zeros in front. -/
theorem readAtom_intLiteral_least :
    LiteralDigits "-00128i8".toList true "00128".toList "8".toList ∧
      OpeningForm.readAtom (alone "-00128i8") =
        .ok (.int ⟨0, 8, "shell"⟩ (-128) 8) (alone "-00128i8").next := by
  have hdigits : LiteralDigits "-00128i8".toList true "00128".toList "8".toList :=
    ⟨rfl, rfl, rfl⟩
  refine ⟨hdigits, (readAtom_intLiteral (s := alone "-00128i8") rfl hdigits).trans ?_⟩
  rw [if_pos (by decide)]
  rfl

/-- The first unsigned value of 128 bits that is no signed one. -/
private def unsigned128 : String := "170141183460469231731687303715884105728i128"

/-- A value that fits its width is refused, because it is no 128-bit integer. -/
theorem readAtom_refuses_unsigned :
    tokenize unsigned128 "shell" =
      .ok ((alone unsigned128).current :: (alone unsigned128).after) ∧
    ∃ value width, LiteralDigits unsigned128.toList false value width ∧
      InRange (signed false value) (spelled width) ∧
      OpeningForm.readAtom (alone unsigned128) =
        .error ⟨.badNumber unsigned128, ⟨0, "shell"⟩⟩ (alone unsigned128).next := by
  have hdigits : LiteralDigits unsigned128.toList false
      "170141183460469231731687303715884105728".toList "128".toList := ⟨rfl, rfl, rfl⟩
  refine ⟨by decide +kernel, _, _, hdigits, by decide +kernel, ?_⟩
  -- the value is one too many
  have hnone : literal? (alone unsigned128).current.text = none :=
    (literal?_of_digits hdigits).trans (if_neg (by decide +kernel))
  exact readAtom_of_none rfl hnone

end Tokens

end BranchIR
