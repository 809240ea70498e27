import BranchIR.Proofs.Phrase.Grammar
import BranchIR.Proofs.Text.Decimal
import BranchIR.Ty.Parser

/-!
# Words with a meaning

Three kinds of words mean something to the reader beyond their spelling: type words, literals
and the names of operations. Each is taken exactly as the grammar of phrases has it.
-/

namespace BranchIR

/-! ## Type words -/

namespace Ty

/-- The names of floats are words for them. -/
private theorem ofWord?_float (kind : FloatKind) : ofWord? kind.name = some (.float kind) := by
  cases kind <;> decide

/-- An `i` and a width within bounds are the word of an integer type. -/
private theorem ofWord?_int {digits : String} {width : Nat}
    (hreads : Text.word? digits = some width) (hlow : 1 ≤ width) (hhigh : width ≤ maxIntWidth) :
    ofWord? ("i" ++ digits) = some (.int width) := by
  have hlist : ("i" ++ digits).toList = 'i' :: digits.toList := by
    rw [String.toList_append]
    rfl
  -- no other type word begins with an `i`
  have hne {word : String} (hword : word.toList.head? ≠ some 'i') : "i" ++ digits ≠ word := by
    intro heq
    rw [← heq, hlist] at hword
    exact hword rfl
  have hvoid : "i" ++ digits ≠ "void" := hne (by decide)
  have hfloat : FloatKind.ofName? ("i" ++ digits) = none := by
    have hhalf : "i" ++ digits ≠ "half" := hne (by decide)
    have hsingle : "i" ++ digits ≠ "float" := hne (by decide)
    have hdouble : "i" ++ digits ≠ "double" := hne (by decide)
    have hquad : "i" ++ digits ≠ "fp128" := hne (by decide)
    simp only [FloatKind.ofName?, hhalf, hsingle, hdouble, hquad, if_false]
  have hread : Text.natUpTo? Text.maxWord digits.toList = some width := hreads
  simp only [ofWord?, hvoid, if_false, hfloat, hlist, hread, Option.bind_some]
  rw [if_pos ⟨hlow, hhigh⟩]

/-- Each kind of floats has one name. -/
private theorem name_of_ofName? {word : String} {kind : FloatKind}
    (h : FloatKind.ofName? word = some kind) : word = kind.name := by
  unfold FloatKind.ofName? at h
  -- one name after the other is compared
  repeat' split at h
  all_goals cases h <;> assumption

/-- A word that is taken for a type is a word of that type. -/
private theorem tyWord_of_ofWord? {word : String} {ty : Ty} (h : ofWord? word = some ty) :
    TyWord word ty := by
  unfold ofWord? at h
  split at h
  · next hvoid =>
    cases h
    rw [hvoid]
    exact .void
  -- the names of floats are tried before the `i` of integers
  · cases hfloat : FloatKind.ofName? word with
    | some kind =>
      rw [hfloat] at h
      cases h
      rw [name_of_ofName? hfloat]
      exact .float kind
    | none =>
      rw [hfloat] at h
      dsimp only at h
      split at h
      · next width hlist =>
        rw [Option.bind_eq_some_iff] at h
        obtain ⟨n, hn, h⟩ := h
        split at h
        · next hbounds =>
          cases h
          -- the word is an `i` and the text of its other characters
          have hword : word = "i" ++ String.ofList width := by
            apply String.toList_injective
            rw [hlist, String.toList_append, String.toList_ofList]
            simp
          have hreads : Text.word? (String.ofList width) = some n := by
            rw [Text.word?, String.toList_ofList]
            exact hn
          rw [hword]
          exact .int hreads hbounds.1 hbounds.2
        · cases h
      · cases h

/-- The reader takes the words of types for the types. -/
theorem ofWord?_eq_some {word : String} {ty : Ty} :
    ofWord? word = some ty ↔ TyWord word ty := by
  refine ⟨tyWord_of_ofWord?, fun h => ?_⟩
  cases h with
  | void => decide
  | float kind => exact ofWord?_float kind
  | int reads low high => exact ofWord?_int reads low high

end Ty

/-! ## Literals -/

/-- A text is cut at the character if none stands before it. -/
theorem cutAtChar?_append {c : Char} {text before after : String}
    (htext : text.toList = before.toList ++ c :: after.toList) (h : ∀ x ∈ before.toList, x ≠ c) :
    cutAtChar? c text = some (before, after) := by
  have hpass : ∀ x ∈ before.toList, decide (x ≠ c) = true := fun x hx => decide_eq_true (h x hx)
  have hdrop : text.toList.dropWhile (· ≠ c) = c :: after.toList := by
    rw [htext, List.dropWhile_append_of_pos hpass]
    simp
  have htake : text.toList.takeWhile (· ≠ c) = before.toList := by
    rw [htext, List.takeWhile_append_of_pos hpass]
    simp
  simp only [cutAtChar?, hdrop, htake, String.ofList_toList]

/-- The parts of a text that is cut, with the character between, are the text. -/
private theorem eq_of_cutAtChar? {c : Char} {text before after : String}
    (h : cutAtChar? c text = some (before, after)) :
    text.toList = before.toList ++ c :: after.toList := by
  simp only [cutAtChar?] at h
  cases hdrop : text.toList.dropWhile (· ≠ c) with
  | nil =>
    rw [hdrop] at h
    cases h
  | cons x rest =>
    rw [hdrop] at h
    cases h
    -- what stopped the run of other characters is the character itself
    have hx : x = c := by
      have hstop := List.head?_dropWhile_not (· ≠ c) text.toList
      rw [hdrop] at hstop
      simpa using hstop
    have hsplit := List.takeWhile_append_dropWhile (p := (· ≠ c)) (l := text.toList)
    rw [hdrop, hx] at hsplit
    rw [String.toList_ofList, String.toList_ofList]
    exact hsplit.symm

/-- The text of a value, an `i` and the text of a width are a literal. -/
theorem literal?_append {digits widthDigits : String} {value : Int} {width : Nat}
    (hvalue : Text.wideInt? digits = some value) (hwidth : Text.word? widthDigits = some width)
    (hfits : fits value width = true) :
    literal? (digits ++ "i" ++ widthDigits) = some (value, width) := by
  -- the literal is cut at its first `i`, and there is none in the value
  have hne : ∀ x ∈ digits.toList, x ≠ 'i' := by
    intro x hx hi
    subst hi
    rcases Text.wideInt?_chars hvalue 'i' hx with heq | heq | hdigit
    · exact absurd heq (by decide)
    · exact absurd heq (by decide)
    · exact absurd hdigit (by decide)
  have hcut := @cutAtChar?_append 'i' (digits ++ "i" ++ widthDigits) digits widthDigits
    (by rw [String.toList_append, String.toList_append, List.append_assoc]; rfl) hne
  simp only [literal?, hcut, Option.bind_eq_bind, Option.bind_some, hvalue, hwidth, hfits, if_true]

/-- The reader takes the texts of literals, and no others. -/
theorem literal?_isSome {text : String} :
    (∃ value width, literal? text = some (value, width)) ↔ LiteralText text := by
  constructor
  · intro ⟨value, width, h⟩
    simp only [literal?, Option.bind_eq_bind, Option.bind_eq_some_iff] at h
    obtain ⟨⟨digits, widthDigits⟩, hcut, value', hvalue, width', hwidth, h⟩ := h
    split at h
    · next hfits =>
      have htext : text = digits ++ "i" ++ widthDigits := by
        apply String.toList_injective
        rw [eq_of_cutAtChar? hcut, String.toList_append, String.toList_append, List.append_assoc]
        rfl
      rw [htext]
      exact .mk hvalue hwidth hfits
    · cases h
  · rintro ⟨hvalue, hwidth, hfits⟩
    exact ⟨_, _, literal?_append hvalue hwidth hfits⟩

/-! ## Operations -/

/-- Only the name of an operation stands for it. -/
theorem PrimOp.name_of_ofName? {word : String} {op : PrimOp} (h : PrimOp.ofName? word = some op) :
    word = op.name := by
  unfold ofName? at h
  -- one name after the other is compared
  repeat' split at h
  all_goals cases h <;> assumption

end BranchIR
