import BranchIR.Exp.Basic
import BranchIR.Proofs.Token.Lexemes

/-!
# The front of a text

One step of the lexer takes a piece off the front of a text. The rules by which it does are few:
a token is a word, a signed number or a mark, and a gap is a run of blanks or a comment. What
holds of all tokens, or of all gaps, is proved rule by rule.

## Key results

- `front_eq_token`, `front_eq_gap`: the rules by which a piece is taken off
- `front_ne_endOfInput`, `front_spelled`: what tokens are and how they are written
- `front_text`: the text of a token is the piece that is taken off
- `front_isName`: which words are identifiers
- `front_clean`: no more of a word stands after a word
- `front_between`: a gap is made of blanks and comments
-/

namespace BranchIR

open Text (isBlank)

/-- Whether the lexeme is written as those of its kind are. -/
def Lexeme.spelled (w : Lexeme) : Bool :=
  match w.kind with
  | .number | .intLiteral | .identifier => true
  | .primWord => (PrimOp.ofName? w.text).isSome
  | k => w.text == k.spelling

/-- Whether tokens of the kind are words or numbers. -/
def Kind.isWord : Kind → Bool
  | .number | .intLiteral | .identifier | .recWord | .andWord | .inWord | .caseWord | .asWord
  | .letWord | .funWord | .primWord | .gepWord | .loadWord | .storeWord | .updateWord
  | .underscore => true
  | _ => false

/-- Whether the text is a word that is no number and not reserved. -/
def isName (text : String) : Bool :=
  !text.toList.isEmpty && text.toList.all isWordChar && classify text.toList == .identifier

/-- White space and comments, with `rest` after them. A comment goes on up to a newline or to the
    end of the text. -/
inductive Gap (rest : List Char) : List Char → Prop
  | nil : Gap rest []
  | blank {c cs} (blank : isBlank c = true) (more : Gap rest cs) : Gap rest (c :: cs)
  | comment {text cs} (inLine : '\n' ∉ text) (ends : ∀ c ∈ (cs ++ rest).head?, c = '\n')
      (more : Gap rest cs) : Gap rest ('/' :: '/' :: (text ++ cs))

/-- How many characters a piece takes after its first. -/
def Front.more : Front → Nat
  | .gap more | .badNumber more => more
  | .token _ text => text.length - 1
  | .unknown => 0

variable {c : Char} {cs rest text : List Char} {kind : Kind} {more : Nat}

/-! ## Rules -/

/-- A token is a word, a number with its sign or a mark. -/
theorem front_eq_token (h : front c cs = .token kind text) :
    (isWordChar c = true ∧ kind = classify text ∧ text = c :: cs.takeWhile isWordChar) ∨
      ((kind = .number ∨ kind = .intLiteral) ∧ text = c :: cs.takeWhile isWordChar) ∨
      mark? c cs = some (kind, text) := by
  -- the rules in their order: words, a minus sign, blanks, comments, marks
  unfold front at h
  split at h
  · next hc =>
    cases h
    exact .inl ⟨hc, rfl, rfl⟩
  · split at h
    · -- a minus sign: of the kinds of words, only numbers may have one
      dsimp only at h
      split at h
      · cases h
        exact .inr (.inl ⟨.inr rfl, rfl⟩)
      · cases h
        exact .inr (.inl ⟨.inl rfl, rfl⟩)
      · cases h
    · split at h
      · cases h
      · split at h
        · cases h
        · split at h
          · next hmark =>
            cases h
            exact .inr (.inr hmark)
          · cases h

/-- A gap is a run of blanks or a comment. -/
theorem front_eq_gap (h : front c cs = .gap more) :
    (isBlank c = true ∧ more = (cs.takeWhile isBlank).length) ∨
      (c = '/' ∧ cs.head? = some '/' ∧ more = (cs.takeWhile (· ≠ '\n')).length) := by
  unfold front at h
  split at h
  · cases h
  · split at h
    · dsimp only at h
      split at h <;> cases h
    · split at h
      · next hc =>
        cases h
        exact .inl ⟨hc, rfl⟩
      · split at h
        · next hslash =>
          cases h
          exact .inr ⟨hslash.1, hslash.2, rfl⟩
        · split at h <;> cases h

/-- A sign that begins no number is refused with the word after it. -/
private theorem front_eq_badNumber (h : front c cs = .badNumber more) :
    more = (cs.takeWhile isWordChar).length := by
  unfold front at h
  split at h
  · cases h
  · split at h
    · dsimp only at h
      split at h <;> cases h
      rfl
    · split at h
      · cases h
      · split at h
        · cases h
        · split at h <;> cases h

/-! ## Tokens -/

/-- A word is of a kind that holds for words in general or of that of a reserved word. -/
private theorem classify_cases {motive : Kind → Prop} (word : List Char)
    (literal : motive .intLiteral) (number : motive .number) (identifier : motive .identifier)
    (reserved : ∀ kind, (String.ofList word, kind) ∈ reservedWords → motive kind) :
    motive (classify word) := by
  unfold classify
  split
  · exact literal
  · split
    · exact number
    · cases hlookup : reservedWords.lookup (String.ofList word) with
      | none => exact identifier
      | some kind =>
        obtain ⟨before, after, heq, -⟩ := List.lookup_eq_some_iff.1 hlookup
        exact reserved kind (by simp [heq])

private theorem classify_ne_endOfInput (word : List Char) : classify word ≠ .endOfInput := by
  have hreserved : ∀ entry ∈ reservedWords, entry.2 ≠ Kind.endOfInput := by decide
  exact classify_cases (motive := (· ≠ .endOfInput)) word (by decide) (by decide) (by decide)
    fun kind hkind => hreserved _ hkind

/-- No mark ends the input. -/
private theorem mark?_ne_endOfInput (h : mark? c cs = some (kind, text)) : kind ≠ .endOfInput := by
  rintro rfl
  unfold mark? at h
  split at h
  · split at h <;> simp at h
  · split at h <;> simp at h
  all_goals simp at h

/-- No text begins with the end of the input. -/
theorem front_ne_endOfInput (h : front c cs = .token kind text) : kind ≠ .endOfInput := by
  rcases front_eq_token h with ⟨-, rfl, -⟩ | ⟨rfl | rfl, -⟩ | hmark
  · exact classify_ne_endOfInput _
  · decide
  · decide
  · exact mark?_ne_endOfInput hmark

/-- A word is written as those of its kind. -/
private theorem classify_spelled (word : List Char) :
    Lexeme.spelled ⟨classify word, String.ofList word⟩ = true := by
  -- the table of reserved words is finite
  have hreserved : ∀ entry ∈ reservedWords, Lexeme.spelled ⟨entry.2, entry.1⟩ = true := by decide
  exact classify_cases (motive := fun kind => Lexeme.spelled ⟨kind, String.ofList word⟩ = true)
    word rfl rfl rfl fun kind hkind => hreserved _ hkind

/-- The text that is given to the tokens of a mark is how the mark is written. -/
private theorem mark?_spelled (h : mark? c cs = some (kind, text)) :
    Lexeme.spelled ⟨kind, String.ofList text⟩ = true := by
  unfold mark? at h
  split at h
  · split at h <;> cases h
    rfl
  · split at h <;> cases h <;> rfl
  all_goals
    cases h
    try rfl

/-- What stands at the front of a text is written as tokens of its kind are. -/
theorem front_spelled (h : front c cs = .token kind text) :
    Lexeme.spelled ⟨kind, String.ofList text⟩ = true := by
  rcases front_eq_token h with ⟨-, rfl, -⟩ | ⟨rfl | rfl, -⟩ | hmark
  · exact classify_spelled _
  · rfl
  · rfl
  · exact mark?_spelled hmark

/-- No mark is a word. -/
private theorem mark?_isWord (h : mark? c cs = some (kind, text)) : kind.isWord = false := by
  unfold mark? at h
  split at h
  · split at h <;> cases h
    rfl
  · split at h <;> cases h <;> rfl
  all_goals
    cases h
    try rfl

/-- An identifier is a word that is no number and not reserved. -/
theorem front_isName (h : front c cs = .token .identifier text) :
    isName (String.ofList text) = true := by
  rcases front_eq_token h with ⟨hc, hkind, rfl⟩ | ⟨hkind | hkind, -⟩ | hmark
  · have hall : (cs.takeWhile isWordChar).all isWordChar = true := List.all_takeWhile
    simp [isName, hc, hall, ← hkind]
  · cases hkind
  · cases hkind
  · cases mark?_isWord hmark

/-! ## The text of a token -/

/-- The text that is given to the tokens of a mark stands at the front of the text. -/
private theorem mark?_text (h : mark? c cs = some (kind, text)) :
    text ++ cs.drop (text.length - 1) = c :: cs := by
  -- the second character of the longer marks
  have hhead (hd : cs.head? = some '>') : '>' :: cs.drop 1 = cs := by
    obtain ⟨rest, rfl⟩ := List.head?_eq_some_iff.1 hd
    rfl
  unfold mark? at h
  split at h
  · split at h
    · next hd =>
      cases h
      exact congrArg ('-' :: ·) (hhead hd)
    · cases h
  · split at h
    · next hd =>
      cases h
      exact congrArg ('=' :: ·) (hhead hd)
    · cases h
      rfl
  all_goals
    cases h
    try rfl

/-- The text that a token is given is the piece that is taken off the text. -/
theorem front_text (h : front c cs = .token kind text) :
    text ++ cs.drop (text.length - 1) = c :: cs := by
  have hword : c :: cs.takeWhile isWordChar ++ cs.drop (cs.takeWhile isWordChar).length =
      c :: cs := by
    rw [List.cons_append, List.drop_length_takeWhile, List.takeWhile_append_dropWhile]
  rcases front_eq_token h with ⟨-, -, rfl⟩ | ⟨-, rfl⟩ | hmark
  · exact hword
  · exact hword
  · exact mark?_text hmark

/-- A token has a character at least. -/
theorem front_text_ne_nil (h : front c cs = .token kind text) : text ≠ [] := by
  rintro rfl
  have hlength := congrArg List.length (front_text h)
  simp at hlength

/-- A word or a number is not followed by more of a word. -/
theorem front_clean (h : front c cs = .token kind text) (hword : kind.isWord = true) :
    Clean (cs.drop (text.length - 1)) := by
  -- the word has taken all characters of words that follow
  have hclean : Clean (cs.drop (cs.takeWhile isWordChar).length) := by
    rw [List.drop_length_takeWhile]
    intro d hd
    have hhead := List.head?_dropWhile_not isWordChar cs
    rw [hd] at hhead
    simpa using hhead
  rcases front_eq_token h with ⟨-, -, rfl⟩ | ⟨-, rfl⟩ | hmark
  · exact hclean
  · exact hclean
  · rw [mark?_isWord hmark] at hword
    cases hword

/-! ## The length of a piece -/

/-- No piece is longer than the text. -/
theorem front_more_le (c : Char) (cs : List Char) : (front c cs).more ≤ cs.length := by
  have htake (p : Char → Bool) : (cs.takeWhile p).length ≤ cs.length :=
    (List.takeWhile_prefix p).length_le
  cases hfront : front c cs with
  | token kind text =>
    have hlength := congrArg List.length (front_text hfront)
    simp only [List.length_append, List.length_drop, List.length_cons] at hlength
    show text.length - 1 ≤ cs.length
    omega
  | gap more =>
    rcases front_eq_gap hfront with ⟨-, rfl⟩ | ⟨-, -, rfl⟩
    · exact htake _
    · exact htake _
  | badNumber more =>
    rw [front_eq_badNumber hfront]
    exact htake _
  | unknown => exact Nat.zero_le _

/-! ## Gaps -/

/-- A gap that another gap follows. -/
theorem Gap.append {gap gap' : List Char} (h : Gap (gap' ++ rest) gap) (h' : Gap rest gap') :
    Gap rest (gap ++ gap') := by
  induction h with
  | nil => exact h'
  | blank hc _ ih => exact .blank hc ih
  | @comment text cs inLine ends _ ih =>
    have hends : ∀ c ∈ ((cs ++ gap') ++ rest).head?, c = '\n' := by
      rw [List.append_assoc]
      exact ends
    have hgap := Gap.comment inLine hends ih
    rwa [← List.append_assoc] at hgap

/-- Blanks alone are a gap. -/
private theorem gap_of_blanks {blanks : List Char} (h : ∀ c ∈ blanks, isBlank c = true) :
    Gap rest blanks := by
  induction blanks with
  | nil => exact .nil
  | cons c cs ih =>
    obtain ⟨hc, hcs⟩ := List.forall_mem_cons.1 h
    exact .blank hc (ih hcs)

/-- What is left out at the front of a text is white space or a comment. -/
theorem front_between (h : front c cs = .gap more) : Gap (cs.drop more) (c :: cs.take more) := by
  rcases front_eq_gap h with ⟨hblank, rfl⟩ | ⟨rfl, hslash, rfl⟩
  · rw [List.take_length_takeWhile]
    exact .blank hblank (gap_of_blanks (List.all_eq_true.1 List.all_takeWhile))
  · -- the comment ends where the text without its newline does
    obtain ⟨text, rfl⟩ := List.head?_eq_some_iff.1 hslash
    have hline : ('/' :: text).takeWhile (· ≠ '\n') = '/' :: text.takeWhile (· ≠ '\n') := by simp
    have hends : ∀ d ∈ ([] ++ text.dropWhile (· ≠ '\n')).head?, d = '\n' := by
      intro d hd
      have hhead := List.head?_dropWhile_not (· ≠ '\n') text
      rw [List.nil_append] at hd
      rw [hd] at hhead
      simpa using hhead
    have hinLine : '\n' ∉ text.takeWhile (· ≠ '\n') := by
      intro hmem
      simpa using List.all_eq_true.1 (List.all_takeWhile (p := (· ≠ '\n'))) _ hmem
    have hgap := Gap.comment hinLine hends .nil
    rw [List.append_nil] at hgap
    rw [List.take_length_takeWhile, List.drop_length_takeWhile, hline]
    simpa using hgap

end BranchIR
