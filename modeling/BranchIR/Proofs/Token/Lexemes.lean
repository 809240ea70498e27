import BranchIR.Proofs.List
import BranchIR.Text.Joined
import BranchIR.Token.Lexer

/-!
# What a text is read as

A token without its span is a lexeme. `Lexes` follows the lexer over a text without counting
offsets, and `Spells` and `Opens` say what a piece of text is read as wherever it stands: a
piece that spells lexemes may end in a word, so it must not be followed by more of a word,
while a piece that opens them may be followed by anything.

## Key results

- `tokenize_of_lexes`: a text that lexes is read as these lexemes
- `opens_blank`, `opens_newline`, `opens_comment`: pieces that are left out
- `spells_word`, `spells_reserved`, `opens_mark`: single words and marks
- `Opens.append`, `Spells.append`, `spells_joined`: pieces are put together
-/

namespace BranchIR

open Text (isBlank byteCount)

/-- A token without its span. -/
structure Lexeme where
  kind : Kind
  text : String
  deriving DecidableEq, Repr

/-- The kind and the text of a token. -/
def Token.lexeme (t : Token) : Lexeme := ⟨t.kind, t.text⟩

/-- How tokens of the kind are written, for kinds with one text only. -/
def Kind.spelling : Kind → String
  | .openBracket => "["
  | .closeBracket => "]"
  | .openCurly => "\x7b"
  | .closeCurly => "\x7d"
  | .openParen => "("
  | .closeParen => ")"
  | .less => "<"
  | .greater => ">"
  | .assignment => "="
  | .fatArrow => "=>"
  | .arrow => "->"
  | .ampersand => "&"
  | .atSign => "@"
  | .dot => "."
  | .colon => ":"
  | .comma => ","
  | .recWord => "rec"
  | .andWord => "and"
  | .inWord => "in"
  | .caseWord => "case"
  | .asWord => "as"
  | .letWord => "let"
  | .funWord => "fun"
  | .gepWord => "gep"
  | .loadWord => "load"
  | .storeWord => "store"
  | .updateWord => "update"
  | .underscore => "_"
  | .endOfInput => "EOF"
  | .number | .intLiteral | .identifier | .primWord => ""

/-- The lexeme of a kind with one text only. -/
def Kind.lexeme (k : Kind) : Lexeme := ⟨k, k.spelling⟩

@[simp] theorem Kind.kind_lexeme (k : Kind) : k.lexeme.kind = k := rfl

/-! ## The lexer without offsets -/

/-- The text is taken apart into the lexemes. -/
inductive Lexes : List Char → List Lexeme → Prop
  | nil : Lexes [] []
  | gap {c cs more ws} (front : front c cs = .gap more) (rest : Lexes (cs.drop more) ws) :
      Lexes (c :: cs) ws
  | token {c cs kind text ws} (front : front c cs = .token kind text)
      (rest : Lexes (cs.drop (text.length - 1)) ws) :
      Lexes (c :: cs) (⟨kind, String.ofList text⟩ :: ws)

/-- A text that lexes is read as the lexemes, with the end of the input after them. -/
private theorem tokensFrom_of_lexes {cs : List Char} {ws : List Lexeme} (h : Lexes cs ws)
    (file : String) (offset : Nat) : ∃ tokens, tokensFrom file offset cs = .ok tokens ∧
      tokens.map Token.lexeme = ws ++ [Kind.endOfInput.lexeme] := by
  induction h generalizing offset with
  | nil => exact ⟨_, by rw [tokensFrom], rfl⟩
  | gap hfront _ ih =>
    -- a gap moves the offset and leaves no token
    obtain ⟨tokens, hrun, hwords⟩ := ih _
    refine ⟨tokens, ?_, hwords⟩
    rw [tokensFrom, hfront]
    exact hrun
  | @token c cs kind text ws hfront _ ih =>
    obtain ⟨tokens, hrun, hwords⟩ := ih (offset + byteCount text)
    refine ⟨⟨kind, String.ofList text, ⟨offset, offset + byteCount text, file⟩⟩ :: tokens,
      ?_, ?_⟩
    · rw [tokensFrom, hfront]
      simp only [hrun]
      rfl
    · rw [List.map_cons, hwords]
      rfl

/-- A text that lexes is read as its lexemes and the end of the input, in any file. -/
theorem tokenize_of_lexes {source : String} {ws : List Lexeme} (h : Lexes source.toList ws)
    (file : String) : ∃ tokens, tokenize source file = .ok tokens ∧
      tokens.map Token.lexeme = ws ++ [Kind.endOfInput.lexeme] :=
  tokensFrom_of_lexes h file 0

/-! ## The front of a text -/

/-- The characters of words have these codes. -/
private theorem toNat_of_isWordChar {c : Char} (h : isWordChar c = true) :
    48 ≤ c.toNat ∧ c.toNat ≤ 57 ∨ 65 ≤ c.toNat ∧ c.toNat ≤ 122 := by
  change (decide (c.val ≥ 'A'.val ∧ c.val ≤ 'Z'.val) ||
    (decide (c.val ≥ 'a'.val) && decide (c.val ≤ 'z'.val)) ||
    (decide (c.val ≥ '0'.val) && decide (c.val ≤ '9'.val)) || c == '_') = true at h
  simp only [Bool.or_eq_true, Bool.and_eq_true, decide_eq_true_eq, beq_iff_eq, ge_iff_le,
    UInt32.le_iff_toNat_le] at h
  have hcode : c.toNat = c.val.toNat := rfl
  -- an upper case letter, a lower case letter, a digit or the underscore
  rcases h with ((h | h) | h) | rfl
  · simp at h
    omega
  · simp at h
    omega
  · simp at h
    omega
  · decide

/-- No character of a word is a blank. -/
private theorem isBlank_of_isWordChar {c : Char} (h : isWordChar c = true) : isBlank c = false := by
  -- no range of blanks meets the codes of words
  have hcode := toNat_of_isWordChar h
  simp only [isBlank, Text.blanks, Text.Ranges.has, List.any_cons, List.any_nil, Bool.or_false,
    Bool.or_eq_false_iff, Bool.and_eq_false_iff, decide_eq_false_iff_not]
  omega

/-- A blank begins a gap, which takes all blanks that follow. -/
theorem front_of_isBlank {c : Char} (hc : isBlank c = true) (cs : List Char) :
    front c cs = .gap (cs.takeWhile isBlank).length := by
  -- the two rules that come before the rule for blanks do not apply
  have hword : isWordChar c = false := by
    cases hword : isWordChar c with
    | false => rfl
    | true =>
      rw [isBlank_of_isWordChar hword] at hc
      cases hc
  have hminus : c ≠ '-' := by
    intro h
    rw [h] at hc
    exact absurd hc (by decide)
  simp [front, hword, hminus, hc]

/-- What begins no gap is no blank. -/
theorem isBlank_of_front {c : Char} {cs : List Char} {f : Front} (h : front c cs = f)
    (hf : ∀ more, f ≠ .gap more) : isBlank c = false := by
  cases hc : isBlank c with
  | false => rfl
  | true => exact absurd (h.symm.trans (front_of_isBlank hc cs)) (hf _)

/-- Blanks in front make no difference. -/
private theorem Lexes.dropWhile_isBlank {cs : List Char} {ws : List Lexeme} (h : Lexes cs ws) :
    Lexes (cs.dropWhile isBlank) ws := by
  cases cs with
  | nil => exact h
  | cons c cs =>
    cases hc : isBlank c with
    | false =>
      rw [List.dropWhile_cons, hc]
      exact h
    | true =>
      -- the lexer itself drops the blanks with its first step, which is a gap
      have hfront := front_of_isBlank hc cs
      rw [List.dropWhile_cons, if_pos hc, ← List.drop_length_takeWhile]
      cases h with
      | gap hgap rest =>
        rw [hfront] at hgap
        cases hgap
        exact rest
      | token htoken =>
        rw [hfront] at htoken
        cases htoken

/-- A blank in front makes no difference. -/
theorem Lexes.blank {c : Char} {cs : List Char} {ws : List Lexeme} (h : Lexes cs ws)
    (hc : isBlank c = true) : Lexes (c :: cs) ws := by
  apply Lexes.gap (front_of_isBlank hc cs)
  rw [List.drop_length_takeWhile]
  exact h.dropWhile_isBlank

/-- A comment makes no difference; it ends before a newline. -/
theorem Lexes.comment {text cs : List Char} {ws : List Lexeme} (htext : '\n' ∉ text)
    (h : Lexes ('\n' :: cs) ws) : Lexes ('/' :: '/' :: (text ++ '\n' :: cs)) ws := by
  have hall : ∀ c ∈ '/' :: text, decide (c ≠ '\n') = true := by
    intro c hc
    rw [decide_eq_true_iff]
    rintro rfl
    exact htext ((List.mem_cons.1 hc).resolve_left (by decide))
  have htake : ('/' :: (text ++ '\n' :: cs)).takeWhile (· ≠ '\n') = '/' :: text := by
    rw [← List.cons_append, List.takeWhile_append_of_pos hall]
    simp
  have hfront : front '/' ('/' :: (text ++ '\n' :: cs)) = .gap ('/' :: text).length := by
    rw [← htake]
    rfl
  apply Lexes.gap hfront
  rw [← List.cons_append, List.drop_left]
  exact h

/-! ## Pieces of text -/

/-- No word goes on at the front of the text. -/
def Clean (cs : List Char) : Prop := ∀ c ∈ cs.head?, isWordChar c = false

/-- The piece is read as the lexemes wherever no word goes on after it. -/
def Spells (text : String) (ws : List Lexeme) : Prop :=
  ∀ rest vs, Clean rest → Lexes rest vs → Lexes (text.toList ++ rest) (ws ++ vs)

/-- The piece is read as the lexemes whatever comes after it. -/
def Opens (text : String) (ws : List Lexeme) : Prop :=
  ∀ rest vs, Lexes rest vs → Lexes (text.toList ++ rest) (ws ++ vs)

/-- Whether the piece begins with a character that is no part of words. -/
def breaksWord (text : String) : Bool := text.toList.head?.any fun c => !isWordChar c

section Pieces

variable {a b : String} {us vs : List Lexeme}

/-- A piece that opens lexemes spells them. -/
theorem Opens.spells (h : Opens a us) : Spells a us := fun rest ws _ hrest => h rest ws hrest

/-- A piece that stands alone is read as what it spells. -/
theorem Spells.lexes (h : Spells a us) : Lexes a.toList us := by
  have hend := h [] [] (by simp [Clean]) .nil
  rwa [List.append_nil, List.append_nil] at hend

private theorem opens_nil : Opens "" [] := fun _ _ h => h

theorem opens_blank : Opens " " [] := fun _ _ h => h.blank (by decide)

theorem opens_newline : Opens "\n" [] := fun _ _ h => h.blank (by decide)

/-- A comment up to the end of its line. -/
theorem opens_comment (h : '\n' ∉ a.toList) : Opens ("//" ++ a ++ "\n") [] := by
  intro rest ws hrest
  have hcomment := Lexes.comment h (opens_newline rest ws hrest)
  simpa [String.toList_append] using hcomment

theorem Opens.append (ha : Opens a us) (hb : Opens b vs) : Opens (a ++ b) (us ++ vs) := by
  intro rest ws h
  rw [String.toList_append, List.append_assoc, List.append_assoc]
  exact ha _ _ (hb rest ws h)

theorem Opens.append_spells (ha : Opens a us) (hb : Spells b vs) : Spells (a ++ b) (us ++ vs) := by
  intro rest ws hclean h
  rw [String.toList_append, List.append_assoc, List.append_assoc]
  exact ha _ _ (hb rest ws hclean h)

/-- A piece that begins with no character of words may stand after a word. -/
theorem Spells.append (ha : Spells a us) (hb : Opens b vs) (hbreak : breaksWord b = true) :
    Opens (a ++ b) (us ++ vs) := by
  intro rest ws h
  rw [String.toList_append, List.append_assoc, List.append_assoc]
  refine ha _ _ ?_ (hb rest ws h)
  rw [breaksWord] at hbreak
  cases hchars : b.toList with
  | nil => simp [hchars] at hbreak
  | cons c cs => simpa [Clean, hchars] using hbreak

end Pieces

/-! ## Words -/

/-- A word goes as far as its characters if no more of a word follows. -/
private theorem takeWhile_append_of_clean {cs rest : List Char}
    (h : ∀ c ∈ cs, isWordChar c = true) (hclean : Clean rest) :
    (cs ++ rest).takeWhile isWordChar = cs := by
  -- the word ends at the end of the text or at the first character after it
  rw [List.takeWhile_append_of_pos h]
  cases rest with
  | nil => simp
  | cons d rest => simp [hclean d rfl]

/-- A word takes all of its characters. -/
theorem spells_word {text : String} (hne : text.toList ≠ [])
    (hword : text.toList.all isWordChar = true) :
    Spells text [⟨classify text.toList, text⟩] := by
  intro rest ws hclean h
  cases hchars : text.toList with
  | nil => exact absurd hchars hne
  | cons c cs =>
    rw [hchars, List.all_cons, Bool.and_eq_true] at hword
    obtain ⟨hc, hcs⟩ := hword
    have htake := takeWhile_append_of_clean (List.all_eq_true.1 hcs) hclean
    have hfront : front c (cs ++ rest) = .token (classify (c :: cs)) (c :: cs) := by
      simp [front, hc, htake]
    have htext : text = String.ofList (c :: cs) := by rw [← hchars, String.ofList_toList]
    rw [List.cons_append, List.singleton_append]
    -- only the text of the lexeme is rewritten, to what the lexer cuts off
    conv => rhs; rw [htext]
    apply Lexes.token hfront
    rwa [List.length_cons, Nat.add_sub_cancel, List.drop_left]

/-- A minus sign belongs to the number after it. -/
theorem spells_negative {text : String} {d : Char} {ds : List Char} {k : Kind}
    (htext : text.toList = '-' :: d :: ds) (hdigit : d.isDigit = true)
    (hword : ∀ c ∈ d :: ds, isWordChar c = true) (hk : classify ('-' :: d :: ds) = k)
    (hnumber : k = .number ∨ k = .intLiteral) : Spells text [⟨k, text⟩] := by
  intro rest ws hclean h
  have htake : (d :: ds ++ rest).takeWhile isWordChar = d :: ds :=
    takeWhile_append_of_clean hword hclean
  have hhead : (d :: ds ++ rest).head?.any Char.isDigit = true := hdigit
  -- the sign is no part of words, so the rule for signed numbers applies
  have hminus : isWordChar '-' = false := by decide
  have hfront : front '-' (d :: ds ++ rest) = .token k ('-' :: d :: ds) := by
    unfold front
    simp only [hminus, Bool.false_eq_true, if_false, hhead, and_self, if_true, htake, hk]
    rcases hnumber with rfl | rfl <;> rfl
  have hpiece : text = String.ofList ('-' :: d :: ds) := by rw [← htext, String.ofList_toList]
  rw [htext, List.cons_append, List.singleton_append]
  conv => rhs; rw [hpiece]
  apply Lexes.token hfront
  rwa [List.length_cons, Nat.add_sub_cancel, List.drop_left]

/-- A reserved word is read as one. -/
theorem spells_reserved {text : String} {k : Kind} (h : (text, k) ∈ reservedWords) :
    Spells text [⟨k, text⟩] := by
  -- the table is finite, and each of its words is looked up as itself
  have hall : ∀ p ∈ reservedWords, p.1.toList ≠ [] ∧
      p.1.toList.all isWordChar = true ∧ classify p.1.toList = p.2 := by
    decide
  obtain ⟨hne, hword, hk⟩ := hall _ h
  have hspells := spells_word hne hword
  rwa [hk] at hspells

/-! ## Marks -/

/-- A mark of one character opens, whatever follows it. -/
private theorem opens_char {text : String} {c : Char} {k : Kind} (htext : text.toList = [c])
    (hfront : ∀ cs, front c cs = .token k [c]) : Opens text [⟨k, text⟩] := by
  intro rest ws h
  have hpiece : text = String.ofList [c] := by rw [← htext, String.ofList_toList]
  rw [htext, List.singleton_append, List.singleton_append]
  conv => rhs; rw [hpiece]
  exact .token (hfront rest) h

/-- Whether the kind is a mark of one character that is no part of a longer mark. -/
def Kind.isMark : Kind → Bool
  | .openBracket | .closeBracket | .openCurly | .closeCurly | .openParen | .closeParen | .less
  | .greater | .ampersand | .atSign | .dot | .colon | .comma => true
  | _ => false

/-- A mark may stand before anything. -/
theorem opens_mark {k : Kind} (hk : k.isMark = true) : Opens k.spelling [k.lexeme] := by
  cases k <;> first | exact opens_char rfl fun _ => rfl | cases hk

/-- The marks that others begin with are read from the blank after them. -/
theorem opens_assignment : Opens "= " [Kind.assignment.lexeme] :=
  fun rest _ h => @Lexes.token '=' (' ' :: rest) _ ['='] _ rfl (h.blank (by decide))

theorem opens_fatArrow : Opens "=> " [Kind.fatArrow.lexeme] :=
  fun rest _ h => @Lexes.token '=' ('>' :: ' ' :: rest) _ ['=', '>'] _ rfl (h.blank (by decide))

theorem opens_arrow : Opens "-> " [Kind.arrow.lexeme] :=
  fun rest _ h => @Lexes.token '-' ('>' :: ' ' :: rest) _ ['-', '>'] _ rfl (h.blank (by decide))

/-! ## Lists -/

/-- The lexemes of items in a list, with a separator between each two. -/
def separated (separator : Lexeme) : List (List Lexeme) → List Lexeme
  | [] => []
  | [ws] => ws
  | ws :: wss => ws ++ separator :: separated separator wss

/-- Items with separators between are read as the items and the separators. -/
theorem spells_joined {α : Type} {text : α → String} {lexemes : α → List Lexeme}
    {separator : String} {w : Lexeme} (hopens : Opens separator [w])
    (hbreak : breaksWord separator = true) {xs : List α}
    (h : ∀ x ∈ xs, Spells (text x) (lexemes x)) :
    Spells (Text.joined separator (xs.map text)) (separated w (xs.map lexemes)) := by
  induction xs with
  | nil => exact opens_nil.spells
  | cons x xs ih =>
    obtain ⟨hx, hxs⟩ := List.forall_mem_cons.1 h
    cases xs with
    | nil => exact hx
    | cons y ys =>
      -- a word at the end of the item is closed by the separator
      have hspells := (hx.append hopens hbreak).append_spells (ih hxs)
      rw [List.append_assoc, List.singleton_append] at hspells
      exact hspells

end BranchIR
